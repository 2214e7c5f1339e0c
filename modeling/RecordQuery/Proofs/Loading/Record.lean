import RecordQuery.Loading.Projected
import RecordQuery.Proofs.Instance.Typed
import RecordQuery.Proofs.Query.WellFormed

/-!
# Loading one record

Loading walks through the fields that a query reads: its selected columns and its joins. For a well
formed query these are fields of the root schema, and what is loaded is a typed instance of it.
-/

namespace RecordQuery

theorem Payload.record_eq_ok {p : Payload} {schema : String} {record : Payload.Entries} :
    p.record schema = .ok record ↔ p = .mapping record := by
  cases p <;> simp [Payload.record]

/-- A joined relationship as a field of the schema. -/
def Join.toField (j : Join Query) : Field := ⟨j.field, j.attr⟩

namespace Query

/-- The fields that loading looks at. -/
def reads (q : Query) : List Field := q.selected ++ q.joins.map Join.toField

/-- The slot of a joined relationship from its entry. -/
def loadRelated (m : Model) (j : Join Query) (raw : Payload) : Except Error (Slot Instance) :=
  if j.attr.isMany then do
    return .many (← (← raw.records m.name j.field).mapM j.query.loadRecord)
  else
    match raw with
    | .null => if j.attr.nullable then return .one none else throw (.notNullable m.name j.field)
    | .mapping entries => do return .one (some (← j.query.loadRecord (.mapping entries)))
    | other => throw (Payload.mismatch m.name j.field .singleRecord other)

def loadJoin (m : Model) (record : Payload.Entries) (j : Join Query) :
    Except Error (String × Slot Instance) := do
  let raw ← required m j.field j.attr.externalName record
  return (j.field, ← loadRelated m j raw)

variable {q : Query} {m : Model} {j : Join Query} {record : Payload.Entries} {p raw : Payload}
  {x : Instance} {f : Field} {s : Slot Instance}

theorem loadJoins_eq (m : Model) (record : Payload.Entries) (joins : List (Join Query)) :
    loadJoins m record joins = joins.mapM (loadJoin m record) := by
  induction joins with
  | nil => rfl
  | cons j rest ih =>
    obtain ⟨field, attr, query⟩ := j
    rw [loadJoins, List.mapM_cons, loadJoin, ih, bind_assoc]
    congr 1
    funext raw
    unfold loadRelated
    cases attr.isMany with
    | true => simp only [if_true, bind_assoc, pure_bind]
    | false =>
      cases raw with
      | null => cases attr.nullable <;> simp
      | _ => simp

theorem required_eq_ok {field externalName : String} :
    required m field externalName record = .ok p ↔ record.lookup externalName = some p := by
  unfold required
  split
  · next found => rw [found, Except.ok.injEq, Option.some.injEq]
  · next absent => simp [absent]

theorem loadRecord_eq (q : Query) (p : Payload) : q.loadRecord p = do
    let record ← p.record q.root.name
    let scalars ← q.selected.mapM (loadColumn q.root record)
    let related ← q.joins.mapM (loadJoin q.root record)
    return .ofSlots q.root (scalars ++ related) := by
  obtain ⟨root, columns, joins, filter, order, limit, offset, count⟩ := q
  rw [loadRecord]
  simp only [loadJoins_eq, selected]

theorem loadRecord_eq_ok : q.loadRecord p = .ok x ↔
    ∃ record scalars related, p.record q.root.name = .ok record ∧
      q.selected.mapM (loadColumn q.root record) = .ok scalars ∧
      q.joins.mapM (loadJoin q.root record) = .ok related ∧
      x = .ofSlots q.root (scalars ++ related) := by
  simp only [loadRecord_eq, Outcome.bind_eq_ok, Outcome.pure_eq_ok]
  constructor
  · intro h
    obtain ⟨record, read, scalars, columns, related, joins, rfl⟩ := h
    exact ⟨record, scalars, related, read, columns, joins, rfl⟩
  · intro h
    obtain ⟨record, scalars, related, read, columns, joins, rfl⟩ := h
    exact ⟨record, read, scalars, columns, related, joins, rfl⟩

theorem loadRelated_many (many : j.attr.isMany = true) : loadRelated m j raw = .ok s ↔
    ∃ records xs, raw.records m.name j.field = .ok records ∧
      records.mapM j.query.loadRecord = .ok xs ∧ s = .many xs := by
  unfold loadRelated
  simp only [many, if_true, Outcome.bind_eq_ok, Outcome.pure_eq_ok]
  constructor
  · intro h
    obtain ⟨records, read, xs, loaded, rfl⟩ := h
    exact ⟨records, xs, read, loaded, rfl⟩
  · intro h
    obtain ⟨records, xs, read, loaded, rfl⟩ := h
    exact ⟨records, read, xs, loaded, rfl⟩

theorem loadRelated_single (single : j.attr.isMany = false) : loadRelated m j raw = .ok s ↔
    raw = .null ∧ j.attr.nullable = true ∧ s = .one none ∨
      ∃ entries x, raw = .mapping entries ∧ j.query.loadRecord raw = .ok x ∧
        s = .one (some x) := by
  unfold loadRelated
  simp only [single, Bool.false_eq_true, if_false]
  cases raw with
  | null =>
    cases j.attr.nullable with
    | true => simp [pure, Except.pure, eq_comm]
    | false => simp
  | mapping entries =>
    simp only [Outcome.bind_eq_ok, Outcome.pure_eq_ok]
    constructor
    · intro h
      obtain ⟨x, loaded, rfl⟩ := h
      exact .inr ⟨entries, x, rfl, loaded, rfl⟩
    · intro h
      rcases h with ⟨null, _⟩ | ⟨_, x, _, loaded, rfl⟩
      · cases null
      · exact ⟨x, loaded, rfl⟩
  | _ => simp

theorem load_eq_ok {records : List Payload} {xs : List Instance} : q.load records = .ok xs ↔
    q.count = false ∧ records.mapM q.loadRecord = .ok xs := by
  cases counting : q.count with
  | false => simp [load, counting]
  | true => simp [load, counting]

/-! ### Reading fields of the root -/

theorem Consistent.selected_scalar (h : q.Consistent) (mem : f ∈ q.selected) :
    f ∈ q.root.schema.fields ∧ f.attr.isRelation = false := by
  rw [selected, fieldsOf] at mem
  split at mem
  · exact Schema.mem_columns.mp mem
  · obtain ⟨p, hp, rfl⟩ := List.mem_map.mp mem
    have declared := AttributePath.mem_fields_of_attributeAt (h.columns_declared p hp)
    exact ⟨declared.2.2.2, p.toAttribute_isRelation⟩

theorem Consistent.join_field (h : q.Consistent) (mem : j ∈ q.joins) :
    j.toField ∈ q.root.schema.fields :=
  Schema.attr_eq_ok (h.joins_fit j mem).declared

theorem Consistent.reads_fields (h : q.Consistent) (mem : f ∈ q.reads) :
    f ∈ q.root.schema.fields := by
  rcases List.mem_append.mp mem with column | join
  · exact (h.selected_scalar column).1
  · obtain ⟨j, hj, rfl⟩ := List.mem_map.mp join
    exact h.join_field hj

theorem Consistent.selected_nodup (h : q.Consistent) : q.selected.Nodup := by
  rw [selected, fieldsOf]
  split
  · exact (h.built.valid _ q.root.mem).fields_nodup.filter _
  · refine .of_map Field.name ?_
    rw [List.map_map]
    exact h.columns_distinct

/-! ### Typed results -/

theorem loadColumn_eq_ok {name : String} : loadColumn m record f = .ok (name, s) ↔
    ∃ raw v, required m f.name f.attr.externalName record = .ok raw ∧
      f.attr.coercePayload m.name f.name raw = .ok v ∧ name = f.name ∧ s = .value v := by
  simp only [loadColumn, Outcome.bind_eq_ok, Outcome.pure_eq_ok, Prod.mk.injEq]
  constructor
  · intro h
    obtain ⟨raw, found, v, coerced, rfl, rfl⟩ := h
    exact ⟨raw, v, found, coerced, rfl, rfl⟩
  · intro h
    obtain ⟨raw, v, found, coerced, rfl, rfl⟩ := h
    exact ⟨raw, found, v, coerced, rfl, rfl⟩

theorem loadJoin_eq_ok {name : String} : loadJoin m record j = .ok (name, s) ↔
    ∃ raw, required m j.field j.attr.externalName record = .ok raw ∧
      loadRelated m j raw = .ok s ∧ name = j.field := by
  simp only [loadJoin, Outcome.bind_eq_ok, Outcome.pure_eq_ok, Prod.mk.injEq]
  constructor
  · intro h
    obtain ⟨raw, found, s, loaded, rfl, rfl⟩ := h
    exact ⟨raw, found, loaded, rfl⟩
  · intro h
    obtain ⟨raw, found, loaded, rfl⟩ := h
    exact ⟨raw, found, s, loaded, rfl, rfl⟩

theorem loadColumn_name {name : String} (run : loadColumn m record f = .ok (name, s)) :
    name = f.name := by
  obtain ⟨_, _, _, _, same, _⟩ := loadColumn_eq_ok.mp run
  exact same

theorem loadJoin_name {name : String} (run : loadJoin m record j = .ok (name, s)) :
    name = j.toField.name := by
  obtain ⟨_, _, _, same⟩ := loadJoin_eq_ok.mp run
  exact same

/-- Every field that is read gets a slot. -/
theorem exists_loaded {scalars related : List (String × Slot Instance)}
    (columns : q.selected.mapM (loadColumn m record) = .ok scalars)
    (joins : q.joins.mapM (loadJoin m record) = .ok related) (read : f ∈ q.reads) :
    ∃ s, (f.name, s) ∈ scalars ++ related := by
  rcases List.mem_append.mp read with column | join
  · obtain ⟨⟨name, s⟩, entry, step⟩ := Outcome.exists_of_mapM columns column
    exact ⟨s, loadColumn_name step ▸ List.mem_append_left _ entry⟩
  · obtain ⟨j, hj, rfl⟩ := List.mem_map.mp join
    obtain ⟨⟨name, s⟩, entry, step⟩ := Outcome.exists_of_mapM joins hj
    exact ⟨s, loadJoin_name step ▸ List.mem_append_right _ entry⟩

theorem loadColumn_fits {name : String} (scalar : f.attr.isRelation = false)
    (run : loadColumn m record f = .ok (name, s)) : Instance.Fits m f s := by
  obtain ⟨raw, v, _, coerced, _, rfl⟩ := loadColumn_eq_ok.mp run
  exact Instance.fits_value scalar (Attribute.holds_of_coercePayload coerced)

theorem loadRelated_fits (fits : j.Fits m)
    (below : ∀ p x, j.query.loadRecord p = .ok x → x.Typed ∧ x.model = j.query.root)
    (run : loadRelated m j raw = .ok s) : Instance.Fits m j.toField s := by
  have target {p x} (loaded : j.query.loadRecord p = .ok x) : m.related j.field = .ok x.model := by
    rw [(below p x loaded).2]
    exact fits.resolved
  cases arity : j.attr.isMany with
  | true =>
    obtain ⟨records, xs, _, loaded, rfl⟩ := (loadRelated_many arity).mp run
    apply Instance.fits_many fits.relation arity
    intro y hy
    obtain ⟨p, _, step⟩ := Outcome.mem_of_mapM loaded hy
    exact ⟨target step, (below p y step).1⟩
  | false =>
    rcases (loadRelated_single arity).mp run with ⟨_, nullable, rfl⟩ | ⟨_, x, _, loaded, rfl⟩
    · exact Instance.fits_none fits.relation arity nullable
    · exact Instance.fits_one fits.relation arity (target loaded) (below _ x loaded).1

/-- What is loaded by a well formed query is a typed instance of its root. -/
theorem WellFormed.loadRecord_typed (h : q.WellFormed) :
    ∀ p x, q.loadRecord p = .ok x → x.Typed ∧ x.model = q.root := by
  induction h with
  | @intro q here _ ih =>
    intro p x run
    obtain ⟨record, scalars, related, _, columns, joins, rfl⟩ := loadRecord_eq_ok.mp run
    refine ⟨Instance.typed_ofSlots here.built fun f hf s mem => ?_, rfl⟩
    have valid := here.built.valid _ q.root.mem
    rcases List.mem_append.mp mem with mem | mem
    · obtain ⟨g, hg, step⟩ := Outcome.mem_of_mapM columns mem
      obtain ⟨declared, scalar⟩ := here.selected_scalar hg
      obtain rfl := valid.eq_of_name hf declared (loadColumn_name step)
      exact loadColumn_fits scalar step
    · obtain ⟨j, hj, step⟩ := Outcome.mem_of_mapM joins mem
      obtain ⟨raw, _, loaded, same⟩ := loadJoin_eq_ok.mp step
      obtain rfl := valid.eq_of_name hf (here.join_field hj) same
      exact loadRelated_fits (here.joins_fit j hj) (ih j hj) loaded

end Query

end RecordQuery
