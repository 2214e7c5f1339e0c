import RecordQuery.Proofs.Loading.Record

/-!
# Loading field by field

A query loads its columns first and its joins after them, and puts the slots in their places in the
end. The same instance comes out of one walk through the fields of the root, in which a field that
is not read stays unset.
-/

namespace RecordQuery.Query

/-- The slot that a query gives to a field of its root. -/
def loadField (q : Query) (record : Payload.Entries) (f : Field) :
    Except Error (Slot Instance) :=
  if f ∈ q.selected then do return (← loadColumn q.root record f).2
  else
    match q.joinFor? f.name with
    | some j => do return (← loadJoin q.root record j).2
    | none => .ok .unset

variable {q : Query} {record : Payload.Entries} {p : Payload} {x : Instance} {f : Field}
  {j : Join Query} {s : Slot Instance} {scalars related : List (String × Slot Instance)}

/-! ### The walk through columns and joins -/

theorem joinFor?_eq_some {field : String} (h : q.joinFor? field = some j) :
    j ∈ q.joins ∧ j.field = field :=
  ⟨List.mem_of_find?_eq_some h, by simpa using List.find?_some h⟩

theorem Consistent.joinFor?_field (here : q.Consistent) (mem : j ∈ q.joins) :
    q.joinFor? j.field = some j := by
  cases found : q.joinFor? j.field with
  | none =>
    have absent := List.find?_eq_none.mp found j mem
    simp at absent
  | some k =>
    obtain ⟨other, same⟩ := joinFor?_eq_some found
    rw [List.inj_on_of_nodup_map here.joins_distinct other mem same]

/-- A join is no column: one is a relationship and the other a scalar field. -/
theorem Consistent.join_unselected (here : q.Consistent) (mem : j ∈ q.joins) :
    j.toField ∉ q.selected := by
  intro selected
  have scalar := (here.selected_scalar selected).2
  have relation : j.toField.attr.isRelation = true := (here.joins_fit j mem).relation
  rw [relation] at scalar
  cases scalar

theorem loadField_selected (mem : f ∈ q.selected) :
    q.loadField record f = .ok s ↔ loadColumn q.root record f = .ok (f.name, s) := by
  rw [loadField, if_pos mem, Outcome.bind_eq_ok]
  constructor
  · intro h
    obtain ⟨⟨name, t⟩, loaded, same⟩ := h
    obtain rfl := Outcome.pure_eq_ok.mp same
    exact loadColumn_name loaded ▸ loaded
  · exact fun loaded => ⟨_, loaded, rfl⟩

theorem Consistent.loadField_join (here : q.Consistent) (mem : j ∈ q.joins) :
    q.loadField record j.toField = .ok s ↔ loadJoin q.root record j = .ok (j.field, s) := by
  have found : q.joinFor? j.toField.name = some j := here.joinFor?_field mem
  rw [loadField, if_neg (here.join_unselected mem), found, Outcome.bind_eq_ok]
  constructor
  · intro h
    obtain ⟨⟨name, t⟩, loaded, same⟩ := h
    obtain rfl := Outcome.pure_eq_ok.mp same
    exact loadJoin_name loaded ▸ loaded
  · exact fun loaded => ⟨_, loaded, rfl⟩

theorem Consistent.loadField_unread (here : q.Consistent) (mem : f ∈ q.root.schema.fields)
    (unread : f ∉ q.reads) : q.loadField record f = .ok .unset := by
  rw [reads, List.mem_append, not_or] at unread
  rw [loadField, if_neg unread.1]
  cases found : q.joinFor? f.name with
  | none => rfl
  | some j =>
    obtain ⟨joined, same⟩ := joinFor?_eq_some found
    have names := here.built.valid _ q.root.mem
    obtain rfl := names.eq_of_name (here.join_field joined) mem same
    exact absurd (List.mem_map_of_mem joined) unread.2

/-! ### The walk through fields -/

/-- What the columns and joins have given to a field is its slot. -/
theorem Consistent.loadField_loaded (here : q.Consistent)
    (columns : q.selected.mapM (loadColumn q.root record) = .ok scalars)
    (joins : q.joins.mapM (loadJoin q.root record) = .ok related)
    (mem : f ∈ q.root.schema.fields) (entry : (f.name, s) ∈ scalars ++ related) :
    q.loadField record f = .ok s := by
  have names := here.built.valid _ q.root.mem
  rcases List.mem_append.mp entry with entry | entry
  · obtain ⟨g, selected, step⟩ := Outcome.mem_of_mapM columns entry
    obtain rfl := names.eq_of_name mem (here.selected_scalar selected).1 (loadColumn_name step)
    exact (loadField_selected selected).mpr step
  · obtain ⟨j, joined, step⟩ := Outcome.mem_of_mapM joins entry
    obtain rfl := names.eq_of_name mem (here.join_field joined) (loadJoin_name step)
    exact (here.loadField_join joined).mpr step

theorem Consistent.mapM_loadField (here : q.Consistent)
    (columns : q.selected.mapM (loadColumn q.root record) = .ok scalars)
    (joins : q.joins.mapM (loadJoin q.root record) = .ok related) :
    q.root.schema.fields.mapM (q.loadField record) =
      .ok (Instance.ofSlots q.root (scalars ++ related)).slots := by
  apply Outcome.mapM_ok
  intro f mem
  cases found : (scalars ++ related).lookup f.name with
  | some s =>
    obtain ⟨before, after, split, _⟩ := List.lookup_eq_some_iff.mp found
    apply here.loadField_loaded columns joins mem
    exact split ▸ List.mem_append_right _ List.mem_cons_self
  | none =>
    refine here.loadField_unread mem fun read => ?_
    obtain ⟨s, entry⟩ := exists_loaded columns joins read
    simpa using List.lookup_eq_none_iff.mp found _ entry

theorem Consistent.loadRecord_eq_ok (here : q.Consistent) : q.loadRecord p = .ok x ↔
    ∃ record slots, p = .mapping record ∧
      q.root.schema.fields.mapM (q.loadField record) = .ok slots ∧
      x = ⟨q.root, slots, q.root.schema.fields.map fun _ => false⟩ := by
  constructor
  · intro run
    obtain ⟨record, scalars, related, read, columns, joins, rfl⟩ := Query.loadRecord_eq_ok.mp run
    exact ⟨record, _, Payload.record_eq_ok.mp read, here.mapM_loadField columns joins, rfl⟩
  · intro h
    obtain ⟨record, slots, rfl, walked, rfl⟩ := h
    have slot f (mem : f ∈ q.root.schema.fields) : ∃ s, q.loadField record f = .ok s := by
      obtain ⟨s, _, step⟩ := Outcome.exists_of_mapM walked mem
      exact ⟨s, step⟩
    have : Nonempty (Slot Instance) := ⟨.unset⟩
    choose! slot loaded using slot
    have columns : q.selected.mapM (loadColumn q.root record) =
        .ok (q.selected.map fun f => (f.name, slot f)) := by
      apply Outcome.mapM_ok
      intro f selected
      exact (loadField_selected selected).mp (loaded f (here.selected_scalar selected).1)
    have joins : q.joins.mapM (loadJoin q.root record) =
        .ok (q.joins.map fun j => (j.field, slot j.toField)) := by
      apply Outcome.mapM_ok
      intro j joined
      exact (here.loadField_join joined).mp (loaded _ (here.join_field joined))
    -- Both walks through the fields are the same one, so they end with the same slots.
    have same := walked.symm.trans (here.mapM_loadField columns joins)
    refine Query.loadRecord_eq_ok.mpr ⟨record, _, _, rfl, columns, joins, ?_⟩
    rw [Except.ok.inj same]
    rfl

end RecordQuery.Query
