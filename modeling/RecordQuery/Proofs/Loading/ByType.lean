import RecordQuery.Loading.Typed
import RecordQuery.Proofs.Instance.Formed

/-!
# Loading one record by type

Loading by type walks through the fields of a schema and looks up the entry of each. Here the walks
through entries and records are lookups and maps, and what is loaded is described field by field.
-/

namespace RecordQuery

namespace Payload

variable {p q : Payload}

theorem sizeOf_entry {entries : Entries} {key : String} (found : entries.lookup key = some p) :
    sizeOf p < sizeOf (mapping entries) := by
  obtain ⟨before, after, rfl, _⟩ := List.lookup_eq_some_iff.mp found
  have entry : sizeOf (key, p) < sizeOf (before ++ (key, p) :: after) :=
    List.sizeOf_lt_of_mem (List.mem_append_right _ List.mem_cons_self)
  simp only [Prod.mk.sizeOf_spec, mapping.sizeOf_spec] at entry ⊢
  omega

theorem sizeOf_records {schema field : String} {items : List Payload}
    (read : p.records schema field = .ok items) (mem : q ∈ items) : sizeOf q < sizeOf p := by
  have inside : sizeOf q < sizeOf (list items) := by
    have item := List.sizeOf_lt_of_mem mem
    rw [list.sizeOf_spec]
    omega
  unfold records at read
  split at read
  · cases read
    cases mem
  · cases read
    exact inside
  · split at read
    · next found =>
      cases read
      exact Nat.lt_trans inside (sizeOf_entry found)
    · cases read
  · cases read

end Payload

namespace Registry

/-- A related record by the type that it names, or else by the given one. -/
def loadRelated (r : Registry) (target : Model) (p : Payload) : Except Error Instance := do
  r.loadAs p (← r.modelOf target p)

/-- The slot of a field from the entry with its external name. -/
def loadEntry (r : Registry) (m : Model) (f : Field) (p : Payload) :
    Except Error (Slot Instance) :=
  if !f.attr.isRelation then return .value (← f.attr.coercePayload m.name f.name p)
  else do
    let target ← m.related f.name
    if f.attr.isMany then
      return .many (← (← p.records m.name f.name).mapM (r.loadRelated target))
    else
      match p with
      | .null => if f.attr.nullable then return .one none else throw (.notNullable m.name f.name)
      | other => return .one (some (← r.loadRelated target other))

variable {r : Registry} {m target : Model} {f : Field} {p : Payload} {x : Instance}
  {s : Slot Instance}

/-! ### Walks -/

theorem loadAll_eq (items : List Payload) :
    loadAll r items target = items.mapM (r.loadRelated target) := by
  induction items with
  | nil => rfl
  | cons p rest ih => rw [loadAll, List.mapM_cons, ih, loadRelated, bind_assoc]

/-- An envelope has its records in the first entry of that name, as every mapping has. -/
theorem loadEnvelope_eq (entries : Payload.Entries) : loadEnvelope r entries target m f =
    (Payload.mapping entries).records m.name f.name >>= fun items => loadAll r items target := by
  rw [Payload.records]
  induction entries with
  | nil => rfl
  | cons entry rest ih =>
    obtain ⟨key, p⟩ := entry
    unfold loadEnvelope
    rw [Payload.Entries.lookup_cons]
    by_cases same : key = Payload.recordsKey
    · rw [if_neg (not_not_intro same), if_pos same.symm]
      cases p <;> rfl
    · rw [if_pos same, if_neg (Ne.symm same), ih]
      rfl

theorem loadMany_eq (p : Payload) : loadMany r p target m f =
    p.records m.name f.name >>= fun items => items.mapM (r.loadRelated target) := by
  simp only [← loadAll_eq]
  cases p with
  | mapping entries => rw [loadMany, loadEnvelope_eq]
  | _ => rfl

/-- A field is read from the first entry with its external name. Without one, a relationship stays
unset and a scalar field is missed. -/
theorem loadSlot_eq (entries : Payload.Entries) : loadSlot r entries m f =
    match entries.lookup f.attr.externalName with
    | some p => r.loadEntry m f p
    | none =>
      if f.attr.isRelation then .ok .unset
      else .error (.payloadMismatch m.name f.name .missingFromRecord) := by
  induction entries with
  | nil => rfl
  | cons entry rest ih =>
    obtain ⟨key, p⟩ := entry
    rw [loadSlot, Payload.Entries.lookup_cons]
    by_cases same : key = f.attr.externalName
    · rw [if_neg (not_not_intro same), if_pos same.symm]
      change _ = r.loadEntry m f p
      unfold loadEntry loadRelated
      simp only [loadMany_eq, bind_assoc]
      rfl
    · rw [if_pos same, if_neg (Ne.symm same), ih]

theorem loadAs_eq_ok : r.loadAs p m = .ok x ↔
    ∃ entries slots, p = .mapping entries ∧
      m.schema.fields.mapM (loadSlot r entries m) = .ok slots ∧
      x = ⟨m, slots, m.schema.fields.map fun _ => false⟩ := by
  cases p with
  | mapping entries =>
    rw [loadAs]
    simp only [Outcome.bind_eq_ok, Outcome.pure_eq_ok, Payload.mapping.injEq]
    constructor
    · intro h
      obtain ⟨slots, walked, rfl⟩ := h
      exact ⟨entries, slots, rfl, walked, rfl⟩
    · intro h
      obtain ⟨_, slots, rfl, walked, rfl⟩ := h
      exact ⟨slots, walked, rfl⟩
  | _ => simp [loadAs]

/-! ### What an entry gives -/

theorem loadEntry_scalar (scalar : f.attr.isRelation = false) : r.loadEntry m f p = .ok s ↔
    ∃ v, f.attr.coercePayload m.name f.name p = .ok v ∧ s = .value v := by
  unfold loadEntry
  simp only [scalar, Bool.not_false, if_true, Outcome.bind_eq_ok, Outcome.pure_eq_ok,
    eq_comm (a := s)]

theorem loadEntry_many (relation : f.attr.isRelation = true) (many : f.attr.isMany = true)
    (leads : m.related f.name = .ok target) : r.loadEntry m f p = .ok s ↔
      ∃ items xs, p.records m.name f.name = .ok items ∧
        items.mapM (r.loadRelated target) = .ok xs ∧ s = .many xs := by
  unfold loadEntry
  simp only [relation, many, leads, Bool.not_true, Bool.false_eq_true, if_false, if_true,
    Outcome.ok_bind, Outcome.bind_eq_ok, Outcome.pure_eq_ok]
  constructor
  · intro h
    obtain ⟨items, read, xs, loaded, rfl⟩ := h
    exact ⟨items, xs, read, loaded, rfl⟩
  · intro h
    obtain ⟨items, xs, read, loaded, rfl⟩ := h
    exact ⟨items, read, xs, loaded, rfl⟩

theorem loadEntry_null (relation : f.attr.isRelation = true) (single : f.attr.isMany = false)
    (leads : m.related f.name = .ok target) :
    r.loadEntry m f .null = .ok s ↔ f.attr.nullable = true ∧ s = .one none := by
  unfold loadEntry
  simp only [relation, single, leads, Bool.not_true, Bool.false_eq_true, if_false,
    Outcome.ok_bind]
  cases f.attr.nullable with
  | true =>
    rw [if_pos rfl, Outcome.pure_eq_ok, eq_comm, and_iff_right rfl]
  | false => simp

theorem loadEntry_one (relation : f.attr.isRelation = true) (single : f.attr.isMany = false)
    (leads : m.related f.name = .ok target) (present : p ≠ .null) :
    r.loadEntry m f p = .ok s ↔ ∃ x, r.loadRelated target p = .ok x ∧ s = .one (some x) := by
  have opened : r.loadEntry m f p =
      r.loadRelated target p >>= fun x => pure (.one (some x)) := by
    unfold loadEntry
    simp only [relation, single, leads, Bool.not_true, Bool.false_eq_true, if_false,
      Outcome.ok_bind]
  simp only [opened, Outcome.bind_eq_ok, Outcome.pure_eq_ok, eq_comm (a := s)]

/-! ### Formed results -/

theorem modelOf_registry (own : target.registry = r) (h : r.modelOf target p = .ok m) :
    m.registry = r := by
  unfold modelOf at h
  split at h
  · exact registry_of_byObjectName h
  · cases h
    exact own

/-- What is loaded from a smaller payload is formed. -/
def FormsBelow (r : Registry) (size : Nat) : Prop :=
  ∀ q m y, sizeOf q < size → m.registry = r → r.loadAs q m = .ok y →
    y.Formed ∧ y.model.registry = r

theorem loadRelated_formed {size : Nat} (inner : FormsBelow r size) (own : target.registry = r)
    (smaller : sizeOf p < size) (run : r.loadRelated target p = .ok x) :
    x.Formed ∧ x.model.registry = r := by
  obtain ⟨m, chosen, loaded⟩ := Outcome.bind_eq_ok.mp run
  exact inner p m x smaller (modelOf_registry own chosen) loaded

theorem loadEntry_formed {size : Nat} (inner : FormsBelow r size) (own : m.registry = r)
    (smaller : sizeOf p < size) (run : r.loadEntry m f p = .ok s) :
    s.Suits f.attr ∧ ∀ y ∈ s.related, y.Formed ∧ y.model.registry = r := by
  cases relation : f.attr.isRelation with
  | false =>
    obtain ⟨v, coerced, rfl⟩ := (loadEntry_scalar relation).mp run
    exact ⟨⟨relation, Attribute.holds_of_coercePayload coerced⟩, fun _ hy => nomatch hy⟩
  | true =>
    cases leads : m.related f.name with
    | error e => simp [loadEntry, relation, leads, Outcome.bind_eq_ok] at run
    | ok target =>
      have kept : target.registry = r := by
        obtain ⟨_, _, _, same⟩ := Model.related_eq_ok leads
        exact same.trans own
      cases arity : f.attr.isMany with
      | true =>
        obtain ⟨items, xs, read, loaded, rfl⟩ := (loadEntry_many relation arity leads).mp run
        refine ⟨⟨relation, arity⟩, fun y hy => ?_⟩
        obtain ⟨q, hq, step⟩ := Outcome.mem_of_mapM loaded hy
        have below := Nat.lt_trans (Payload.sizeOf_records read hq) smaller
        exact loadRelated_formed inner kept below step
      | false =>
        by_cases null : p = .null
        · subst null
          obtain ⟨nullable, rfl⟩ := (loadEntry_null relation arity leads).mp run
          exact ⟨⟨relation, arity, nullable⟩, fun _ hy => nomatch hy⟩
        · obtain ⟨x, loaded, rfl⟩ := (loadEntry_one relation arity leads null).mp run
          refine ⟨⟨relation, arity⟩, fun y hy => ?_⟩
          obtain rfl := List.mem_singleton.mp hy
          exact loadRelated_formed inner kept smaller loaded

theorem loadSlot_formed {entries : Payload.Entries}
    (inner : FormsBelow r (sizeOf (Payload.mapping entries))) (own : m.registry = r)
    (run : loadSlot r entries m f = .ok s) :
    s.Suits f.attr ∧ ∀ y ∈ s.related, y.Formed ∧ y.model.registry = r := by
  rw [loadSlot_eq] at run
  split at run
  · next found => exact loadEntry_formed inner own (Payload.sizeOf_entry found) run
  · split at run
    · cases run
      exact ⟨trivial, fun _ hy => nomatch hy⟩
    · cases run

/-- Whatever is loaded by the type of a built registry is formed. -/
theorem loadAs_formed (built : r.Built) (own : m.registry = r) (run : r.loadAs p m = .ok x) :
    x.Formed ∧ x.model = m := by
  -- A related record may be of any type, so nothing but the payload gets smaller on the way in.
  induction size : sizeOf p using Nat.strongRecOn generalizing p m x with
  | _ n ih =>
    have inner : FormsBelow r (sizeOf p) := by
      intro q m y smaller own loaded
      obtain ⟨formed, model⟩ := ih (sizeOf q) (size ▸ smaller) own loaded rfl
      exact ⟨formed, model ▸ own⟩
    obtain ⟨entries, slots, rfl, walked, rfl⟩ := loadAs_eq_ok.mp run
    have steps := Outcome.mapM_eq_ok.mp walked
    have width : slots.length = m.schema.fields.length := steps.length_eq.symm
    have cell f s (mem : (f, s) ∈ m.schema.fields.zip slots) :
        s.Suits f.attr ∧ ∀ y ∈ s.related, y.Formed ∧ y.model.registry = r := by
      exact loadSlot_formed inner own (List.forall₂_iff_zip.mp steps |>.2 mem)
    refine ⟨.intro ⟨own ▸ built, width, List.length_map _, ?_, ?_⟩ ?_, rfl⟩
    · exact fun f s mem => (cell f s mem).1
    · exact fun f s mem y hy => ((cell f s mem).2 y hy).2.trans own.symm
    · exact fun f s mem y hy => ((cell f s mem).2 y hy).1

/-! ### Records that name their type -/

theorem loadRecord_eq_ok : r.loadRecord p = .ok x ↔
    ∃ name m, p.recordType? = some name ∧ r.byObjectName name = .ok m ∧ r.loadAs p m = .ok x := by
  rw [loadRecord]
  cases p.recordType? with
  | none => simp
  | some name => simp [Outcome.bind_eq_ok]

theorem loadRecord_formed (built : r.Built) (run : r.loadRecord p = .ok x) : x.Formed := by
  obtain ⟨name, m, _, found, loaded⟩ := loadRecord_eq_ok.mp run
  exact (loadAs_formed built (registry_of_byObjectName found) loaded).1

theorem loadRecords_eq_ok {xs : List Instance} : r.loadRecords p = .ok xs ↔
    ∃ records, p.records "" Payload.recordsKey = .ok records ∧
      records.mapM r.loadRecord = .ok xs := by
  rw [loadRecords, Outcome.bind_eq_ok]

end Registry

end RecordQuery
