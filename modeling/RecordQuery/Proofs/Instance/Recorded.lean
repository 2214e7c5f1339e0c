import RecordQuery.Proofs.Instance.Entries
import RecordQuery.Proofs.Instance.Obtained
import RecordQuery.Proofs.Instance.Sample
import RecordQuery.Proofs.Payload.Ascending

/-!
# What records keep

The record of an instance has an entry about the record itself and one for each set field.
Registration keeps the external names of scalar fields apart, but neither those of relationships nor
the name of the entry about the record. Where a name is shared, the field that is declared last has
the entry.
-/

namespace RecordQuery

/-- One external name for two fields, which registration allows for relationships only. -/
structure Field.Shares (f g : Field) : Prop where
  relation : f.attr.isRelation = true ∨ g.attr.isRelation = true
  name : f.attr.externalName = g.attr.externalName

namespace Instance

/-- No set field shares its external name with another one or with the entry about the record. -/
structure Separate (x : Instance) : Prop where
  fields : ∀ f s g t, (f, s) ∈ x.cells → (g, t) ∈ x.cells → s.isSet = true → t.isSet = true →
    f.Shares g → f = g
  metadata : ∀ f s, (f, s) ∈ x.cells → s.isSet = true → f.attr.externalName ≠ metadataKey

/-- The entries are what the record of the instance has to have. -/
structure Recorded (x : Instance) (entries : Payload.Entries) : Prop where
  once : (entries.map Prod.fst).Nodup
  keys : ∀ key, key ∈ entries.map Prod.fst ↔ key = metadataKey ∨
    ∃ f s, (f, s) ∈ x.cells ∧ s.isSet = true ∧ f.attr.externalName = key
  field : ∀ before f s after, x.cells = before ++ (f, s) :: after → s.isSet = true →
    (∀ g t, (g, t) ∈ after → t.isSet = true → ¬ f.Shares g) →
      entries.lookup f.attr.externalName = s.payload?
  metadata : (∀ f s, (f, s) ∈ x.cells → s.isSet = true → f.attr.externalName ≠ metadataKey) →
    entries.lookup metadataKey = some (Instance.metadata x.model)
  length : entries.length = 1 + (x.cells.filter (·.2.isSet)).length ↔ x.Separate

variable {x y : Instance} {f g : Field} {s : Slot Instance} {cells : List (Field × Slot Instance)}

theorem keys_written : (cells.filterMap written?).map Prod.fst =
    (cells.filter (·.2.isSet)).map (·.1.attr.externalName) := by
  induction cells with
  | nil => rfl
  | cons cell rest ih =>
    obtain ⟨f, s⟩ := cell
    rcases s with _ | v | (_ | x) | xs <;>
      simp [written?, Slot.payload?, Slot.isSet, List.filterMap_cons, ih]

/-- Two scalar fields never have one external name. -/
theorem Regular.shares (h : x.Regular) (hf : f ∈ x.model.schema.fields)
    (hg : g ∈ x.model.schema.fields) (name : f.attr.externalName = g.attr.externalName) :
    f = g ∨ f.Shares g := by
  cases left : f.attr.isRelation with
  | true => exact .inr ⟨.inl left, name⟩
  | false =>
    cases right : g.attr.isRelation with
    | true => exact .inr ⟨.inr right, name⟩
    | false =>
      have columns := Schema.mem_columns.mpr ⟨hf, left⟩
      exact .inl (h.valid.eq_of_externalName columns (Schema.mem_columns.mpr ⟨hg, right⟩) name)

theorem mem_written_keys {key : String} : key ∈ (cells.filterMap written?).map Prod.fst ↔
    ∃ f s, (f, s) ∈ cells ∧ s.isSet = true ∧ f.attr.externalName = key := by
  simp [keys_written, and_assoc]

/-- Nothing is shared exactly when all keys that are written are different. -/
theorem Regular.separate_iff (h : x.Regular) : x.Separate ↔
    metadataKey ∉ (x.cells.filterMap written?).map Prod.fst ∧
      ((x.cells.filterMap written?).map Prod.fst).Nodup := by
  have cells : (x.cells.filter (·.2.isSet)).Nodup := (List.Nodup.of_map _ h.cells_once).filter _
  rw [mem_written_keys, keys_written, List.nodup_map_iff_inj_on cells]
  simp only [List.mem_filter]
  constructor
  · intro separate
    refine ⟨fun ⟨f, s, cell, set, name⟩ => separate.metadata f s cell set name, ?_⟩
    rintro ⟨f, s⟩ ⟨left, set⟩ ⟨g, t⟩ ⟨right, set'⟩ name
    have same : f = g := by
      rcases h.shares (mem_fields_of_mem_cells left) (mem_fields_of_mem_cells right) name with
        same | shares
      · exact same
      · exact separate.fields f s g t left right set set' shares
    exact List.inj_on_of_nodup_map h.cells_once left right same
  · rintro ⟨reserved, distinct⟩
    refine ⟨fun f s g t left right set set' shares => ?_, fun f s cell set name => ?_⟩
    · exact congrArg Prod.fst (distinct (f, s) ⟨left, set⟩ (g, t) ⟨right, set'⟩ shares.name)
    · exact reserved ⟨f, s, cell, set, name⟩

theorem length_written : (cells.filterMap written?).length = (cells.filter (·.2.isSet)).length := by
  rw [← List.length_map (f := Prod.fst), keys_written, List.length_map]

theorem Regular.recorded (h : x.Regular) : x.Recorded x.recordEntries where
  once := (Payload.Entries.ascending_ofList _).keys_nodup
  keys := fun key => by
    rw [recordEntries, Payload.Entries.mem_keys_ofList, List.map_cons, List.mem_cons,
      mem_written_keys]
  field := by
    intro before f s after split set apart
    obtain ⟨p, written⟩ := Option.isSome_iff_exists.mp (s.isSome_payload?.trans set)
    have cell : (f, s) ∈ x.cells := split ▸ List.mem_append_right _ List.mem_cons_self
    rw [written]
    refine lookup_recordEntries_last split (fun g t inside set' name => ?_) written
    have other : (g, t) ∈ x.cells :=
      split ▸ List.mem_append_right _ (List.mem_cons_of_mem _ inside)
    rcases h.shares (mem_fields_of_mem_cells cell) (mem_fields_of_mem_cells other) name.symm with
      rfl | shares
    · -- The field itself cannot come once more.
      have once := h.cells_once
      rw [split, List.map_append, List.map_cons] at once
      have fresh := (List.nodup_cons.mp (List.nodup_append.mp once).2.1).1
      exact fresh (List.mem_map.mpr ⟨_, inside, rfl⟩)
    · exact apart g t inside set' shares
  metadata := lookup_recordEntries_metadata
  length := by
    rw [h.separate_iff, ← length_written, Nat.add_comm, ← List.length_cons, recordEntries,
      Payload.Entries.length_ofList_eq_iff, List.map_cons, List.nodup_cons]

/-- The record of an instance, at any depth, has an entry for each set field. It is the payload of
the slot unless a set field that is declared later has the external name too, one of the two being a
relationship. There are as many entries as set slots and one more exactly when no name is shared. -/
theorem recorded_within (obtained : x.Obtained) (inside : y.Within x) :
    ∃ entries, y.toRecord = .mapping entries ∧ y.Recorded entries :=
  ⟨y.recordEntries, y.toRecord_eq, (obtained.formed.within inside).here.recorded⟩

end Instance

namespace Sample

theorem firstUser_recorded : firstAccount.Obtained ∧ firstUser.Within firstAccount ∧
    ∃ entries, firstUser.toRecord = .mapping entries ∧ firstUser.Recorded entries := by
  have obtained := firstAccount_reachable.obtained
  have cell : (⟨"users", ⟨"Users", false, .relation "User" true⟩⟩, .many [firstUser]) ∈
      firstAccount.cells := List.mem_of_getElem? (i := 3) rfl
  have inside : firstUser.Within firstAccount := .related cell (List.mem_singleton.mpr rfl) .refl
  exact ⟨obtained, inside, Instance.recorded_within obtained inside⟩

/-! ### Shared names -/

/-- A label with the external name of the relationship after it. -/
def labelledFields : List Field :=
  [⟨"label", ⟨"Owner", false, .scalar .string⟩⟩, ⟨"owner", ⟨"Owner", true, .relation "Tag" false⟩⟩]

/-- A label with the name of the entry about the record. -/
def tagFields : List Field := [⟨"label", ⟨"attributes", false, .scalar .string⟩⟩]

def sharingRegistry : Registry :=
  ⟨0, [⟨"Account", "Account", labelledFields⟩, ⟨"Tag", "Tag", tagFields⟩]⟩

theorem sharingRegistry_built : sharingRegistry.Built :=
  ⟨0, [⟨"Account", none, [], labelledFields⟩, ⟨"Tag", none, [], tagFields⟩], rfl⟩

def labelled : Instance :=
  ⟨⟨sharingRegistry, ⟨"Account", "Account", labelledFields⟩, List.mem_cons_self⟩,
    [.value (.string "first"), .one none], [false, false]⟩

def tag : Instance :=
  ⟨⟨sharingRegistry, ⟨"Tag", "Tag", tagFields⟩, List.mem_cons_of_mem _ List.mem_cons_self⟩,
    [.value (.string "first")], [false]⟩

theorem labelled_obtained : labelled.Obtained := by
  have made : Instance.ofValues labelled.model [("label", .string "first")] =
      .ok { labelled with slots := [.value (.string "first"), .unset] } := rfl
  have step : (Instance.Call.setOne "owner" none).apply
      { labelled with slots := [.value (.string "first"), .unset] } = .ok labelled := rfl
  refine .call (.ofValues sharingRegistry_built made) (fun y handed => ?_) step
  cases handed

theorem tag_obtained : tag.Obtained := by
  have made : Instance.ofValues tag.model [("label", .string "first")] = .ok tag := rfl
  exact .ofValues sharingRegistry_built made

/-- The label of the account is lost to its owner, and the entry about the tag to its label. -/
theorem labels_lost : labelled.Obtained ∧ tag.Obtained ∧
    (labelled.cells.filter (·.2.isSet)).length = 2 ∧
    labelled.toRecord =
      .mapping [("Owner", .null), ("attributes", Instance.metadata labelled.model)] ∧
    tag.toRecord = .mapping [("attributes", .string "first")] :=
  ⟨labelled_obtained, tag_obtained, rfl, rfl, rfl⟩

end Sample

end RecordQuery
