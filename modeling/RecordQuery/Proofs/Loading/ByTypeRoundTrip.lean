import RecordQuery.Proofs.Instance.Rewritten
import RecordQuery.Proofs.Instance.Entries
import RecordQuery.Proofs.Instance.Obtained

/-!
# Records are loaded back by type

The record of an instance names its own type, and so does the record of every instance inside it.
Loading by type follows these names back to the models and finds every slot as it was, if all scalar
fields are set, external names tell apart what is in one record, and the instants are legible.
-/

namespace RecordQuery

/-- The keys of a record are told apart: no two fields have one external name, and none has that of
the type entry. -/
structure Schema.NamesApart (s : Schema) : Prop where
  distinct : (s.fields.map fun f => f.attr.externalName).Nodup
  foreign : ∀ f ∈ s.fields, f.attr.externalName ≠ Instance.metadataKey

namespace Instance

/-- Every scalar field is set. -/
def Complete (x : Instance) : Prop :=
  ∀ f s, (f, s) ∈ x.cells → f.attr.isRelation = false → s.isSet = true

variable {x y : Instance} {r : Registry} {m target : Model} {f : Field} {s : Slot Instance}

/-! ### Entries -/

theorem recordType?_toRecord (named : x.model.schema.NamesApart) :
    x.toRecord.recordType? = some x.model.objectName := by
  have found : x.recordEntries.lookup metadataKey = some (metadata x.model) :=
    lookup_recordEntries_metadata fun g t cell _ => named.foreign g (mem_fields_of_mem_cells cell)
  rw [Payload.recordType?, toRecord_eq, Payload.get?, found]
  rfl

/-- Under the external name of a field stands what its slot goes out as. -/
theorem lookup_cell (once : (x.cells.map Prod.fst).Nodup) (named : x.model.schema.NamesApart)
    (cell : (f, s) ∈ x.cells) : x.recordEntries.lookup f.attr.externalName = s.payload? := by
  have mem := mem_fields_of_mem_cells cell
  have alone g t (other : (g, t) ∈ x.cells)
      (same : g.attr.externalName = f.attr.externalName) : g = f :=
    List.inj_on_of_nodup_map named.distinct (mem_fields_of_mem_cells other) mem same
  cases written : s.payload? with
  | some p => exact lookup_recordEntries once cell (fun g t other _ => alone g t other) written
  | none =>
    refine lookup_recordEntries_unset (named.foreign f mem) fun g t other set same => ?_
    obtain rfl := alone g t other same
    obtain rfl := (slotFor_eq once other).symm.trans (slotFor_eq once cell)
    rw [← t.isSome_payload?, written] at set
    cases set

/-! ### Slots -/

/-- The record of a related instance is loaded by its own type, wherever the relationship leads. -/
theorem loadRelated_toRecord (built : y.model.registry.Built)
    (named : y.model.schema.NamesApart)
    (loaded : y.model.registry.loadAs y.toRecord y.model = .ok y.reloaded) :
    y.model.registry.loadRelated target y.toRecord = .ok y.reloaded := by
  have own : y.model.registry.modelOf target y.toRecord = .ok y.model := by
    rw [Registry.modelOf, recordType?_toRecord named]
    exact built.byObjectName_objectName
  rw [Registry.loadRelated, own]
  exact loaded

theorem loadSlot_cell (here : x.Regular) (named : x.model.schema.NamesApart) (complete : x.Complete)
    (cell : (f, s) ∈ x.cells)
    (below : ∀ target, ∀ y ∈ s.related,
      x.model.registry.loadRelated target y.toRecord = .ok y.reloaded) :
    x.model.registry.loadSlot x.recordEntries x.model f = .ok s.reloaded := by
  have suits := here.suits f s cell
  have leads (relation : f.attr.isRelation = true) :
      ∃ target, x.model.related f.name = .ok target :=
    Model.related_ok here.built (mem_fields_of_mem_cells cell) relation
  rw [Registry.loadSlot_eq, lookup_cell here.cells_once named cell]
  rcases s with _ | v | (_ | y) | ys
  · have relation : f.attr.isRelation = true := by
      by_contra scalar
      cases complete f _ cell (by simpa using scalar)
    rw [Slot.payload?, relation]
    rfl
  · exact (Registry.loadEntry_scalar suits.1).mpr ⟨v.shown, suits.2.coercePayload _ _, rfl⟩
  · obtain ⟨target, leads⟩ := leads suits.1
    exact (Registry.loadEntry_null suits.1 suits.2.1 leads).mpr ⟨suits.2.2, rfl⟩
  · obtain ⟨target, leads⟩ := leads suits.1
    have present : y.toRecord ≠ .null := by
      rw [toRecord_eq]
      exact nofun
    refine (Registry.loadEntry_one suits.1 suits.2 leads present).mpr ⟨y.reloaded, ?_, rfl⟩
    exact below target y (List.mem_singleton.mpr rfl)
  · obtain ⟨target, leads⟩ := leads suits.1
    refine (Registry.loadEntry_many suits.1 suits.2 leads).mpr ⟨_, _, rfl, ?_, rfl⟩
    rw [List.mapM_map]
    exact Outcome.mapM_ok (below target)

/-! ### Records -/

theorem loadAs_toRecord (formed : x.Formed) : (∀ y : Instance, y.Within x → y.Complete) →
    (∀ y : Instance, y.Within x → y.model.schema.NamesApart) →
    x.model.registry.loadAs x.toRecord x.model = .ok x.reloaded := by
  induction formed with
  | @intro x here inside ih =>
    intro complete named
    have slots : x.model.schema.fields.mapM
        (x.model.registry.loadSlot x.recordEntries x.model) =
          .ok (x.slots.map Slot.reloaded) := by
      rw [← map_fst_cells here.width, ← map_snd_cells here.width, List.mapM_map, List.map_map]
      apply Outcome.mapM_ok
      rintro ⟨f, s⟩ cell
      refine loadSlot_cell here (named x .refl) (complete x .refl) cell fun target y mem => ?_
      have within {z : Instance} (inner : z.Within y) : z.Within x := .related cell mem inner
      have loaded := ih f s cell y mem (fun z inner => complete z (within inner))
        fun z inner => named z (within inner)
      -- The related instance may be of another model, but it is of the same registry.
      have same := here.registry f s cell y mem
      rw [← same]
      exact loadRelated_toRecord (inside f s cell y mem).here.built (named y (within .refl)) loaded
    refine Registry.loadAs_eq_ok.mpr ⟨_, _, x.toRecord_eq, slots, ?_⟩
    rw [reloaded_eq, List.map_const', List.map_const', here.flags]

theorem loadRecord_toRecord (formed : x.Formed)
    (complete : ∀ y : Instance, y.Within x → y.Complete)
    (named : ∀ y : Instance, y.Within x → y.model.schema.NamesApart) :
    x.model.registry.loadRecord x.toRecord = .ok x.reloaded :=
  Registry.loadRecord_eq_ok.mpr ⟨_, x.model, recordType?_toRecord (named x .refl),
    formed.here.built.byObjectName_objectName, loadAs_toRecord formed complete named⟩

end Instance

namespace Sample

theorem account_namesApart : account.schema.NamesApart := ⟨by decide, by decide⟩

theorem user_namesApart : user.schema.NamesApart := ⟨by decide, by decide⟩

theorem within_firstAccount_recordable {y : Instance} (inside : y.Within firstAccount) :
    y.Complete ∧ y.model.schema.NamesApart := by
  have account : ∀ c ∈ firstAccount.cells, c.1.attr.isRelation = false → c.2.isSet = true := by
    decide
  have user : ∀ c ∈ firstUser.cells, c.1.attr.isRelation = false → c.2.isSet = true := by decide
  rcases within_firstAccount inside with rfl | rfl
  · exact ⟨fun f s cell => account (f, s) cell, account_namesApart⟩
  · exact ⟨fun f s cell => user (f, s) cell, user_namesApart⟩

end Sample

end RecordQuery
