import RecordQuery.Instance.Record
import RecordQuery.Proofs.Instance.Cells

/-!
# Entries of records

The record of an instance has an entry for every slot that is set, under the external name of its
field. It is found there when no other set field has that name.
-/

namespace RecordQuery

namespace Payload.Entries

variable {key : String} {value : Payload} {entries after : List (String × Payload)}

theorem lookup_foldl_insert (acc : Entries) (fresh : key ∉ entries.map Prod.fst) :
    (entries.foldl (fun acc e => insert e.1 e.2 acc) acc).lookup key = acc.lookup key := by
  induction entries generalizing acc with
  | nil => rfl
  | cons entry rest ih =>
    rw [List.map_cons, List.mem_cons, not_or] at fresh
    rw [List.foldl_cons, ih _ fresh.2, lookup_insert, if_neg fresh.1]

theorem lookup_ofList_absent (fresh : key ∉ entries.map Prod.fst) :
    (ofList entries).lookup key = none := by
  rw [ofList, lookup_foldl_insert _ fresh]
  rfl

/-- The last entry of a key is the one that is found. -/
theorem lookup_foldl_last (acc : Entries) (before : List (String × Payload))
    (fresh : key ∉ after.map Prod.fst) :
    ((before ++ (key, value) :: after).foldl (fun acc e => insert e.1 e.2 acc) acc).lookup key =
      some value := by
  rw [List.foldl_append, List.foldl_cons, lookup_foldl_insert _ fresh, lookup_insert, if_pos rfl]

theorem lookup_ofList (before : List (String × Payload)) (fresh : key ∉ after.map Prod.fst) :
    (ofList (before ++ (key, value) :: after)).lookup key = some value :=
  lookup_foldl_last [] before fresh

end Payload.Entries

/-- What a record has for a slot. -/
def Slot.payload? : Slot Instance → Option Payload
  | unset => none
  | value v => some v.toPayload
  | one none => some .null
  | one (some x) => some x.toRecord
  | many xs => some (.list (xs.map Instance.toRecord))

theorem Slot.isSome_payload? (s : Slot Instance) : s.payload?.isSome = s.isSet := by
  rcases s with _ | v | (_ | x) | xs <;> rfl

namespace Instance

/-- The entry of a cell. -/
def written? (cell : Field × Slot Instance) : Option (String × Payload) :=
  cell.2.payload?.map (cell.1.attr.externalName, ·)

/-- The entries of a record. -/
def recordEntries (x : Instance) : Payload.Entries :=
  .ofList ((metadataKey, metadata x.model) :: x.cells.filterMap written?)

theorem toRecords_eq (xs : List Instance) : toRecords xs = xs.map toRecord := by
  induction xs with
  | nil => rfl
  | cons x rest ih => rw [toRecords, ih, List.map_cons]

theorem slotEntries_eq (fields : List Field) (slots : List (Slot Instance)) :
    slotEntries fields slots = (fields.zip slots).filterMap written? := by
  induction fields generalizing slots with
  | nil => simp [slotEntries]
  | cons f fields ih =>
    rcases slots with _ | ⟨_ | v | (_ | x) | xs, slots⟩
    · simp [slotEntries]
    · rw [slotEntries, ih]
      rfl
    · rw [slotEntries, ih]
      rfl
    · rw [slotEntries, ih]
      rfl
    · rw [slotEntries, ih]
      rfl
    · rw [slotEntries, ih, toRecords_eq]
      rfl

theorem toRecord_eq (x : Instance) : x.toRecord = .mapping x.recordEntries := by
  obtain ⟨m, slots, changed⟩ := x
  rw [toRecord, slotEntries_eq]
  rfl

variable {x : Instance} {f : Field} {s : Slot Instance} {p : Payload}

/-- Every entry written is that of a set slot. -/
theorem mem_written {cells : List (Field × Slot Instance)} {key : String}
    (mem : key ∈ (cells.filterMap written?).map Prod.fst) :
    ∃ g t, (g, t) ∈ cells ∧ t.isSet = true ∧ g.attr.externalName = key := by
  obtain ⟨⟨name, payload⟩, entry, rfl⟩ := List.mem_map.mp mem
  obtain ⟨⟨g, t⟩, inside, made⟩ := List.mem_filterMap.mp entry
  obtain ⟨q, shown, same⟩ := Option.map_eq_some_iff.mp made
  refine ⟨g, t, inside, ?_, congrArg Prod.fst same⟩
  rw [← t.isSome_payload?, shown]
  rfl

/-- A set slot is found under its external name, unless a set field after it has the name too. -/
theorem lookup_recordEntries_last {before after : List (Field × Slot Instance)}
    (split : x.cells = before ++ (f, s) :: after)
    (last : ∀ g t, (g, t) ∈ after → t.isSet = true → g.attr.externalName ≠ f.attr.externalName)
    (written : s.payload? = some p) : x.recordEntries.lookup f.attr.externalName = some p := by
  have entry : written? (f, s) = some (f.attr.externalName, p) := by
    simp only [written?, written, Option.map_some]
  rw [recordEntries, split, List.filterMap_append, List.filterMap_cons_some entry,
    ← List.cons_append]
  apply Payload.Entries.lookup_ofList _
  intro later
  obtain ⟨g, t, inside, set, external⟩ := mem_written later
  exact last g t inside set external

theorem lookup_recordEntries (once : (x.cells.map Prod.fst).Nodup) (cell : (f, s) ∈ x.cells)
    (alone : ∀ g t, (g, t) ∈ x.cells → t.isSet = true →
      g.attr.externalName = f.attr.externalName → g = f)
    (written : s.payload? = some p) : x.recordEntries.lookup f.attr.externalName = some p := by
  obtain ⟨before, after, split⟩ := List.append_of_mem cell
  refine lookup_recordEntries_last split (fun g t inside set external => ?_) written
  have cell' : (g, t) ∈ x.cells := by
    rw [split]
    exact List.mem_append_right _ (List.mem_cons_of_mem _ inside)
  obtain rfl := alone g t cell' set external
  rw [split, List.map_append, List.map_cons] at once
  have apart := (List.nodup_cons.mp (List.nodup_append.mp once).2.1).1
  exact apart (List.mem_map.mpr ⟨_, inside, rfl⟩)

theorem lookup_recordEntries_unset (foreign : f.attr.externalName ≠ metadataKey)
    (unset : ∀ g t, (g, t) ∈ x.cells → t.isSet = true →
      g.attr.externalName ≠ f.attr.externalName) :
    x.recordEntries.lookup f.attr.externalName = none := by
  apply Payload.Entries.lookup_ofList_absent
  rw [List.map_cons, List.mem_cons, not_or]
  refine ⟨foreign, fun written => ?_⟩
  obtain ⟨g, t, cell, set, same⟩ := mem_written written
  exact unset g t cell set same

theorem lookup_recordEntries_metadata
    (foreign : ∀ g t, (g, t) ∈ x.cells → t.isSet = true → g.attr.externalName ≠ metadataKey) :
    x.recordEntries.lookup metadataKey = some (metadata x.model) := by
  refine Payload.Entries.lookup_ofList [] fun written => ?_
  obtain ⟨g, t, cell, set, same⟩ := mem_written written
  exact foreign g t cell set same

end Instance

end RecordQuery
