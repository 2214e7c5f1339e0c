import Mathlib.Data.List.Dedup
import RecordQuery.Payload.Basic

/-!
# Ascending keys

A mapping that is made from a list of entries has the keys of the list, in ascending order and each
once. It is as long as the list exactly when no key repeats there.
-/

namespace RecordQuery.Payload.Entries

def Ascending (entries : Entries) : Prop := (entries.map Prod.fst).Pairwise (· < ·)

variable {key other : String} {value : Payload} {entries acc : Entries}

theorem Ascending.keys_nodup (h : Ascending entries) : (entries.map Prod.fst).Nodup := by
  refine List.Pairwise.imp (fun {a b} below => ?_) h
  rintro rfl
  exact String.lt_irrefl a below

theorem mem_keys_insert : other ∈ (insert key value entries).map Prod.fst ↔
    other = key ∨ other ∈ entries.map Prod.fst := by
  induction entries with
  | nil => simp [insert]
  | cons entry rest ih =>
    obtain ⟨k, v⟩ := entry
    rw [insert]
    split
    · simp
    · split
      · next same => simp [same]
      · simp only [List.map_cons, List.mem_cons, ih]
        exact or_left_comm

theorem Ascending.insert (h : Ascending entries) : Ascending (insert key value entries) := by
  induction entries with
  | nil => exact List.pairwise_singleton _ _
  | cons entry rest ih =>
    obtain ⟨k, v⟩ := entry
    obtain ⟨first, tail⟩ := List.pairwise_cons.mp h
    rw [Entries.insert]
    by_cases below : key < k
    · rw [if_pos below]
      refine List.pairwise_cons.mpr ⟨fun other mem => ?_, h⟩
      rcases List.mem_cons.mp mem with rfl | mem
      · exact below
      · exact String.lt_trans below (first other mem)
    · rw [if_neg below]
      by_cases same : key = k
      · rw [if_pos same]
        exact List.pairwise_cons.mpr ⟨fun other mem => same ▸ first other mem, tail⟩
      · rw [if_neg same]
        refine List.pairwise_cons.mpr ⟨fun other mem => ?_, ih tail⟩
        rcases mem_keys_insert.mp mem with rfl | mem
        · exact Std.lt_of_le_of_ne (String.not_lt.mp below) (Ne.symm same)
        · exact first other mem

/-! ### Mappings made from lists -/

theorem mem_keys_foldl (entries : Entries) : ∀ acc : Entries,
    key ∈ (entries.foldl (fun acc e => insert e.1 e.2 acc) acc).map Prod.fst ↔
      key ∈ acc.map Prod.fst ∨ key ∈ entries.map Prod.fst := by
  induction entries with
  | nil => simp
  | cons entry rest ih =>
    intro acc
    rw [List.foldl_cons, ih, mem_keys_insert, List.map_cons, List.mem_cons]
    exact or_assoc.trans or_left_comm

theorem mem_keys_ofList : key ∈ (ofList entries).map Prod.fst ↔ key ∈ entries.map Prod.fst := by
  rw [ofList, mem_keys_foldl]
  exact or_iff_right (List.not_mem_nil)

theorem ascending_foldl (entries : Entries) : ∀ acc : Entries, Ascending acc →
    Ascending (entries.foldl (fun acc e => insert e.1 e.2 acc) acc) := by
  induction entries with
  | nil => exact fun _ h => h
  | cons entry rest ih => exact fun _ h => ih _ h.insert

theorem ascending_ofList (entries : List (String × Payload)) : Ascending (ofList entries) :=
  ascending_foldl entries [] .nil

theorem length_ofList (entries : List (String × Payload)) :
    (ofList entries).length = (entries.map Prod.fst).dedup.length := by
  have same : ((ofList entries).map Prod.fst).Perm (entries.map Prod.fst).dedup := by
    refine (List.perm_ext_iff_of_nodup (ascending_ofList entries).keys_nodup
      (List.nodup_dedup _)).mpr fun key => ?_
    rw [List.mem_dedup, mem_keys_ofList]
  rw [← same.length_eq, List.length_map]

theorem length_ofList_eq_iff :
    (ofList entries).length = entries.length ↔ (entries.map Prod.fst).Nodup := by
  rw [length_ofList, ← List.dedup_eq_self]
  constructor
  · intro same
    refine (List.dedup_sublist _).eq_of_length ?_
    rw [same, List.length_map]
  · intro same
    rw [same, List.length_map]

end RecordQuery.Payload.Entries
