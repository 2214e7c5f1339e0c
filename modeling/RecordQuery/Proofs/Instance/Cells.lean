import RecordQuery.Instance.Access
import RecordQuery.Proofs.Outcome
import RecordQuery.Proofs.Schema.Built

/-!
# Cells

The fields of an instance with their slots: where a field is found, which cells an instance has
when it is made from given slots, and which it has after one slot was assigned.
-/

namespace RecordQuery

/-- The instances that a slot holds. -/
def Slot.related {I : Type} : Slot I → List I
  | one (some x) => [x]
  | many xs => xs
  | _ => []

namespace Instance

variable {x : Instance} {m : Model} {field : String} {f : Field} {s t : Slot Instance} {i : Nat}
  {a : Attribute}

theorem mem_cells : (f, s) ∈ x.cells ↔
    ∃ i : Nat, x.model.schema.fields[i]? = some f ∧ x.slots[i]? = some s := by
  simp only [cells, List.mem_iff_getElem?, List.getElem?_zip_eq_some]

theorem mem_fields_of_mem_cells (h : (f, s) ∈ x.cells) : f ∈ x.model.schema.fields :=
  (List.of_mem_zip h).1

/-- The position and the attribute belong to one field of that name. -/
theorem locate_eq_ok (h : locate m field = .ok (i, a)) :
    ∃ f, m.schema.fields[i]? = some f ∧ f.name = field ∧ f.attr = a := by
  unfold locate at h
  split at h
  · next position declared =>
    cases h
    obtain ⟨f, found, rfl⟩ := Option.map_eq_some_iff.mp declared
    have at_position : m.schema.fields[i]? = some f := by
      rw [Schema.find?, List.find?_eq_bind_findIdx?_getElem?] at found
      rw [Schema.position?] at position
      rw [position] at found
      exact found
    exact ⟨f, at_position, (Schema.find?_eq_some found).2, rfl⟩
  · cases h

theorem mem_cells_ofSlots {assigned : List (String × Slot Instance)} :
    (f, s) ∈ (ofSlots m assigned).cells ↔
      f ∈ m.schema.fields ∧ s = (assigned.lookup f.name).getD .unset := by
  rw [cells, ofSlots, ← List.map_prod_left_eq_zip, List.mem_map]
  constructor
  · intro h
    obtain ⟨_, mem, same⟩ := h
    cases same
    exact ⟨mem, rfl⟩
  · intro h
    obtain ⟨mem, rfl⟩ := h
    exact ⟨f, mem, rfl⟩

/-- An assignment leaves all cells but the assigned one. -/
theorem mem_cells_put (h : (f, t) ∈ (x.put i s).cells) :
    (f, t) ∈ x.cells ∨ t = s ∧ x.model.schema.fields[i]? = some f := by
  obtain ⟨k, field_at, slot_at⟩ := mem_cells.mp h
  rw [put, List.getElem?_set] at slot_at
  split at slot_at
  · next same =>
    split at slot_at
    · cases slot_at
      exact .inr ⟨rfl, same ▸ field_at⟩
    · cases slot_at
  · exact .inl (mem_cells.mpr ⟨k, field_at, slot_at⟩)

/-! ### The slot of a field -/

/-- The slot of a field, unset if there is no such field. -/
def slotFor (x : Instance) (f : Field) : Slot Instance := (x.cells.lookup f).getD .unset

theorem map_fst_cells (width : x.slots.length = x.model.schema.fields.length) :
    x.cells.map Prod.fst = x.model.schema.fields := by
  rw [cells, List.map_fst_zip (Nat.le_of_eq width.symm)]

theorem map_snd_cells (width : x.slots.length = x.model.schema.fields.length) :
    x.cells.map Prod.snd = x.slots := by
  rw [cells, List.map_snd_zip (Nat.le_of_eq width)]

theorem slotFor_eq (once : (x.cells.map Prod.fst).Nodup) (cell : (f, s) ∈ x.cells) :
    x.slotFor f = s := by
  obtain ⟨before, after, split⟩ := List.append_of_mem cell
  have found : x.cells.lookup f = some s := by
    refine List.lookup_eq_some_iff.mpr ⟨before, after, split, fun c hc => ?_⟩
    rw [split, List.map_append, List.map_cons] at once
    have apart := (List.nodup_append.mp once).2.2 c.1 (List.mem_map_of_mem hc) f
      List.mem_cons_self
    simpa using apart.symm
  rw [slotFor, found]
  rfl

theorem cell_slotFor (width : x.slots.length = x.model.schema.fields.length)
    (once : x.model.schema.fields.Nodup) (mem : f ∈ x.model.schema.fields) :
    (f, x.slotFor f) ∈ x.cells := by
  rw [← map_fst_cells width] at once mem
  obtain ⟨⟨_, s⟩, cell, rfl⟩ := List.mem_map.mp mem
  rw [slotFor_eq once cell]
  exact cell

theorem cell_of_slot (width : x.slots.length = x.model.schema.fields.length)
    (mem : s ∈ x.slots) : ∃ f, (f, s) ∈ x.cells := by
  obtain ⟨i, at_i⟩ := List.mem_iff_getElem?.mp mem
  have slots := (List.getElem?_eq_some_iff.mp at_i).1
  exact ⟨_, mem_cells.mpr ⟨i, List.getElem?_eq_getElem (width ▸ slots), at_i⟩⟩

/-- A valid schema has every field once, so there is one cell for each. -/
theorem cells_once (valid : x.model.schema.Valid)
    (width : x.slots.length = x.model.schema.fields.length) :
    (x.cells.map Prod.fst).Nodup := by
  rw [map_fst_cells width]
  exact valid.fields_nodup

/-! ### Related instances that are read out -/

theorem getElem?_slotAt (slot : x.slotAt i = s) (used : s ≠ .unset) : x.slots[i]? = some s := by
  rw [slotAt] at slot
  cases found : x.slots[i]? with
  | none =>
    rw [found] at slot
    exact absurd slot.symm used
  | some t =>
    rw [found] at slot
    exact congrArg some slot

/-- A slot in use is that of a field. -/
theorem slotAt_cell (width : x.slots.length = x.model.schema.fields.length)
    (slot : x.slotAt i = s) (used : s ≠ .unset) : ∃ f, (f, s) ∈ x.cells :=
  cell_of_slot width (List.mem_of_getElem? (getElem?_slotAt slot used))

theorem one_eq_ok {related : Option Instance} : x.one field = .ok related ↔
    ∃ i a, locateRelation x.model field false = .ok (i, a) ∧ x.slotAt i = .one related := by
  rw [one, Outcome.bind_eq_ok]
  constructor
  · intro h
    obtain ⟨⟨i, a⟩, located, h⟩ := h
    dsimp only at h
    split at h
    · next slot =>
      cases Outcome.pure_eq_ok.mp h
      exact ⟨i, a, located, slot⟩
    · exact absurd h Outcome.throw_ne_ok
  · intro h
    obtain ⟨i, a, located, slot⟩ := h
    refine ⟨(i, a), located, ?_⟩
    simp only [slot]
    rfl

theorem many_eq_ok {related : List Instance} : x.many field = .ok related ↔
    ∃ i a, locateRelation x.model field true = .ok (i, a) ∧ x.slotAt i = .many related := by
  rw [many, Outcome.bind_eq_ok]
  constructor
  · intro h
    obtain ⟨⟨i, a⟩, located, h⟩ := h
    dsimp only at h
    split at h
    · next slot =>
      cases Outcome.pure_eq_ok.mp h
      exact ⟨i, a, located, slot⟩
    · exact absurd h Outcome.throw_ne_ok
  · intro h
    obtain ⟨i, a, located, slot⟩ := h
    refine ⟨(i, a), located, ?_⟩
    simp only [slot]
    rfl

theorem one_related {y : Instance} (width : x.slots.length = x.model.schema.fields.length)
    (step : x.one field = .ok (some y)) : ∃ f s, (f, s) ∈ x.cells ∧ y ∈ s.related := by
  obtain ⟨i, a, _, slot⟩ := one_eq_ok.mp step
  obtain ⟨f, cell⟩ := slotAt_cell width slot nofun
  exact ⟨f, _, cell, List.mem_singleton.mpr rfl⟩

theorem many_related {ys : List Instance}
    (width : x.slots.length = x.model.schema.fields.length) (step : x.many field = .ok ys) :
    ∃ f, (f, .many ys) ∈ x.cells := by
  obtain ⟨i, a, _, slot⟩ := many_eq_ok.mp step
  exact slotAt_cell width slot nofun

end Instance

end RecordQuery
