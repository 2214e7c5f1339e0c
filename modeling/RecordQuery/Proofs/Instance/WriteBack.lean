import RecordQuery.Proofs.Instance.Formed

/-!
# Writing back

What is read from a relationship can be assigned to it again. That works for every relationship of
an instance exactly when the related instances are of the models that the relationships lead to.
-/

namespace RecordQuery.Instance

/-- Every related instance is of the model that its relationship leads to. -/
def OnTarget (x : Instance) : Prop :=
  ∀ f s, (f, s) ∈ x.cells → ∀ y ∈ s.related, x.model.related f.name = .ok y.model

/-- Assigning what was just read goes through and changes nothing. -/
structure WritesBack (x : Instance) : Prop where
  one : ∀ field related, x.one field = .ok related → x.setOne field related = .ok x
  many : ∀ field related, x.many field = .ok related → x.setMany field related = .ok x

variable {x y : Instance} {m : Model} {f : Field} {s : Slot Instance} {i : Nat}

/-! ### The slot that is read -/

theorem put_same (slot : x.slots[i]? = some s) : x.put i s = x := by
  obtain ⟨bound, rfl⟩ := List.getElem?_eq_some_iff.mp slot
  obtain ⟨m, slots, changed⟩ := x
  exact congrArg (Instance.mk m · changed) (List.set_getElem_self bound)

/-- In a valid schema a field is found where it is. -/
theorem locate_name (valid : m.schema.Valid) (at_i : m.schema.fields[i]? = some f) :
    locate m f.name = .ok (i, f.attr) := by
  have found := valid.find?_name (List.mem_of_getElem? at_i)
  have attr : m.schema.attr? f.name = some f.attr := by rw [Schema.attr?, found, Option.map_some]
  cases position : m.schema.position? f.name with
  | none =>
    rw [Schema.find?, List.find?_eq_bind_findIdx?_getElem?] at found
    rw [Schema.position?] at position
    rw [position] at found
    cases found
  | some k =>
    have located : locate m f.name = .ok (k, f.attr) := by simp only [locate, position, attr]
    obtain ⟨g, at_k, name, _⟩ := locate_eq_ok located
    obtain rfl := valid.eq_of_name (List.mem_of_getElem? at_k) (List.mem_of_getElem? at_i) name
    have bound : k < m.schema.fields.length := (List.getElem?_eq_some_iff.mp at_k).1
    obtain rfl := (List.getElem?_inj bound valid.fields_nodup).mp (at_k.trans at_i.symm)
    exact located

theorem locateRelation_name {many : Bool} (valid : m.schema.Valid)
    (at_i : m.schema.fields[i]? = some f) (relation : f.attr.isRelation = true)
    (arity : f.attr.isMany = many) : locateRelation m f.name many = .ok (i, f.attr) := by
  rw [locateRelation, locate_name valid at_i]
  simp [relation, arity]

/-! ### Both ways -/

theorem Regular.writesBack (h : x.Regular) (onTarget : x.OnTarget) : x.WritesBack where
  one := by
    intro field related read
    obtain ⟨i, a, located, slot⟩ := one_eq_ok.mp read
    obtain ⟨f, at_i, rfl, rfl, _⟩ := locateRelation_eq_ok located
    have held := getElem?_slotAt slot nofun
    have cell : (f, .one related) ∈ x.cells := mem_cells.mpr ⟨i, at_i, held⟩
    cases related with
    | none =>
      have suits : f.attr.isRelation = true ∧ f.attr.isMany = false ∧ f.attr.nullable = true :=
        h.suits _ _ cell
      exact setOne_none.mpr ⟨i, f.attr, located, suits.2.2, (put_same held).symm⟩
    | some y =>
      have target := onTarget _ _ cell y (List.mem_singleton.mpr rfl)
      exact setOne_some.mpr ⟨i, f.attr, located, target, (put_same held).symm⟩
  many := by
    intro field related read
    obtain ⟨i, a, located, slot⟩ := many_eq_ok.mp read
    obtain ⟨f, at_i, rfl, rfl, _⟩ := locateRelation_eq_ok located
    have held := getElem?_slotAt slot nofun
    have cell : (f, .many related) ∈ x.cells := mem_cells.mpr ⟨i, at_i, held⟩
    have targets := onTarget _ _ cell
    exact setMany_eq_ok.mpr ⟨i, f.attr, located, targets, (put_same held).symm⟩

theorem Regular.onTarget (h : x.Regular) (writesBack : x.WritesBack) : x.OnTarget := by
  intro f s cell y mem
  obtain ⟨i, at_i, held⟩ := mem_cells.mp cell
  have suits := h.suits f s cell
  have slot : x.slotAt i = s := by rw [slotAt, held, Option.getD_some]
  rcases s with _ | v | (_ | z) | zs
  · cases mem
  · cases mem
  · cases mem
  · obtain rfl := List.mem_singleton.mp mem
    have located := locateRelation_name h.valid at_i suits.1 suits.2
    have written := writesBack.one _ _ (one_eq_ok.mpr ⟨i, _, located, slot⟩)
    obtain ⟨_, _, _, target, _⟩ := setOne_some.mp written
    exact target
  · have located := locateRelation_name h.valid at_i suits.1 suits.2
    have written := writesBack.many _ _ (many_eq_ok.mpr ⟨i, _, located, slot⟩)
    obtain ⟨_, _, _, targets, _⟩ := setMany_eq_ok.mp written
    exact targets y mem

theorem Regular.onTarget_iff (h : x.Regular) : x.OnTarget ↔ x.WritesBack :=
  ⟨h.writesBack, h.onTarget⟩

end RecordQuery.Instance
