import Mathlib.Data.List.Induction
import RecordQuery.Proofs.Instance.Rewritten

/-!
# Tracked fields

What a run of assignments does to one field, next to what is recorded about it. A field that is
recorded as changed was given another value at some call, and one that is not has a value equal to
that at the start. The invariant is kept by every call, those that are refused included.
-/

namespace RecordQuery

/-! ### Equality of values and slots -/

theorem Binary64.same_trans {x y z : Binary64} (left : x.same y = true) (right : y.same z = true) :
    x.same z = true := by
  cases y with
  | nan => cases right
  | infinite =>
    cases x with
    | infinite =>
      cases z with
      | infinite =>
        simp only [same, beq_iff_eq] at left right ⊢
        exact left.trans right
      | _ => cases right
    | _ => cases left
  | finite =>
    cases x with
    | finite =>
      cases z with
      | finite =>
        simp only [same, Bool.and_eq_true, Bool.or_eq_true, beq_iff_eq] at left right ⊢
        obtain ⟨rfl, signs⟩ := left
        obtain ⟨rfl, signs'⟩ := right
        refine ⟨rfl, ?_⟩
        -- Unless it is a zero, all three signs agree.
        rcases signs with rfl | zero
        · exact signs'
        · exact .inr zero
      | _ => cases right
    | _ => cases left

theorem Value.same_cases {v w : Value} (h : v.same w = true) :
    v = w ∨ ∃ x y, v = .float x ∧ w = .float y ∧ x.same y = true := by
  unfold Value.same at h
  split at h
  · exact .inr ⟨_, _, rfl, rfl, h⟩
  · exact .inl (beq_iff_eq.mp h)

theorem Value.same_trans {u v w : Value} (left : u.same v = true) (right : v.same w = true) :
    u.same w = true := by
  rcases Value.same_cases left with rfl | ⟨x, y, rfl, rfl, first⟩
  · exact right
  · rcases Value.same_cases right with rfl | ⟨_, z, floats, rfl, second⟩
    · exact left
    · cases floats
      exact Binary64.same_trans first second

namespace Slot

/-- Equality of slots, as instances compare them. -/
def same (s t : Slot Instance) : Bool := Instance.sameSlots [s] [t]

variable {s t : Slot Instance} {a : Attribute} {v w : Value}

@[simp] theorem same_value : (value v).same (value w) = v.same w := by
  simp [same, Instance.sameSlots]

theorem same_value_left (h : (value v).same t = true) : ∃ w, t = value w ∧ v.same w = true := by
  cases t with
  | value w => exact ⟨w, rfl, same_value.symm.trans h⟩
  | _ => simp [same, Instance.sameSlots] at h

theorem same_value_right (h : s.same (value w) = true) : ∃ v, s = value v ∧ v.same w = true := by
  cases s with
  | value v => exact ⟨v, rfl, same_value.symm.trans h⟩
  | _ => simp [same, Instance.sameSlots] at h

theorem Suits.scalar (suits : s.Suits a) (scalar : a.isRelation = false) :
    s = unset ∨ ∃ v, s = value v := by
  rcases s with _ | v | (_ | x) | xs
  · exact .inl rfl
  · exact .inr ⟨v, rfl⟩
  · exact absurd suits.1 (by simp [scalar])
  · exact absurd suits.1 (by simp [scalar])
  · exact absurd suits.1 (by simp [scalar])

theorem Suits.same_self (suits : s.Suits a) (scalar : a.isRelation = false) :
    s.same s = true := by
  rcases suits.scalar scalar with rfl | ⟨v, rfl⟩
  · rfl
  · rw [same_value]
    exact suits.2.same

/-- The slot has no value or another one. -/
def Lacks (s : Slot Instance) (w : Value) : Prop := s = unset ∨ ∃ u, s = value u ∧ u.same w = false

end Slot

namespace Instance

/-! ### One field -/

/-- The field at a position, with its slot and whether it is recorded as changed. -/
structure At (x : Instance) (i : Nat) (f : Field) (s : Slot Instance) (flag : Bool) : Prop where
  field : x.model.schema.fields[i]? = some f
  slot : x.slots[i]? = some s
  flag : x.changed[i]? = some flag

variable {x y next : Instance} {m : Model} {i k : Nat} {f : Field} {s t r : Slot Instance}
  {flag flag' : Bool} {c : Call} {calls later : List Call} {field : String} {v w : Value}

theorem At.cell (h : x.At i f s flag) : (f, s) ∈ x.cells := mem_cells.mpr ⟨i, h.field, h.slot⟩

theorem Regular.at_field (h : x.Regular) (at_i : x.model.schema.fields[i]? = some f) :
    ∃ s flag, x.At i f s flag := by
  obtain ⟨bound, _⟩ := List.getElem?_eq_some_iff.mp at_i
  have slot := List.getElem?_eq_getElem (h.width ▸ bound)
  have flag := List.getElem?_eq_getElem (h.flags ▸ bound)
  exact ⟨_, _, at_i, slot, flag⟩

/-- A field has one position, so it has one slot. -/
theorem Regular.at_unique {t : Slot Instance} (h : x.Regular) (here : x.At i f s flag)
    (cell : (f, t) ∈ x.cells) : t = s :=
  (slotFor_eq h.cells_once cell).symm.trans (slotFor_eq h.cells_once here.cell)

theorem holds_eq_true (here : x.At i f s flag) :
    x.holds i w = true ↔ ∃ u, s = .value u ∧ u.same w = true := by
  have slot : x.slotAt i = s := by rw [slotAt, here.slot, Option.getD_some]
  rw [holds, slot]
  rcases s with _ | u | _ | _ <;> simp

/-- All that a call can do to one field, but for the call that forgets the changes. -/
inductive Becomes (m : Model) (f : Field) (s : Slot Instance) (flag : Bool) :
    Call → Slot Instance → Bool → Prop
  | kept {c : Call} : Becomes m f s flag c s flag
  | equal {u v w : Value} (scalar : f.attr.isRelation = false) (held : s = .value u)
      (same : u.same w = true) : Becomes m f s flag (.set f.name v) (.value w) flag
  | other {v w : Value} (scalar : f.attr.isRelation = false)
      (coerced : f.attr.coerce m.name f.name v = .ok w) (lacks : s.Lacks w) :
      Becomes m f s flag (.set f.name v) (.value w) true
  | related {c : Call} {t : Slot Instance} (relation : f.attr.isRelation = true)
      (named : c.field? = some f.name) : Becomes m f s flag c t flag

theorem set_becomes (regular : x.Regular) (step : x.set field v = .ok next)
    (before : x.At i f s flag) (now : next.At i f t flag') :
    Becomes x.model f s flag (.set field v) t flag' := by
  rw [Instance.set, Outcome.bind_eq_ok] at step
  obtain ⟨⟨k, w⟩, accepted, step⟩ := step
  obtain ⟨g, at_k, rfl, scalar, coerced⟩ := accept_coerced accepted
  obtain rfl := Outcome.pure_eq_ok.mp step
  have slot : (x.slots.set k (.value w))[i]? = some t := now.slot
  have record : (if x.holds k w then x.changed else x.changed.set k true)[i]? = some flag' :=
    now.flag
  by_cases here : k = i
  · subst here
    obtain rfl : g = f := Option.some.inj (at_k.symm.trans before.field)
    rw [List.getElem?_set_self (List.getElem?_eq_some_iff.mp before.slot).1] at slot
    obtain rfl := Option.some.inj slot
    by_cases held : x.holds k w = true
    · rw [if_pos held, before.flag] at record
      obtain rfl := Option.some.inj record
      obtain ⟨u, value, same⟩ := (holds_eq_true before).mp held
      exact .equal scalar value same
    · rw [if_neg held, List.getElem?_set_self (List.getElem?_eq_some_iff.mp before.flag).1] at record
      obtain rfl := Option.some.inj record
      rw [holds_eq_true before] at held
      refine .other scalar coerced ?_
      rcases (regular.suits _ _ before.cell).scalar scalar with unset | ⟨u, value⟩
      · exact .inl unset
      · exact .inr ⟨u, value, Bool.eq_false_iff.mpr fun same => held ⟨u, value, same⟩⟩
  · rw [List.getElem?_set_ne here, before.slot] at slot
    obtain rfl := Option.some.inj slot
    have recorded : x.changed[i]? = some flag' := by
      split at record
      · exact record
      · rwa [List.getElem?_set_ne here] at record
    obtain rfl := Option.some.inj (before.flag.symm.trans recorded)
    exact .kept

theorem put_becomes (relation : f.attr.isRelation = true) (named : c.field? = some f.name)
    (at_k : x.model.schema.fields[k]? = some f) {g : Field}
    (before : x.At i g s flag) (now : (x.put k r).At i g t flag') :
    Becomes x.model g s flag c t flag' := by
  have slot : (x.slots.set k r)[i]? = some t := now.slot
  obtain rfl := Option.some.inj (before.flag.symm.trans now.flag)
  by_cases here : k = i
  · subst here
    obtain rfl : f = g := Option.some.inj (at_k.symm.trans before.field)
    exact .related relation named
  · rw [List.getElem?_set_ne here, before.slot] at slot
    obtain rfl := Option.some.inj slot
    exact .kept

/-- The one case analysis of the calls. -/
theorem Call.becomes (regular : x.Regular) (tracked : c ≠ .resetChanges)
    (step : c.apply x = .ok next) (before : x.At i f s flag) (now : next.At i f t flag') :
    Becomes x.model f s flag c t flag' := by
  cases c with
  | set field v => exact set_becomes regular step before now
  | setOne field related =>
    cases related with
    | none =>
      obtain ⟨k, _, located, _, rfl⟩ := setOne_none.mp step
      obtain ⟨g, at_k, rfl, rfl, relation, _⟩ := locateRelation_eq_ok located
      exact put_becomes relation rfl at_k before now
    | some y =>
      obtain ⟨k, _, located, _, rfl⟩ := setOne_some.mp step
      obtain ⟨g, at_k, rfl, rfl, relation, _⟩ := locateRelation_eq_ok located
      exact put_becomes relation rfl at_k before now
  | setMany field related =>
    obtain ⟨k, _, located, _, rfl⟩ := setMany_eq_ok.mp step
    obtain ⟨g, at_k, rfl, rfl, relation, _⟩ := locateRelation_eq_ok located
    exact put_becomes relation rfl at_k before now
  | resetChanges => exact absurd rfl tracked

/-! ### Runs -/

/-- Some call of the run has the property in the state that it is made in. -/
def Sometime (x : Instance) (calls : List Call) (P : Call → Instance → Prop) : Prop :=
  ∃ before c after, calls = before ++ c :: after ∧ P c (x.run before)

theorem Sometime.append {P : Call → Instance → Prop} (h : x.Sometime calls P) :
    x.Sometime (calls ++ later) P := by
  obtain ⟨before, c, after, rfl, property⟩ := h
  exact ⟨before, c, after ++ later, List.append_assoc _ _ _, property⟩

theorem Sometime.last {P : Call → Instance → Prop} (h : P c (x.run calls)) :
    x.Sometime (calls ++ [c]) P := ⟨calls, c, [], rfl, h⟩

/-- The call assigns to the field and goes through. -/
def Call.Names (field : String) (c : Call) (x : Instance) : Prop :=
  c.field? = some field ∧ ∃ next, c.apply x = .ok next

/-- The call sets the field, goes through and assigns another value than the field has. -/
def Call.Alters (f : Field) (c : Call) (x : Instance) : Prop :=
  ∃ v w next s, c = .set f.name v ∧ c.apply x = .ok next ∧
    f.attr.coerce x.model.name f.name v = .ok w ∧ (f, .value w) ∈ next.cells ∧
      (f, s) ∈ x.cells ∧ s.Lacks w

/-- What a run has done to a field that was not recorded as changed at its start. -/
structure Follows (x : Instance) (calls : List Call) (f : Field) (s t : Slot Instance)
    (flag : Bool) : Prop where
  unflagged : flag = false → f.attr.isRelation = false → s.same t = true
  flagged : flag = true → (∃ v, t = .value v) ∧ x.Sometime calls (Call.Alters f)
  unnamed : ¬ x.Sometime calls (Call.Names f.name) → t = s

theorem Follows.refused (h : Follows x calls f s t flag) : Follows x (calls ++ later) f s t flag where
  unflagged := h.unflagged
  flagged := fun on => ⟨(h.flagged on).1, (h.flagged on).2.append⟩
  unnamed := fun never => h.unnamed fun named => never named.append

/-- A call that goes through keeps the invariant. -/
theorem Follows.becomes (h : Follows x calls f s t flag) (regular : (x.run calls).Regular)
    (step : c.apply (x.run calls) = .ok next) (here : (x.run calls).At i f t flag)
    (now : next.At i f r flag') (case : Becomes (x.run calls).model f t flag c r flag') :
    Follows x (calls ++ [c]) f s r flag' := by
  have named (named : c.field? = some f.name) :
      x.Sometime (calls ++ [c]) (Call.Names f.name) := .last ⟨named, next, step⟩
  cases case with
  | kept => exact h.refused
  | equal scalar held same =>
    refine ⟨fun off _ => ?_, fun on => ?_, fun never => absurd (named rfl) never⟩
    · have start := h.unflagged off scalar
      rw [held] at start
      obtain ⟨u, rfl, first⟩ := Slot.same_value_right start
      exact Slot.same_value.trans (Value.same_trans first same)
    · exact ⟨⟨_, rfl⟩, (h.flagged on).2.append⟩
  | other scalar coerced lacks =>
    refine ⟨nofun, fun _ => ⟨⟨_, rfl⟩, ?_⟩, fun never => absurd (named rfl) never⟩
    exact .last ⟨_, _, next, t, rfl, step, coerced, now.cell, here.cell, lacks⟩
  | related relation name =>
    refine ⟨fun _ scalar => ?_, fun on => ?_, fun never => absurd (named name) never⟩
    · rw [relation] at scalar
      cases scalar
    · obtain ⟨⟨v, rfl⟩, _⟩ := h.flagged on
      rw [(regular.value here.cell).1] at relation
      cases relation

theorem Regular.run (h : x.Regular) : (x.run calls).Regular :=
  run_invariant h fun _ _ _ _ regular step => regular.assigns (Call.apply_assigns step)

theorem run_model (x : Instance) (calls : List Call) : (x.run calls).model = x.model := by
  refine run_invariant (P := fun y => y.model = x.model) rfl fun c _ y next same step => ?_
  exact (Call.apply_assigns step).model.trans same

/-- No change is recorded. -/
def Clean (x : Instance) : Prop := ∀ flag ∈ x.changed, flag = false

theorem Clean.at (clean : x.Clean) (here : x.At i f s flag) : flag = false :=
  clean flag (List.mem_of_getElem? here.flag)

/-- The invariant of all runs, by induction on the number of calls made. -/
theorem Regular.follows (regular : x.Regular) (clean : x.Clean)
    (tracked : Call.resetChanges ∉ calls) (start : x.At i f s flag)
    (here : (x.run calls).At i f t flag') : Follows x calls f s t flag' := by
  induction calls using List.reverseRecOn generalizing t flag' with
  | nil =>
    obtain rfl := Option.some.inj (start.slot.symm.trans here.slot)
    obtain rfl := Option.some.inj (start.flag.symm.trans here.flag)
    obtain rfl := clean.at start
    refine ⟨fun _ scalar => (regular.suits _ _ start.cell).same_self scalar, nofun, fun _ => rfl⟩
  | append_singleton calls c ih =>
    rw [List.mem_append, List.mem_singleton, not_or] at tracked
    have middle : (x.run calls).Regular := regular.run
    obtain ⟨u, flag₁, before⟩ := middle.at_field (run_model x calls ▸ start.field)
    have known := ih tracked.1 before
    rw [run_append] at here
    change ((x.run calls).after c).At i f t flag' at here
    rw [after] at here
    cases applied : c.apply (x.run calls) with
    | error e =>
      rw [applied] at here
      obtain rfl := Option.some.inj (before.slot.symm.trans here.slot)
      obtain rfl := Option.some.inj (before.flag.symm.trans here.flag)
      exact known.refused
    | ok next =>
      rw [applied] at here
      have case := Call.becomes middle (Ne.symm tracked.2) applied before here
      exact known.becomes middle applied before here case

end Instance

end RecordQuery
