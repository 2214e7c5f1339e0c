import RecordQuery.Proofs.Attribute.Holds
import RecordQuery.Proofs.Instance.Cells

/-!
# Assignments

What a call that assigns to an instance can do: the model and the number of slots stay, and every
cell stays but one, which gets a slot that suits its field and holds only instances that were given.
In a run of calls, a call that is refused changes nothing.
-/

namespace RecordQuery

/-- What the field of an attribute may have in its slot. -/
def Slot.Suits {I : Type} (a : Attribute) : Slot I → Prop
  | unset => True
  | value v => a.isRelation = false ∧ a.Holds v
  | one none => a.isRelation = true ∧ a.isMany = false ∧ a.nullable = true
  | one (some _) => a.isRelation = true ∧ a.isMany = false
  | many _ => a.isRelation = true ∧ a.isMany = true

namespace Instance

variable {x next y : Instance} {m : Model} {field : String} {f : Field} {s : Slot Instance}
  {i : Nat} {a : Attribute} {v w : Value} {held : List Instance}

/-! ### What is accepted -/

/-- What is accepted is the value as the field takes it. -/
theorem accept_coerced (h : accept m field v = .ok (i, w)) :
    ∃ f, m.schema.fields[i]? = some f ∧ f.name = field ∧ f.attr.isRelation = false ∧
      f.attr.coerce m.name field v = .ok w := by
  rw [accept, Outcome.bind_eq_ok] at h
  obtain ⟨⟨k, a⟩, located, h⟩ := h
  obtain ⟨scalar, h⟩ := Outcome.check_eq_ok.mp h
  obtain ⟨u, coerced, h⟩ := Outcome.bind_eq_ok.mp h
  cases Outcome.pure_eq_ok.mp h
  obtain ⟨f, at_i, name, rfl⟩ := locate_eq_ok located
  exact ⟨f, at_i, name, by simpa using scalar, coerced⟩

/-- A value is accepted for a scalar field that can hold it. -/
theorem accept_eq_ok (h : accept m field v = .ok (i, w)) :
    ∃ f, m.schema.fields[i]? = some f ∧ f.name = field ∧ f.attr.isRelation = false ∧
      f.attr.Holds w := by
  obtain ⟨f, at_i, name, scalar, coerced⟩ := accept_coerced h
  exact ⟨f, at_i, name, scalar, Attribute.holds_of_coerce coerced⟩

theorem locateRelation_eq_ok {many : Bool} (h : locateRelation m field many = .ok (i, a)) :
    ∃ f, m.schema.fields[i]? = some f ∧ f.name = field ∧ f.attr = a ∧ a.isRelation = true ∧
      a.isMany = many := by
  rw [locateRelation, Outcome.bind_eq_ok] at h
  obtain ⟨⟨k, b⟩, located, h⟩ := h
  obtain ⟨relation, h⟩ := Outcome.check_eq_ok.mp h
  obtain ⟨arity, h⟩ := Outcome.check_eq_ok.mp h
  cases Outcome.pure_eq_ok.mp h
  obtain ⟨f, at_i, name, attr⟩ := locate_eq_ok located
  exact ⟨f, at_i, name, attr, by simpa using relation, by simpa using arity⟩

theorem checkTarget_eq_ok : checkTarget m field y = .ok () ↔ m.related field = .ok y.model := by
  rw [checkTarget, Outcome.bind_eq_ok]
  constructor
  · intro h
    obtain ⟨target, resolved, h⟩ := h
    split at h
    · exact absurd h Outcome.throw_ne_ok
    · next same =>
      rw [resolved, Decidable.not_not.mp same]
  · intro resolved
    refine ⟨_, resolved, ?_⟩
    rw [if_neg (not_not_intro rfl)]
    rfl

theorem setOne_some : x.setOne field (some y) = .ok next ↔
    ∃ i a, locateRelation x.model field false = .ok (i, a) ∧
      x.model.related field = .ok y.model ∧ next = x.put i (.one (some y)) := by
  simp only [setOne, Outcome.bind_eq_ok, Outcome.pure_eq_ok, Prod.exists, ← checkTarget_eq_ok]
  constructor
  · intro h
    obtain ⟨i, a, located, _, target, rfl⟩ := h
    exact ⟨i, a, located, target, rfl⟩
  · intro h
    obtain ⟨i, a, located, target, rfl⟩ := h
    exact ⟨i, a, located, (), target, rfl⟩

theorem setOne_none : x.setOne field none = .ok next ↔
    ∃ i a, locateRelation x.model field false = .ok (i, a) ∧ a.nullable = true ∧
      next = x.put i (.one none) := by
  simp only [setOne, Outcome.bind_eq_ok, Outcome.check_eq_ok, Outcome.pure_eq_ok, Prod.exists]
  constructor
  · intro h
    obtain ⟨i, a, located, nullable, rfl⟩ := h
    exact ⟨i, a, located, by simpa using nullable, rfl⟩
  · intro h
    obtain ⟨i, a, located, nullable, rfl⟩ := h
    exact ⟨i, a, located, by simpa using nullable, rfl⟩

theorem setMany_eq_ok {related : List Instance} : x.setMany field related = .ok next ↔
    ∃ i a, locateRelation x.model field true = .ok (i, a) ∧
      (∀ y ∈ related, x.model.related field = .ok y.model) ∧
        next = x.put i (.many related) := by
  simp only [setMany, Outcome.bind_eq_ok, Outcome.pure_eq_ok, Prod.exists, ← checkTarget_eq_ok,
    ← Outcome.forM_eq_ok]
  constructor
  · intro h
    obtain ⟨i, a, located, _, checked, rfl⟩ := h
    exact ⟨i, a, located, checked, rfl⟩
  · intro h
    obtain ⟨i, a, located, checked, rfl⟩ := h
    exact ⟨i, a, located, (), checked, rfl⟩

/-! ### One assignment -/

/-- A slot that may be put into a field, with related instances among those given. -/
structure Placed (m : Model) (held : List Instance) (f : Field) (s : Slot Instance) : Prop where
  suits : s.Suits f.attr
  targets : ∀ y ∈ s.related, m.related f.name = .ok y.model
  given : ∀ y ∈ s.related, y ∈ held

/-- All that an assignment can do. -/
structure Assigns (x : Instance) (held : List Instance) (next : Instance) : Prop where
  model : next.model = x.model
  width : next.slots.length = x.slots.length
  flags : next.changed.length = x.changed.length
  cells : ∀ f s, (f, s) ∈ next.cells → (f, s) ∈ x.cells ∨ Placed x.model held f s

theorem put_assigns (located : x.model.schema.fields[i]? = some f)
    (placed : Placed x.model held f s) : Assigns x held (x.put i s) where
  model := rfl
  width := List.length_set
  flags := rfl
  cells := by
    intro g t cell
    rcases mem_cells_put cell with old | ⟨rfl, at_i⟩
    · exact .inl old
    · obtain rfl := Option.some.inj (located.symm.trans at_i)
      exact .inr placed

/-- What is recorded about changes does not matter. -/
theorem Assigns.changes {flags : List Bool} (h : Assigns x held next)
    (length : flags.length = next.changed.length) :
    Assigns x held { next with changed := flags } where
  model := h.model
  width := h.width
  flags := length.trans h.flags
  cells := h.cells

theorem placed_value (scalar : f.attr.isRelation = false) (holds : f.attr.Holds v) :
    Placed m held f (.value v) where
  suits := ⟨scalar, holds⟩
  targets := fun _ hy => nomatch hy
  given := fun _ hy => nomatch hy

theorem set_assigns (step : x.set field v = .ok next) : Assigns x [] next := by
  rw [Instance.set, Outcome.bind_eq_ok] at step
  obtain ⟨⟨k, w⟩, accepted, step⟩ := step
  obtain ⟨f, at_k, _, scalar, holds⟩ := accept_eq_ok accepted
  obtain rfl := Outcome.pure_eq_ok.mp step
  apply (put_assigns at_k (placed_value scalar holds)).changes
  split
  · rfl
  · exact List.length_set

theorem setOne_assigns {related : Option Instance} (step : x.setOne field related = .ok next) :
    Assigns x related.toList next := by
  cases related with
  | none =>
    obtain ⟨k, _, located, nullable, rfl⟩ := setOne_none.mp step
    obtain ⟨f, at_k, rfl, rfl, relation, single⟩ := locateRelation_eq_ok located
    refine put_assigns at_k ⟨⟨relation, single, nullable⟩, ?_, ?_⟩
    · exact fun _ hy => nomatch hy
    · exact fun _ hy => nomatch hy
  | some y =>
    obtain ⟨k, _, located, target, rfl⟩ := setOne_some.mp step
    obtain ⟨f, at_k, rfl, rfl, relation, single⟩ := locateRelation_eq_ok located
    refine put_assigns at_k ⟨⟨relation, single⟩, ?_, fun _ hz => hz⟩
    exact fun _ hz => List.mem_singleton.mp hz ▸ target

theorem setMany_assigns {related : List Instance} (step : x.setMany field related = .ok next) :
    Assigns x related next := by
  obtain ⟨k, _, located, targets, rfl⟩ := setMany_eq_ok.mp step
  obtain ⟨f, at_k, rfl, rfl, relation, many⟩ := locateRelation_eq_ok located
  exact put_assigns at_k ⟨⟨relation, many⟩, targets, fun _ hy => hy⟩

theorem resetChanges_assigns (x : Instance) : Assigns x [] x.resetChanges where
  model := rfl
  width := rfl
  flags := List.length_map _
  cells := fun _ _ => .inl

/-! ### Runs of calls -/

/-- A call that may change an instance. -/
inductive Call where
  | set (field : String) (v : Value)
  | setOne (field : String) (related : Option Instance)
  | setMany (field : String) (related : List Instance)
  | resetChanges

namespace Call

def apply (x : Instance) : Call → Except Error Instance
  | set field v => x.set field v
  | setOne field related => x.setOne field related
  | setMany field related => x.setMany field related
  | resetChanges => .ok x.resetChanges

/-- The instances that a call hands over. -/
def handed : Call → List Instance
  | set _ _ => []
  | setOne _ related => related.toList
  | setMany _ related => related
  | resetChanges => []

/-- The field that a call assigns to. -/
def field? : Call → Option String
  | set field _ => some field
  | setOne field _ => some field
  | setMany field _ => some field
  | resetChanges => none

theorem apply_assigns {c : Call} (step : c.apply x = .ok next) : Assigns x c.handed next := by
  cases c with
  | set field v => exact set_assigns step
  | setOne field related => exact setOne_assigns step
  | setMany field related => exact setMany_assigns step
  | resetChanges =>
    cases step
    exact resetChanges_assigns x

end Call

/-- The instance after a call, which is the same as before if the call is refused. -/
def after (x : Instance) (c : Call) : Instance :=
  match c.apply x with
  | .ok next => next
  | .error _ => x

def run (x : Instance) (calls : List Call) : Instance := calls.foldl after x

theorem run_append (x : Instance) (calls later : List Call) :
    x.run (calls ++ later) = (x.run calls).run later := List.foldl_append

/-- What every call keeps when it is not refused, a run keeps. -/
theorem run_invariant {P : Instance → Prop} {calls : List Call} (start : P x)
    (step : ∀ c ∈ calls, ∀ x next, P x → c.apply x = .ok next → P next) : P (x.run calls) := by
  induction calls generalizing x with
  | nil => exact start
  | cons c rest ih =>
    refine ih ?_ fun d hd => step d (List.mem_cons_of_mem _ hd)
    rw [after]
    split
    · next applied => exact step c List.mem_cons_self x _ start applied
    · exact start

end Instance

end RecordQuery
