import RecordQuery.Proofs.Instance.Formed
import RecordQuery.Proofs.Instance.Sample

/-!
# Instances with other values

An instance in which the values are replaced, those inside related instances too, and no changes are
recorded. With every value left as it is this is the instance without its changes. With every value
as its text shows it, it is equal to the instance exactly if all instants in there are legible.
-/

namespace RecordQuery

namespace Instance

mutual

/-- Replaces the values and forgets the changes at every depth. -/
def rewritten (g : Value → Value) : Instance → Instance
  | ⟨m, slots, changed⟩ => ⟨m, rewrittenSlots g slots, changed.map fun _ => false⟩

def rewrittenSlots (g : Value → Value) : List (Slot Instance) → List (Slot Instance)
  | [] => []
  | .unset :: rest => .unset :: rewrittenSlots g rest
  | .value v :: rest => .value (g v) :: rewrittenSlots g rest
  | .one none :: rest => .one none :: rewrittenSlots g rest
  | .one (some x) :: rest => .one (some (rewritten g x)) :: rewrittenSlots g rest
  | .many xs :: rest => .many (rewrittenAll g xs) :: rewrittenSlots g rest

def rewrittenAll (g : Value → Value) : List Instance → List Instance
  | [] => []
  | x :: rest => rewritten g x :: rewrittenAll g rest

end

/-- The instance without its changes. -/
def cleared (x : Instance) : Instance := x.rewritten id

/-- The instance as its record shows it. -/
def reloaded (x : Instance) : Instance := x.rewritten Value.shown

/-- All values inside are legible, at every depth. -/
def Legible (x : Instance) : Prop :=
  ∀ y : Instance, y.Within x → ∀ v, .value v ∈ y.slots → v.Legible

end Instance

namespace Slot

variable {g h : Value → Value} {s : Slot Instance}

def rewritten (g : Value → Value) : Slot Instance → Slot Instance
  | unset => unset
  | value v => value (g v)
  | one none => one none
  | one (some x) => one (some (x.rewritten g))
  | many xs => many (xs.map (Instance.rewritten g))

def reloaded (s : Slot Instance) : Slot Instance := s.rewritten Value.shown

theorem reloaded_value (v : Value) : (value v).reloaded = value v.shown := rfl

theorem reloaded_one (x : Instance) : (one (some x)).reloaded = one (some x.reloaded) := rfl

theorem reloaded_many (xs : List Instance) :
    (many xs).reloaded = many (xs.map Instance.reloaded) := rfl

theorem rewritten_congr (values : ∀ v, s = .value v → g v = h v)
    (below : ∀ y ∈ s.related, y.rewritten g = y.rewritten h) : s.rewritten g = s.rewritten h := by
  rcases s with _ | v | (_ | x) | xs
  · rfl
  · exact congrArg value (values v rfl)
  · rfl
  · exact congrArg (one ∘ some) (below x (List.mem_singleton.mpr rfl))
  · exact congrArg many (List.map_congr_left below)

end Slot

namespace Instance

variable {g h : Value → Value} {x y : Instance}

theorem rewrittenAll_eq (xs : List Instance) : rewrittenAll g xs = xs.map (rewritten g) := by
  induction xs with
  | nil => rfl
  | cons x rest ih => rw [rewrittenAll, ih, List.map_cons]

theorem rewrittenSlots_eq (slots : List (Slot Instance)) :
    rewrittenSlots g slots = slots.map (Slot.rewritten g) := by
  induction slots with
  | nil => rfl
  | cons s rest ih =>
    rw [List.map_cons, ← ih]
    rcases s with _ | v | (_ | x) | xs
    · rfl
    · rfl
    · rfl
    · rfl
    · rw [rewrittenSlots, rewrittenAll_eq]
      rfl

theorem rewritten_eq (g : Value → Value) (x : Instance) : x.rewritten g =
    ⟨x.model, x.slots.map (Slot.rewritten g), x.changed.map fun _ => false⟩ := by
  obtain ⟨m, slots, changed⟩ := x
  rw [rewritten, rewrittenSlots_eq]

theorem reloaded_eq (x : Instance) : x.reloaded =
    ⟨x.model, x.slots.map Slot.reloaded, x.changed.map fun _ => false⟩ :=
  rewritten_eq Value.shown x

/-- Only what the values inside become counts. -/
theorem Formed.rewritten_congr (formed : x.Formed) :
    (∀ y : Instance, y.Within x → ∀ v, .value v ∈ y.slots → g v = h v) →
      x.rewritten g = x.rewritten h := by
  induction formed with
  | @intro x here _ ih =>
    intro agree
    have slots : x.slots.map (Slot.rewritten g) = x.slots.map (Slot.rewritten h) := by
      refine List.map_congr_left fun s mem => Slot.rewritten_congr ?_ fun y inner => ?_
      · rintro v rfl
        exact agree x .refl v mem
      · obtain ⟨f, cell⟩ := cell_of_slot here.width mem
        exact ih f s cell y inner fun z inside => agree z (.related cell inner inside)
    rw [rewritten_eq, rewritten_eq, slots]

/-! ### Equality -/

theorem sameAll_rewritten {xs : List Instance} :
    sameAll (xs.map (rewritten g)) xs = true ↔ ∀ x ∈ xs, (x.rewritten g).same x = true := by
  induction xs with
  | nil => simp [sameAll]
  | cons x rest ih => simp [sameAll, ih]

theorem sameSlots_rewritten {slots : List (Slot Instance)} :
    sameSlots (slots.map (Slot.rewritten g)) slots = true ↔
      (∀ v, .value v ∈ slots → (g v).same v = true) ∧
        ∀ s ∈ slots, ∀ y ∈ s.related, (y.rewritten g).same y = true := by
  induction slots with
  | nil => simp [sameSlots]
  | cons s rest ih =>
    rcases s with _ | v | (_ | x) | xs
    · simp [Slot.rewritten, sameSlots, Slot.related, ih]
    · simp [Slot.rewritten, sameSlots, Slot.related, ih, and_assoc]
    · simp [Slot.rewritten, sameSlots, Slot.related, ih]
    · simp [Slot.rewritten, sameSlots, Slot.related, ih, and_left_comm]
    · simp [Slot.rewritten, sameSlots, Slot.related, ih, sameAll_rewritten, and_left_comm]

theorem Formed.same_rewritten_iff (formed : x.Formed) : (x.rewritten g).same x = true ↔
    ∀ y : Instance, y.Within x → ∀ v, .value v ∈ y.slots → (g v).same v = true := by
  induction formed with
  | @intro x here _ ih =>
    have split : (x.rewritten g).same x = true ↔
        sameSlots (x.slots.map (Slot.rewritten g)) x.slots = true := by
      rw [rewritten_eq]
      obtain ⟨m, _, _⟩ := x
      rw [same, beq_self_eq_true m, Bool.true_and]
    rw [split, sameSlots_rewritten]
    constructor
    · rintro ⟨values, below⟩ y inside
      cases inside with
      | refl => exact values
      | related cell mem inside =>
        exact (ih _ _ cell _ mem).mp (below _ (List.of_mem_zip cell).2 _ mem) y inside
    · intro all
      refine ⟨all x .refl, fun s hs y mem => ?_⟩
      obtain ⟨f, cell⟩ := cell_of_slot here.width hs
      exact (ih f s cell y mem).mpr fun z inside => all z (.related cell mem inside)

end Instance

/-- A value that some attribute holds is equal to itself: there is no NaN among them. -/
theorem Attribute.Holds.same {a : Attribute} {v : Value} (h : a.Holds v) : v.same v = true := by
  cases v with
  | float x =>
    cases x with
    | finite negative code => simp [Value.same, Binary64.same]
    | nan => cases h.2
    | infinite => cases h.2
  | _ => exact beq_self_eq_true _

theorem Attribute.Holds.same_shown_iff {a : Attribute} {v : Value} (h : a.Holds v) :
    v.shown.same v = true ↔ v.Legible := by
  rw [← Value.shown_eq_self_iff]
  cases v with
  | datetime t => exact beq_iff_eq
  | _ => exact iff_of_true h.same rfl

namespace Instance

variable {x : Instance}

theorem Formed.same_reloaded_iff (formed : x.Formed) : x.reloaded.same x = true ↔ x.Legible := by
  refine formed.same_rewritten_iff.trans ?_
  refine forall_congr' fun y => forall_congr' fun inside => forall_congr' fun v =>
    forall_congr' fun mem => ?_
  have here := (formed.within inside).here
  obtain ⟨f, cell⟩ := cell_of_slot here.width mem
  exact (here.value cell).2.same_shown_iff

theorem Formed.reloaded_eq_cleared (formed : x.Formed) (legible : x.Legible) :
    x.reloaded = x.cleared :=
  formed.rewritten_congr fun y inside v mem => Value.shown_of_legible (legible y inside v mem)

end Instance

/-! ### At the sample -/

namespace Sample

theorem within_firstAccount {y : Instance} (inside : y.Within firstAccount) :
    y = firstAccount ∨ y = firstUser := by
  have users : ∀ c ∈ firstAccount.cells, ∀ z ∈ c.2.related, z = firstUser := by
    simp [Instance.cells, firstAccount, account, accountFields, Slot.related]
  have none : ∀ c ∈ firstUser.cells, c.2.related = [] := by
    simp [Instance.cells, firstUser, user, userFields, Slot.related]
  rcases inside with _ | ⟨cell, mem, below⟩
  · exact .inl rfl
  · obtain rfl := users _ cell _ mem
    rcases below with _ | ⟨cell, mem, _⟩
    · exact .inr rfl
    · rw [none _ cell] at mem
      cases mem

theorem firstAccount_legible : firstAccount.Legible := by
  intro y inside v mem
  rcases within_firstAccount inside with rfl | rfl
  · have values : v = .string "a1" ∨ v = .float twoAndHalf := by simpa [firstAccount] using mem
    rcases values with rfl | rfl <;> trivial
  · have values : v = .string "u1" ∨ v = .date leapDay := by simpa [firstUser] using mem
    rcases values with rfl | rfl <;> trivial

def eventFields : List Field := [⟨"id", ⟨"Id", false, .scalar .string⟩⟩, ⟨"start", startAttribute⟩]

def eventRegistry : Registry := ⟨0, [⟨"Event", "Event", eventFields⟩]⟩

theorem eventRegistry_built : eventRegistry.Built := ⟨0, [⟨"Event", none, [], eventFields⟩], rfl⟩

def event : Model := ⟨eventRegistry, ⟨"Event", "Event", eventFields⟩, List.mem_cons_self⟩

/-- An event that starts in a leap second inside a minute. -/
def overrunEvent : Instance :=
  ⟨event, [.value (.string "e1"), .value (.datetime .overrun)], [false, false]⟩

def carriedEvent : Instance :=
  ⟨event, [.value (.string "e1"), .value (.datetime .carried)], [false, false]⟩

theorem overrunEvent_reachable : overrunEvent.Reachable := by
  have step : Instance.ofValues event [("id", .string "e1"), ("start", .datetime .overrun)] =
      .ok overrunEvent := rfl
  exact .ofValues eventRegistry_built step

end Sample

end RecordQuery
