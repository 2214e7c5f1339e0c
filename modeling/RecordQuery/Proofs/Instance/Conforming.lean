import RecordQuery.Proofs.Instance.Sample
import RecordQuery.Proofs.Schema.Resolved

/-!
# Conforming instances

What the declaration of a field promises about its slot: a scalar field has a value of its kind or
null if it may, a relationship has instances of the model that it leads to, as many as it allows.
Every run of calls keeps this promise, at every depth.
-/

namespace RecordQuery

theorem Attribute.of_relation {a : Attribute} {target : String} {many : Bool}
    (content : a.content = .relation target many) :
    a.isRelation = true ∧ a.isMany = many ∧ a.target? = some target := by
  simp [isRelation, isMany, target?, content]

namespace Instance

/-- The slots and flags of an instance are as its schema declares them. -/
structure Conforming (x : Instance) : Prop where
  width : x.slots.length = x.model.schema.fields.length
  flags : x.changed.length = x.model.schema.fields.length
  /-- A float that is accepted is finite. -/
  scalar : ∀ f s k, (f, s) ∈ x.cells → f.attr.content = .scalar k → s = .unset ∨
    ∃ v, s = .value v ∧
      (v = .null ∧ f.attr.nullable = true ∨ v.kind? = some k ∧ k.accepts v = true)
  single : ∀ f s target, (f, s) ∈ x.cells → f.attr.content = .relation target false →
    s = .unset ∨ s = .one none ∧ f.attr.nullable = true ∨
      ∃ y, s = .one (some y) ∧ x.model.registry.model target = .ok y.model
  many : ∀ f s target, (f, s) ∈ x.cells → f.attr.content = .relation target true →
    s = .unset ∨ ∃ ys, s = .many ys ∧ ∀ y ∈ ys, x.model.registry.model target = .ok y.model

variable {x y : Instance} {f : Field} {s : Slot Instance}

theorem scalar_slot {a : Attribute} {k : Kind} (content : a.content = .scalar k)
    (suits : s.Suits a) : s = .unset ∨ ∃ v, s = .value v ∧
      (v = .null ∧ a.nullable = true ∨ v.kind? = some k ∧ k.accepts v = true) := by
  have scalar := Attribute.isRelation_eq_false content
  rcases s with _ | v | (_ | y) | ys
  · exact .inl rfl
  · refine .inr ⟨v, rfl, ?_⟩
    have holds := suits.2
    unfold Attribute.Holds at holds
    cases kind : v.kind? with
    | none =>
      rw [kind] at holds
      cases v with
      | null => exact .inl ⟨rfl, holds⟩
      | _ => cases kind
    | some own =>
      rw [kind, Attribute.kind?, content] at holds
      obtain ⟨⟨⟩, accepted⟩ := holds
      exact .inr ⟨rfl, accepted⟩
  · exact absurd suits.1 (by simp [scalar])
  · exact absurd suits.1 (by simp [scalar])
  · exact absurd suits.1 (by simp [scalar])

/-- The instances in a relationship are of the model that its attribute names. -/
theorem Sound.target (h : x.Sound) (cell : (f, s) ∈ x.cells) {target : String} {many : Bool}
    (content : f.attr.content = .relation target many) (mem : y ∈ s.related) :
    x.model.registry.model target = .ok y.model := by
  have leads := (Attribute.of_relation content).2.2
  rw [← Model.related_name h.built (mem_fields_of_mem_cells cell) leads]
  exact h.targets f s cell y mem

theorem Sound.conforming (h : x.Sound) : x.Conforming where
  width := h.width
  flags := h.flags
  scalar := fun f s k cell content => scalar_slot content (h.suits f s cell)
  single := by
    intro f s target cell content
    have suits := h.suits f s cell
    obtain ⟨relation, single, _⟩ := Attribute.of_relation content
    rcases s with _ | v | (_ | y) | ys
    · exact .inl rfl
    · exact absurd suits.1 (by simp [relation])
    · exact .inr (.inl ⟨rfl, suits.2.2⟩)
    · exact .inr (.inr ⟨y, rfl, h.target cell content (List.mem_singleton.mpr rfl)⟩)
    · exact absurd suits.2 (by simp [single])
  many := by
    intro f s target cell content
    have suits := h.suits f s cell
    obtain ⟨relation, many, _⟩ := Attribute.of_relation content
    rcases s with _ | v | (_ | y) | ys
    · exact .inl rfl
    · exact absurd suits.1 (by simp [relation])
    · exact absurd suits.2.1 (by simp [many])
    · exact absurd suits.2 (by simp [many])
    · exact .inr ⟨ys, rfl, fun y hy => h.target cell content hy⟩

/-! ### Runs -/

theorem Reachable.apply {next : Instance} {c : Call} (h : x.Reachable)
    (handed : ∀ y ∈ c.handed, y.Reachable) (step : c.apply x = .ok next) : next.Reachable := by
  cases c with
  | set field v => exact .set h step
  | setOne field related => exact .setOne h (fun y hy => handed y (Option.mem_toList.mpr hy)) step
  | setMany field related => exact .setMany h handed step
  | resetChanges =>
    cases step
    exact .resetChanges h

theorem Reachable.run {calls : List Call} (h : x.Reachable)
    (handed : ∀ c ∈ calls, ∀ y ∈ c.handed, y.Reachable) : (x.run calls).Reachable :=
  run_invariant h fun c hc _ _ start step => start.apply (handed c hc) step

/-- Whatever is done to an instance, in any order and with calls that are refused among the others,
it conforms to its schema, and so does every instance inside it. -/
theorem conforming_within_run {calls : List Call} (made : x.Reachable)
    (handed : ∀ c ∈ calls, ∀ y ∈ c.handed, y.Reachable) (inside : y.Within (x.run calls)) :
    y.Conforming :=
  ((made.run handed).typed.within inside).here.conforming

end Instance

namespace Sample

/-- The second call is refused, as an account has to have an id. -/
def assignments : List Instance.Call :=
  [.set "id" (.string "a1"), .set "id" .null, .setMany "users" [firstUser]]

def assignedAccount : Instance :=
  ⟨account, [.value (.string "a1"), .unset, .unset, .many [firstUser]],
    [true, false, false, false]⟩

theorem firstUser_conforming : (Instance.new account).Reachable ∧
    (∀ c ∈ assignments, ∀ y ∈ c.handed, y.Reachable) ∧
    firstUser.Within ((Instance.new account).run assignments) ∧ firstUser.Conforming := by
  have made : (Instance.new account).Reachable := .new registry_built
  have handed : ∀ c ∈ assignments, ∀ y ∈ c.handed, y.Reachable := by
    simpa [assignments, Instance.Call.handed] using firstUser_reachable
  have outcome : (Instance.new account).run assignments = assignedAccount := rfl
  have inside : firstUser.Within ((Instance.new account).run assignments) := by
    rw [outcome]
    have cell : (⟨"users", ⟨"Users", false, .relation "User" true⟩⟩, .many [firstUser]) ∈
        assignedAccount.cells := List.mem_of_getElem? (i := 3) rfl
    exact .related cell (List.mem_singleton.mpr rfl) .refl
  exact ⟨made, handed, inside, Instance.conforming_within_run made handed inside⟩

end Sample

end RecordQuery
