import RecordQuery.Proofs.Condition.Operands

/-!
# Where statements begin

In the text of a statement SELECT stands in front of every statement inside it and nowhere else. This
is a property of fragments that puts no condition on the pieces without SELECT, and it passes from
fragments to what is put together from them.
-/

namespace RecordQuery.Fragment

/-- At every SELECT in the text a fragment with the property begins, which ends in front of a closing
parenthesis. -/
def Begins (P : Fragment → Prop) (f : Fragment) : Prop :=
  ∀ before after : Fragment, f = before ++ .keyword .SELECT :: after →
    ∃ inner rest : Fragment, after = inner ++ .rightParen :: rest ∧ P (.keyword .SELECT :: inner)

namespace Begins

variable {P Q : Fragment → Prop} {f g : Fragment} {c : Chunk}

theorem nil : Begins P [] := fun _ _ split => by simp at split

theorem cons (other : c ≠ .keyword .SELECT) (rest : Begins P f) : Begins P (c :: f) := by
  intro before after split
  cases before with
  | nil => exact absurd (List.cons.inj split).1 other
  | cons d before => exact rest before after (List.cons.inj split).2

theorem append (hf : Begins P f) (hg : Begins P g) : Begins P (f ++ g) := by
  intro before after split
  rcases List.append_eq_append_iff.mp split with ⟨middle, rfl, right⟩ | ⟨middle, left, right⟩
  · exact hg middle after right
  · cases middle with
    | nil => exact hg [] after right.symm
    | cons d middle =>
      obtain ⟨rfl, rfl⟩ := List.cons.inj right
      obtain ⟨inner, rest, rfl, holds⟩ := hf before middle left
      exact ⟨inner, rest ++ g, by simp, holds⟩

theorem parens (h : Begins P f) : Begins P f.parens :=
  .cons nofun (h.append (.cons nofun .nil))

/-- A statement in parentheses begins where its SELECT stands. -/
theorem statement (whole : P (.keyword .SELECT :: f)) (h : Begins P f) :
    Begins P (Fragment.parens (.keyword .SELECT :: f)) := by
  refine .cons nofun ?_
  intro before after split
  cases before with
  | nil =>
    obtain ⟨_, rfl⟩ := List.cons.inj split
    exact ⟨f, [], rfl, whole⟩
  | cons d before =>
    have rest : Begins P (f ++ [.rightParen]) := h.append (.cons nofun .nil)
    exact rest before after (List.cons.inj split).2

theorem imp (implies : ∀ f, P f → Q f) (h : Begins P f) : Begins Q f := by
  intro before after split
  obtain ⟨inner, rest, same, holds⟩ := h before after split
  exact ⟨inner, rest, same, implies _ holds⟩

theorem path (segments : List String) : Begins P (path segments) := by
  cases segments with
  | nil => exact .nil
  | cons first rest =>
    rw [path_cons]
    refine .cons nofun ?_
    induction rest with
    | nil => exact .nil
    | cons s rest ih => exact .cons nofun (.cons nofun ih)

theorem assemble {pieces : List (Chunk × Fragment)}
    (words : ∀ p ∈ pieces, p.1 ≠ .keyword .SELECT) (all : ∀ p ∈ pieces, Begins P p.2) :
    Begins P (assemble pieces) := by
  induction pieces with
  | nil => exact .nil
  | cons p rest ih =>
    refine .cons (words p List.mem_cons_self) ((all p List.mem_cons_self).append (ih ?_ ?_))
    · exact fun p mem => words p (List.mem_cons_of_mem _ mem)
    · exact fun p mem => all p (List.mem_cons_of_mem _ mem)

theorem closed : Closed (Begins P) where
  nil := .nil
  append := append
  parens := parens
  path := path
  relation _ := .cons nofun .nil
  comma := .cons nofun .nil
  keyword {k} inner := by
    refine .cons ?_ .nil
    rintro ⟨⟩
    exact inner List.mem_cons_self

end Begins

end RecordQuery.Fragment
