import Mathlib.Data.List.Forall2
import RecordQuery.Proofs.Query.Operands

/-!
# Zeros in texts

Floats are compared as numbers, so the two zeros are the same value, but they are written with their
signs. Fragments that agree but for the signs of zeros have the same text exactly when those signs
agree too: the first sign that does not puts a minus where the other text has a digit.
-/

namespace RecordQuery

namespace Binary64

def zero (negative : Bool) : Binary64 := .finite negative ⟨0, by decide⟩

/-- Numbers that compare equal are the same float, or the two zeros. -/
theorem eq_or_opposite {x y : Binary64} (same : x.same y = true) :
    x = y ∨ ∃ negative, x = zero negative ∧ y = zero (!negative) := by
  cases x with
  | nan => cases same
  | infinite s =>
    cases y with
    | infinite t =>
      obtain rfl : s = t := by simpa [Binary64.same] using same
      exact .inl rfl
    | _ => cases same
  | finite s m =>
    cases y with
    | finite t n =>
      simp only [Binary64.same, Bool.and_eq_true, Bool.or_eq_true, beq_iff_eq] at same
      obtain ⟨rfl, signs⟩ := same
      by_cases equal : s = t
      · exact .inl (equal ▸ rfl)
      · obtain rfl : m = ⟨0, by decide⟩ := Fin.ext (signs.resolve_left equal)
        obtain rfl : t = !s := by cases s <;> cases t <;> simp_all
        exact .inr ⟨s, rfl, rfl⟩
    | _ => cases same

theorem literalText_zero (negative : Bool) :
    (zero negative).literalText = Text.Numeral.sign negative ++ ['0', '.', '0'] := by
  have whole : units 0 = 0 := by decide
  have plain : plainText 0 = ['0', '.', '0'] := by
    rw [plainText, whole, Nat.zero_mod, if_pos rfl, Nat.zero_div]
    rfl
  exact congrArg (Text.Numeral.sign negative ++ ·) plain

end Binary64

theorem Value.eq_or_opposite {v w : Value} (same : v.same w = true) :
    v = w ∨ ∃ negative, v = .float (.zero negative) ∧ w = .float (.zero !negative) := by
  unfold Value.same at same
  split at same
  · rcases Binary64.eq_or_opposite same with rfl | ⟨negative, rfl, rfl⟩
    · exact .inl rfl
    · exact .inr ⟨negative, rfl, rfl⟩
  · exact .inl (beq_iff_eq.mp same)

/-! ### Chunks and fragments -/

namespace Chunk

/-- The same chunk, or the two zeros. -/
inductive Alike : Chunk → Chunk → Prop
  | refl (c : Chunk) : Alike c c
  | opposite (negative : Bool) :
    Alike (.literal (.float (.zero negative))) (.literal (.float (.zero !negative)))

/-- Whether the chunk is a negative zero, if it is a zero. -/
def zero? : Chunk → Option Bool
  | literal (.float (.finite negative code)) => if code.val = 0 then some negative else none
  | _ => none

variable {c d c' d' : Chunk}

theorem zero?_zero (negative : Bool) : (literal (.float (.zero negative))).zero? = some negative :=
  rfl

theorem alike_literal {v w : Value} (same : v.same w = true) : Alike (.literal v) (.literal w) := by
  rcases Value.eq_or_opposite same with rfl | ⟨negative, rfl, rfl⟩
  · exact .refl _
  · exact .opposite negative

theorem Alike.spaced (first : c.Alike c') (second : d.Alike d') : c.spaced d = c'.spaced d' := by
  cases first with
  | refl =>
    cases second with
    | refl => rfl
    | opposite => exact spaced_literal_right _ _ c
  | opposite negative =>
    rw [spaced_literal_left _ (.float (.zero !negative))]
    cases second with
    | refl => rfl
    | opposite => rfl

end Chunk

namespace Fragment

/-- The same chunks one after another, up to the signs of zeros. -/
def Alike (f g : Fragment) : Prop := List.Forall₂ Chunk.Alike f g

/-- The zeros of the text from left to right, true for a negative one. -/
def zeros (f : Fragment) : List Bool := f.filterMap Chunk.zero?

variable {f g s t : Fragment}

namespace Alike

theorem refl (f : Fragment) : f.Alike f := List.forall₂_same.mpr fun c _ => Chunk.Alike.refl c

theorem append (first : f.Alike g) (second : s.Alike t) : Alike (f ++ s) (g ++ t) :=
  List.rel_append first second

theorem cons (c : Chunk) (rest : f.Alike g) : Alike (c :: f) (c :: g) :=
  List.Forall₂.cons (.refl c) rest

theorem behind (before : Fragment) (h : f.Alike g) : Alike (before ++ f) (before ++ g) :=
  (refl before).append h

theorem before (behind : Fragment) (h : f.Alike g) : Alike (f ++ behind) (g ++ behind) :=
  h.append (refl behind)

theorem literal {v w : Value} (same : v.same w = true) : Alike [.literal v] [.literal w] :=
  List.Forall₂.cons (Chunk.alike_literal same) .nil

theorem parens (h : f.Alike g) : f.parens.Alike g.parens :=
  (h.cons .leftParen).append (refl [.rightParen])

theorem parensIf (needed : Bool) (h : f.Alike g) :
    (f.parensIf needed).Alike (g.parensIf needed) := by
  cases needed with
  | true => exact h.parens
  | false => exact h

theorem separated (c : Chunk) {fs gs : List Fragment} (all : List.Forall₂ Alike fs gs) :
    (separated c fs).Alike (separated c gs) := by
  induction all with
  | nil => exact refl []
  | cons first others ih =>
    cases others with
    | nil => exact first
    | cons second others => exact first.append (ih.cons c)

end Alike

theorem zeros_cons (c : Chunk) : zeros (c :: f) = c.zero?.toList ++ f.zeros := by
  cases h : c.zero? <;> simp [zeros, h]

/-- A text that starts with a zero starts with its sign. -/
theorem toList_write_zero (negative : Bool) (f : Fragment) :
    ∃ rest, (write (.literal (.float (.zero negative)) :: f)).toList
      = Text.Numeral.sign negative ++ '0' :: rest := by
  have written : (Chunk.literal (.float (.zero negative))).text.toList
      = Text.Numeral.sign negative ++ ['0', '.', '0'] :=
    (toList_text_literal _).trans (Binary64.literalText_zero negative)
  cases f with
  | nil => exact ⟨['.', '0'], written⟩
  | cons d rest =>
    rw [write_cons, written, List.append_assoc]
    exact ⟨_, rfl⟩

/-- Zeros with different signs start different texts, whatever follows. -/
theorem write_opposite (negative : Bool) (f g : Fragment) :
    write (.literal (.float (.zero negative)) :: f)
      ≠ write (.literal (.float (.zero !negative)) :: g) := by
  intro equal
  obtain ⟨rest, first⟩ := toList_write_zero negative f
  obtain ⟨rest', second⟩ := toList_write_zero (!negative) g
  rw [equal, second] at first
  cases negative <;> simp [Text.Numeral.sign] at first

/-- Behind the same chunk, alike fragments have the same text exactly when they have it alone. -/
theorem Alike.write_cons_eq_iff (c : Chunk) (h : f.Alike g) :
    write (c :: f) = write (c :: g) ↔ write f = write g := by
  cases h with
  | nil => exact ⟨fun _ => rfl, fun _ => rfl⟩
  | cons second others =>
    rw [← String.toList_inj, write_cons, write_cons, Chunk.Alike.spaced (.refl c) second,
      List.append_cancel_left_eq, List.append_cancel_left_eq, String.toList_inj]

/-- The text of alike fragments is the same exactly when the signs of their zeros are. -/
theorem Alike.write_eq_iff (h : f.Alike g) : f.write = g.write ↔ f.zeros = g.zeros := by
  induction h with
  | nil => exact ⟨fun _ => rfl, fun _ => rfl⟩
  | cons first others ih =>
    cases first with
    | refl =>
      rw [Alike.write_cons_eq_iff _ others, ih, zeros_cons, zeros_cons, List.append_cancel_left_eq]
    | opposite negative =>
      refine iff_of_false (write_opposite negative _ _) fun equal => ?_
      rw [zeros_cons, zeros_cons, Chunk.zero?_zero, Chunk.zero?_zero] at equal
      cases negative <;> simp at equal

end Fragment

end RecordQuery
