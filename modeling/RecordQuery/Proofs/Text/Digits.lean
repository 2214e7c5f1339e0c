import RecordQuery.Text.Blank
import RecordQuery.Text.Numeral

/-!
# Digits and white space

Padded numerals denote their number and have their width, and a text without white space at its two
ends is trimmed to itself.
-/

namespace RecordQuery.Text

/-! ### Runs of characters -/

theorem takeWhile_run {p : Char → Bool} {l t : List Char} (all : ∀ c ∈ l, p c = true)
    (stops : ∀ c ∈ t.head?, p c = false) :
    (l ++ t).takeWhile p = l ∧ (l ++ t).dropWhile p = t := by
  rw [List.takeWhile_append_of_pos all, List.dropWhile_append_of_pos all]
  cases t with
  | nil => simp
  | cons c t =>
    have stop : ¬ p c = true := by simp [stops c rfl]
    rw [List.takeWhile_cons_of_neg stop, List.dropWhile_cons_of_neg stop, List.append_nil]
    exact ⟨rfl, rfl⟩

/-- A run of digits is over where this text starts. -/
def Stops (s : List Char) : Prop := ∀ c ∈ s.head?, c.isDigit = false

theorem stops_nil : Stops [] := fun _ h => nomatch h

theorem stops_cons {c : Char} (h : c.isDigit = false) (s : List Char) : Stops (c :: s) := by
  rintro _ ⟨⟩
  exact h

theorem digit_range {c : Char} (h : c.isDigit = true) : 48 ≤ c.toNat ∧ c.toNat ≤ 57 := by
  simpa [Char.isDigit, UInt32.le_iff_toNat_le] using h

/-! ### White space -/

theorem isBlank_of_isDigit {c : Char} (h : c.isDigit = true) : isBlank c = false := by
  have range := digit_range h
  simp only [isBlank, blankRanges, List.any_cons, List.any_nil, Bool.or_false,
    Bool.or_eq_false_iff, Bool.and_eq_false_iff, decide_eq_false_iff_not]
  omega

theorem skipBlank_cons {c : Char} (h : isBlank c = false) (s : List Char) :
    skipBlank (c :: s) = c :: s := by
  rw [skipBlank, List.dropWhile_cons_of_neg (by simp [h])]

theorem skipBlank_eq_self {s : List Char} (first : ∀ c ∈ s.head?, isBlank c = false) :
    skipBlank s = s := by
  cases s with
  | nil => rfl
  | cons c s => exact skipBlank_cons (first c rfl) s

theorem skipBlank_append {before : List Char} (blank : ∀ c ∈ before, isBlank c = true)
    (s : List Char) : skipBlank (before ++ s) = skipBlank s :=
  List.dropWhile_append_of_pos blank

/-- Trimming takes away the white space around a text that neither starts nor ends with some. -/
theorem trim_around {before s after : List Char} (before_blank : ∀ c ∈ before, isBlank c = true)
    (after_blank : ∀ c ∈ after, isBlank c = true) (first : ∀ c ∈ s.head?, isBlank c = false)
    (last : ∀ c ∈ s.getLast?, isBlank c = false) : trim (before ++ s ++ after) = s := by
  have back : ∀ c ∈ s.reverse.head?, isBlank c = false := by
    rw [List.head?_reverse]
    exact last
  have reversed : ∀ c ∈ after.reverse, isBlank c = true := fun c mem =>
    after_blank c (List.mem_reverse.mp mem)
  have front : skipBlank (before ++ s ++ after) = if s = [] then [] else s ++ after := by
    rw [List.append_assoc, skipBlank_append before_blank]
    cases s with
    | nil =>
      have nothing := skipBlank_append after_blank []
      rw [List.append_nil] at nothing
      exact nothing
    | cons c s => exact skipBlank_cons (first c rfl) _
  rw [trim, front]
  split
  · next empty => exact empty.symm
  · rw [List.reverse_append, skipBlank_append reversed, skipBlank_eq_self back, List.reverse_reverse]

theorem trim_eq_self {s : List Char} (first : ∀ c ∈ s.head?, isBlank c = false)
    (last : ∀ c ∈ s.getLast?, isBlank c = false) : trim s = s := by
  have around := trim_around (List.forall_mem_nil _) (List.forall_mem_nil _) first last
  rwa [List.append_nil] at around

namespace Numeral

/-! ### Padded numerals -/

variable {width n : Nat}

theorem isDigit_of_mem_padded {c : Char} (h : c ∈ padded width n) : c.isDigit = true := by
  rcases List.mem_append.mp h with zero | digit
  · rw [List.eq_of_mem_replicate zero]
    rfl
  · exact isDigit_of_mem_digits digit

theorem padded_ne_nil (width n : Nat) : padded width n ≠ [] :=
  List.append_ne_nil_of_right_ne_nil _ Nat.toDigits_ne_nil

@[simp] theorem value_padded : value (padded width n) = n := by
  rw [value, padded, Nat.ofDigitChars_append, Nat.ofDigitChars_replicate_zero, Nat.mul_zero]
  exact value_digits n

theorem length_padded (positive : 0 < width) (fits : n < tenTo width) :
    (padded width n).length = width := by
  have enough : (digits n).length ≤ width :=
    (Nat.length_toDigits_le_iff (by decide) positive).mpr fits
  rw [padded, List.length_append, List.length_replicate]
  omega

theorem padded_cons (width n : Nat) :
    ∃ c s, padded width n = c :: s ∧ c.isDigit = true := by
  obtain ⟨c, s, text⟩ := List.exists_cons_of_ne_nil (padded_ne_nil width n)
  exact ⟨c, s, text, isDigit_of_mem_padded (text ▸ List.mem_cons_self)⟩

/-- A run of digits denotes less than the power of ten with as many zeros. -/
theorem value_lt {ds : List Char} (all : ∀ c ∈ ds, c.isDigit = true) :
    value ds < tenTo ds.length := by
  induction ds with
  | nil => decide
  | cons c ds ih =>
    have rest : value ds < tenTo ds.length := ih fun d mem => all d (List.mem_cons_of_mem _ mem)
    have digit := digit_range (all c List.mem_cons_self)
    have leading : value (c :: ds) = tenTo ds.length * (c.toNat - 48) + value ds := by
      rw [value, Nat.ofDigitChars_cons, Nat.ofDigitChars_eq_ofDigitChars_zero]
      simp [value, tenTo]
    have more : tenTo (c :: ds).length = 10 * tenTo ds.length := Nat.pow_succ'
    have first : tenTo ds.length * (c.toNat - 48) ≤ tenTo ds.length * 9 :=
      Nat.mul_le_mul_left _ (by omega)
    rw [leading, more]
    omega

end Numeral

end RecordQuery.Text
