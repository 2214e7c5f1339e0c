import RecordQuery.Proofs.Text.Lexer
import RecordQuery.Value.Literal

/-!
# Literals are lexemes

The text of a finite value is one lexeme: a quoted string, a word, or a numeral. No operator admits a
value that is not finite.
-/

namespace RecordQuery

open Text (IsNumeral IsWord Ends lexeme? partOfNumeral)

/-! ### Dates and instants -/

theorem Calendar.yearText_numeral (year : Int) : IsNumeral (Calendar.yearText year) := by
  rw [Calendar.yearText]
  split
  · exact .padded _ _
  · split
    · exact .cons rfl (IsNumeral.padded _ _).parts
    · exact .cons rfl (IsNumeral.padded _ _).parts

theorem Date.text_numeral (d : Date) : IsNumeral d.text := by
  have month := (IsNumeral.cons (c := '-') rfl (IsNumeral.padded 2 d.month).parts).parts
  have day := (IsNumeral.cons (c := '-') rfl (IsNumeral.padded 2 d.day).parts).parts
  exact ((Calendar.yearText_numeral d.year).append month).append day

theorem Calendar.fractionText_parts (nano : Nat) :
    ∀ c ∈ Calendar.fractionText nano, partOfNumeral c = true := by
  have fraction (width n : Nat) :
      ∀ c ∈ '.' :: Text.Numeral.padded width n, partOfNumeral c = true :=
    List.forall_mem_cons.mpr ⟨rfl, (IsNumeral.padded width n).parts⟩
  rw [Calendar.fractionText]
  split
  · exact List.forall_mem_nil _
  · split
    · exact fraction 3 _
    · split
      · exact fraction 6 _
      · exact fraction 9 _

theorem Clock.text_parts (c : Clock) : ∀ x ∈ c.text, partOfNumeral x = true := by
  have two (n : Nat) : ∀ x ∈ Text.Numeral.padded 2 n, partOfNumeral x = true :=
    (IsNumeral.padded 2 n).parts
  have colon (n : Nat) : ∀ x ∈ ':' :: Text.Numeral.padded 2 n, partOfNumeral x = true :=
    List.forall_mem_cons.mpr ⟨rfl, two n⟩
  have clock := List.forall_mem_append.mpr ⟨List.forall_mem_append.mpr
    ⟨List.forall_mem_append.mpr ⟨two c.face.1, colon c.face.2.1⟩, colon c.face.2.2.1⟩,
    Calendar.fractionText_parts c.face.2.2.2⟩
  exact clock

theorem Instant.text_numeral (t : Instant) : IsNumeral t.text := by
  have time : ∀ c ∈ 'T' :: t.clock.text, partOfNumeral c = true :=
    List.forall_mem_cons.mpr ⟨rfl, t.clock.text_parts⟩
  have offset : ∀ c ∈ ['+', '0', '0', ':', '0', '0'], partOfNumeral c = true :=
    List.all_eq_true.mp rfl
  exact (t.date.text_numeral.append time).append offset

/-! ### Floats -/

namespace Decimal

theorem digits_ofCoefficient (coefficient : Nat) (exponent : Int) :
    ∀ c ∈ (ofCoefficient coefficient exponent).digits, c.isDigit = true := by
  intro c mem
  have inside : c ∈ (Text.Numeral.digits coefficient).reverse :=
    (List.dropWhile_suffix _).mem (List.mem_reverse.mp mem)
  exact Text.Numeral.isDigit_of_mem_digits (List.mem_reverse.mp inside)

/-- The shortest decimal is made of digits. -/
theorem digits_shortest (tie : Tie) (code : Nat) :
    ∀ c ∈ (shortest tie code).digits, c.isDigit = true := by
  simp only [shortest]
  generalize found : (List.range' 1 17).findSome? _ = result
  cases result with
  | none => exact digits_ofCoefficient _ _
  | some d =>
    obtain ⟨count, _, tried⟩ := List.exists_of_findSome?_eq_some found
    obtain ⟨coefficient, _, rfl⟩ := Option.map_eq_some_iff.mp tried
    exact digits_ofCoefficient _ _

theorem isDigit_of_mem_zeros {n : Nat} : ∀ c ∈ zeros n, c.isDigit = true := by
  intro c mem
  rw [List.eq_of_mem_replicate mem]
  rfl

theorem positional_numeral {d : Decimal} (digits : ∀ c ∈ d.digits, c.isDigit = true) :
    IsNumeral d.positional := by
  have parts {l : List Char} (all : ∀ c ∈ l, c.isDigit = true) :
      ∀ c ∈ l, partOfNumeral c = true := fun c mem => IsNumeral.part_of_isDigit (all c mem)
  rw [positional]
  split
  · have zero : IsNumeral ('0' :: '.' :: zeros (-d.point).toNat) :=
      .cons rfl (List.forall_mem_cons.mpr ⟨rfl, parts isDigit_of_mem_zeros⟩)
    exact zero.append (parts digits)
  · next positive =>
    simp only
    split
    · next inside =>
      refine .append (.of_digits ?_ fun c mem => digits c (List.mem_of_mem_take mem)) ?_
      · apply List.ne_nil_of_length_pos
        rw [List.length_take]
        omega
      · exact List.forall_mem_cons.mpr ⟨rfl, parts fun c mem => digits c (List.mem_of_mem_drop mem)⟩
    · next outside =>
      refine .append (.of_digits ?_ ?_) (List.all_eq_true.mp rfl)
      · apply List.ne_nil_of_length_pos
        rw [List.length_append, zeros, List.length_replicate]
        omega
      · exact List.forall_mem_append.mpr ⟨digits, isDigit_of_mem_zeros⟩

end Decimal

theorem Binary64.plainText_numeral (code : Nat) : IsNumeral (Binary64.plainText code) := by
  rw [Binary64.plainText]
  split
  · exact (IsNumeral.digits _).append (List.all_eq_true.mp rfl)
  · exact Decimal.positional_numeral (Decimal.digits_shortest .up code)

/-! ### Values -/

namespace Value

/-- Not a float beyond all numbers. -/
def Finite (v : Value) : Prop := ∀ x : Binary64, v = .float x → x.isFinite = true

/-- A value that an operator admits is finite. -/
theorem finite_of_accepts {k : Kind} {v : Value} (h : k.accepts v = true) : v.Finite := by
  rintro x rfl
  cases k with
  | float => exact h
  | _ => cases h

theorem lexeme?_literal {v : Value} (finite : v.Finite) {t : List Char}
    (ends : ∀ c ∈ t.head?, c = ' ' ∨ c = ')' ∨ c = ',') :
    lexeme? (v.literalText ++ t) = some (v.literalText, t) := by
  have apart : Ends t := fun c mem => by
    rcases ends c mem with same | same | same
    · exact .inl same
    · exact .inr (.inl same)
    · exact .inr (.inr (.inl same))
  have stops : ∀ c ∈ t.head?, partOfNumeral c = false := fun c mem => by
    rcases ends c mem with rfl | rfl | rfl <;> rfl
  cases v with
  | null => exact Text.lexeme?_word (by decide) apart
  | string s => exact Text.lexeme?_quote _ t
  | boolean b =>
    cases b with
    | true => exact Text.lexeme?_word (by decide) apart
    | false => exact Text.lexeme?_word (by decide) apart
  | integer n => exact Text.lexeme?_numeral (.signed _) stops
  | float x =>
    cases x with
    | nan => cases finite _ rfl
    | infinite negative => cases finite _ rfl
    | finite negative code =>
      exact Text.lexeme?_numeral (.signs negative (Binary64.plainText_numeral code)) stops
  | date d => exact Text.lexeme?_numeral d.text_numeral stops
  | datetime i => exact Text.lexeme?_numeral i.text_numeral stops

end Value

end RecordQuery
