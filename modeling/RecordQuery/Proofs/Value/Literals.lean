import RecordQuery.Proofs.Binary64.Conversions
import RecordQuery.Proofs.Calendar.Forms
import RecordQuery.Proofs.Text.Decimals
import RecordQuery.Proofs.Text.Literals

/-!
# Literals identify their values

Which kind of value a literal is of can be seen from its first character, from a T, from a hyphen
behind the first character and from a point. Within a kind other than the floats two values have the
same literal only if it shows them alike, and then they are the same or just one of them is legible.
A float has a point with digits on both sides, and no exponent.
-/

namespace RecordQuery

open Text.Numeral

/-! ### Floats -/

/-- One digit or more, and nothing else. -/
def Text.Digits (s : List Char) : Prop := s ≠ [] ∧ ∀ c ∈ s, c.isDigit = true

/-- Digits on both sides of a point. -/
inductive Text.PlainDecimal : List Char → Prop
  | mk {whole fraction : List Char} (before : Digits whole) (behind : Digits fraction) :
      PlainDecimal (whole ++ '.' :: fraction)

open Text (Digits PlainDecimal)

namespace Decimal

variable {coefficient code : Nat} {exponent : Int} {tie : Tie}

/-- A number that is not zero has a digit that is not zero. -/
theorem digits_ofCoefficient_ne_nil (positive : coefficient ≠ 0) (exponent : Int) :
    (ofCoefficient coefficient exponent).digits ≠ [] := by
  intro empty
  have zeros : ∀ c ∈ Text.Numeral.digits coefficient, c = '0' := by
    rw [ofCoefficient, List.reverse_eq_nil_iff, List.dropWhile_eq_nil_iff] at empty
    intro c mem
    exact beq_iff_eq.mp (empty c (List.mem_reverse.mpr mem))
  have zero : value (Text.Numeral.digits coefficient) = 0 := by
    rw [List.eq_replicate_of_mem zeros, value, Nat.ofDigitChars_replicate_zero, Nat.mul_zero]
  rw [value_digits] at zero
  exact positive zero

/-- Zero reads back to zero and to no other magnitude. -/
theorem readsBack_zero (finite : code < Binary64.limit) (back : readsBack code 0 exponent = true) :
    code = 0 := by
  have same : Binary64.ofMagnitude false 0 = Binary64.ofMagnitude false code := by
    have zero : Binary64.ofDecimal false 0 exponent = Binary64.ofMagnitude false 0 := by
      simp [Binary64.ofDecimal]
    rw [readsBack, zero] at back
    exact beq_iff_eq.mp back
  simp only [Binary64.ofMagnitude, finite, dite_true] at same
  simpa using same.symm

theorem onGrid?_ne_zero (finite : code < Binary64.limit) (positive : code ≠ 0)
    (found : onGrid? tie code exponent = some coefficient) : coefficient ≠ 0 := by
  have low {n : Nat} (back : readsBack code n exponent = true) : n ≠ 0 := by
    rintro rfl
    exact positive (readsBack_zero finite back)
  simp only [onGrid?] at found
  split at found
  · next back _ =>
    have first := low back
    split at found
    · cases found
      exact first
    · cases found
      exact Nat.succ_ne_zero _
    · cases found
      cases tie with
      | up => exact Nat.succ_ne_zero _
      | toEven => exact Nat.ne_of_gt (Nat.lt_add_right _ (Nat.pos_of_ne_zero first))
  · next back _ =>
    cases found
    exact low back
  · cases found
    exact Nat.succ_ne_zero _
  · cases found

/-- With as many decimal places as it has binary ones, every magnitude is a whole number. -/
theorem one_le_tenTo (format : FloatFormat) : format.one ≤ tenTo format.unitExponent :=
  Nat.pow_le_pow_left (by decide) _

theorem digits_shortest_ne_nil (finite : code < Binary64.limit) (positive : code ≠ 0) :
    (shortest tie code).digits ≠ [] := by
  simp only [shortest]
  generalize found : (List.range' 1 17).findSome? _ = result
  cases result with
  | none =>
    apply digits_ofCoefficient_ne_nil
    have units : 0 < Binary64.units code := by
      have above := FloatFormat.double.units_strictMono (Nat.pos_of_ne_zero positive)
      exact Nat.lt_of_le_of_lt (Nat.zero_le _) above
    have wide : Binary64.one ≤ tenTo 1074 := one_le_tenTo FloatFormat.double
    have above : Binary64.one ≤ Binary64.units code * tenTo 1074 :=
      Nat.le_trans wide (Nat.le_mul_of_pos_left _ units)
    exact Nat.ne_of_gt (Nat.div_pos above Binary64.one_pos)
  | some d =>
    obtain ⟨count, _, tried⟩ := List.exists_of_findSome?_eq_some found
    obtain ⟨coefficient, grid, rfl⟩ := Option.map_eq_some_iff.mp tried
    exact digits_ofCoefficient_ne_nil (onGrid?_ne_zero finite positive grid) _

/-- Positional text has the point inside the digits, or zeros fill up the side without any. -/
theorem positional_plain {d : Decimal} (digits : Digits d.digits) : PlainDecimal d.positional := by
  obtain ⟨filled, all⟩ := digits
  have zero : Digits ['0'] := ⟨List.cons_ne_nil _ _, List.forall_mem_singleton.mpr rfl⟩
  rw [positional]
  split
  · have behind : Digits (zeros (-d.point).toNat ++ d.digits) :=
      ⟨List.append_ne_nil_of_right_ne_nil _ filled,
        List.forall_mem_append.mpr ⟨isDigit_of_mem_zeros, all⟩⟩
    exact .mk zero behind
  · next positive =>
    simp only
    split
    · next inside =>
      refine .mk ⟨?_, fun c mem => all c (List.mem_of_mem_take mem)⟩
        ⟨?_, fun c mem => all c (List.mem_of_mem_drop mem)⟩
      · apply List.ne_nil_of_length_pos
        rw [List.length_take]
        omega
      · apply List.ne_nil_of_length_pos
        rw [List.length_drop]
        omega
    · refine .mk ⟨List.append_ne_nil_of_left_ne_nil filled _, ?_⟩ zero
      exact List.forall_mem_append.mpr ⟨all, isDigit_of_mem_zeros⟩

end Decimal

theorem Binary64.plainText_plain {code : Nat} (finite : code < limit) :
    PlainDecimal (plainText code) := by
  rw [plainText]
  split
  · have zero : Digits ['0'] := ⟨List.cons_ne_nil _ _, List.forall_mem_singleton.mpr rfl⟩
    exact .mk ⟨Nat.toDigits_ne_nil, fun _ => isDigit_of_mem_digits⟩ zero
  · next broken =>
    apply Decimal.positional_plain
    refine ⟨Decimal.digits_shortest_ne_nil finite ?_, Decimal.digits_shortest .up code⟩
    rintro rfl
    rw [units_zero, Nat.zero_mod] at broken
    exact broken rfl

/-! ### The kind of a literal -/

/-- The kind of the values with a literal like this. The quote of a string and the first letters of
the words come first, as a string may hold any character. -/
def Text.kindOf? (s : List Char) : Option Kind :=
  match s.head? with
  | some '\'' => some .string
  | some 'N' => none
  | some 't' => some .boolean
  | some 'f' => some .boolean
  | _ =>
    if 'T' ∈ s then some .datetime
    else if '-' ∈ s.tail then some .date
    else if '.' ∈ s then some .float
    else some .integer

namespace Text

variable {s t : List Char}

/-- A numeral is told from the others by its marks. -/
theorem kindOf?_numeral (numeral : IsNumeral s) : kindOf? s =
    if 'T' ∈ s then some .datetime else if '-' ∈ s.tail then some .date
    else if '.' ∈ s then some .float else some .integer := by
  obtain ⟨⟨c, first, start⟩, _⟩ := numeral
  rw [kindOf?, Option.mem_def.mp first]
  split
  · next same =>
    cases same
    cases start
  · next same =>
    cases same
    cases start
  · next same =>
    cases same
    cases start
  · next same =>
    cases same
    cases start
  · rfl

/-- A hyphen that only stands in front is a minus sign. -/
theorem kindOf?_signs (negative : Bool) (numeral : IsNumeral s)
    (plain : ∀ c ∈ s, c.isDigit = true ∨ c = '.') :
    kindOf? (sign negative ++ s) = if '.' ∈ s then some .float else some .integer := by
  have no_letter : 'T' ∉ s := fun mem => absurd (plain 'T' mem) (by decide)
  have no_hyphen : '-' ∉ s := fun mem => absurd (plain '-' mem) (by decide)
  rw [kindOf?_numeral (.signs negative numeral)]
  cases negative with
  | true => simp [sign, no_letter, no_hyphen]
  | false =>
    have behind : '-' ∉ s.tail := fun mem => no_hyphen (List.mem_of_mem_tail mem)
    simp [sign, no_letter, behind]

end Text

theorem Text.startsNumeral_padded (width n : Nat) :
    ∀ c ∈ padded width n, startsNumeral c = true := by
  intro c mem
  rw [startsNumeral, isDigit_of_mem_padded mem]
  rfl

theorem Calendar.yearText_marks (year : Int) :
    ∀ c ∈ yearText year, Text.startsNumeral c = true := by
  rw [yearText]
  split
  · exact Text.startsNumeral_padded _ _
  · refine List.forall_mem_cons.mpr ⟨?_, Text.startsNumeral_padded _ _⟩
    split <;> rfl

namespace Date

/-- A date is made of digits, hyphens and a sign. -/
theorem text_marks (d : Date) : ∀ c ∈ d.text, Text.startsNumeral c = true := by
  have part (n : Nat) : ∀ c ∈ '-' :: padded 2 n, Text.startsNumeral c = true :=
    List.forall_mem_cons.mpr ⟨rfl, Text.startsNumeral_padded 2 n⟩
  exact List.forall_mem_append.mpr
    ⟨List.forall_mem_append.mpr ⟨Calendar.yearText_marks d.year, part d.month⟩, part d.day⟩

/-- A hyphen follows the year, which is never empty. -/
theorem hyphen_mem_tail (d : Date) : '-' ∈ d.text.tail := by
  obtain ⟨c, s, year, _⟩ := Calendar.yearText_cons d.year
  rw [text, year]
  simp

end Date

theorem Instant.letter_mem (t : Instant) : 'T' ∈ t.text := by
  simp [text]

namespace Value

variable {v w : Value}

theorem kindOf?_literalText (finite : v.Finite) : Text.kindOf? v.literalText = v.kind? := by
  cases v with
  | null => rfl
  | string s => rfl
  | boolean b => cases b <;> rfl
  | integer n =>
    have all : ∀ c ∈ digits n.toInt.natAbs, c.isDigit = true := fun _ => isDigit_of_mem_digits
    have no_point : '.' ∉ digits n.toInt.natAbs := fun mem => absurd (all '.' mem) (by decide)
    rw [literalText, signed, Text.kindOf?_signs _ (.digits _) fun c mem => .inl (all c mem),
      if_neg no_point]
    rfl
  | float x =>
    cases x with
    | nan => cases finite _ rfl
    | infinite negative => cases finite _ rfl
    | finite negative code =>
      have numeral := Binary64.plainText_numeral code
      rw [literalText, Binary64.literalText]
      generalize text : Binary64.plainText code = s at numeral
      cases text ▸ Binary64.plainText_plain code.isLt with
      | @mk whole fraction before behind =>
        have point : '.' ∈ whole ++ '.' :: fraction :=
          List.mem_append_right _ List.mem_cons_self
        rw [Text.kindOf?_signs negative numeral ?_, if_pos point]
        · rfl
        · intro c mem
          rcases List.mem_append.mp mem with mem | mem
          · exact .inl (before.2 c mem)
          · rcases List.mem_cons.mp mem with same | mem
            · exact .inr same
            · exact .inl (behind.2 c mem)
  | date d =>
    have no_letter : 'T' ∉ d.text := fun mem => absurd (d.text_marks 'T' mem) (by decide)
    rw [literalText, Text.kindOf?_numeral d.text_numeral, if_neg no_letter,
      if_pos d.hyphen_mem_tail]
    rfl
  | datetime t =>
    rw [literalText, Text.kindOf?_numeral t.text_numeral, if_pos t.letter_mem]
    rfl

/-! ### The value of a literal -/

/-- Null, or a value that some kind takes as it is. -/
def Written (v : Value) : Prop := v = .null ∨ ∃ k : Kind, k.accepts v = true

theorem Written.finite (written : v.Written) : v.Finite := by
  rcases written with rfl | ⟨k, taken⟩
  · nofun
  · exact finite_of_accepts taken

theorem shown_eq_of_literalText (kind : v.kind? = w.kind?) (precise : v.kind? ≠ some .float)
    (same : v.literalText = w.literalText) : v.shown = w.shown := by
  cases v with
  | null =>
    cases w with
    | null => rfl
    | _ => cases kind
  | string s =>
    cases w with
    | string t => exact congrArg string (String.toList_injective (Text.Quoted.quote_injective same))
    | _ => cases kind
  | boolean b =>
    cases w with
    | boolean c => cases b <;> cases c <;> first | rfl | cases same
    | _ => cases kind
  | integer n =>
    cases w with
    | integer m => exact congrArg integer (Int64.toInt_inj.mp (signed_injective same))
    | _ => cases kind
  | float x => exact absurd rfl precise
  | date d =>
    cases w with
    | date e =>
      have read := d.read?_text
      have texts : d.text = e.text := same
      rw [texts, e.read?_text] at read
      exact congrArg date (Option.some.inj read).symm
    | _ => cases kind
  | datetime t =>
    cases w with
    | datetime u =>
      have read := t.read?_text
      have texts : t.text = u.text := same
      rw [texts, u.read?_text] at read
      exact congrArg datetime (Option.some.inj read).symm
    | _ => cases kind

theorem literal_eq_of_shown_eq (same : v.shown = w.shown) : v.literal = w.literal := by
  rw [literal, ← v.literalText_shown, same, literalText_shown, literal]

end Value

end RecordQuery
