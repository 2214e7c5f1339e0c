import Mathlib.Algebra.Field.Rat
import Mathlib.Data.List.TakeWhile
import Mathlib.Tactic.FieldSimp
import Mathlib.Tactic.NormNum
import Mathlib.Tactic.Ring
import RecordQuery.Binary64.Reading
import RecordQuery.Proofs.Text.Digits

/-!
# Decimal numerals

What a decimal numeral looks like and which number it denotes: an optional sign, digits with an
optional point among them, and an optional exponent. The reader finds these parts in every such
text, and there is one way to find them.
-/

namespace RecordQuery.Text.Numeral

variable {s : List Char} {n : Int}

/-- A sign that may be left out; the flag tells a minus. -/
inductive SignText : Bool → List Char → Prop
  | none : SignText false []
  | plus : SignText false ['+']
  | minus : SignText true ['-']

/-- Digits under a sign, as integers are written. -/
inductive IntegerText : List Char → Int → Prop
  | mk {negative : Bool} {sign ds : List Char} (signed : SignText negative sign)
      (all : ∀ c ∈ ds, c.isDigit = true) (filled : ds ≠ []) :
      IntegerText (sign ++ ds) (if negative then -value ds else value ds)

/-- The digits behind a point that may be left out. -/
inductive PointText : List Char → List Char → Prop
  | none : PointText [] []
  | digits {ds : List Char} (all : ∀ c ∈ ds, c.isDigit = true) : PointText ('.' :: ds) ds

/-- The power of ten behind a letter E, zero if it is left out. -/
inductive ExponentText : List Char → Int → Prop
  | none : ExponentText [] 0
  | marked {c : Char} {text : List Char} {n : Int} (mark : c = 'e' ∨ c = 'E')
      (exponent : IntegerText text n) : ExponentText (c :: text) n

/-- What a decimal numeral says. -/
structure Parts where
  negative : Bool
  whole : List Char
  fraction : List Char
  exponent : Int
deriving DecidableEq

/-- The texts of a decimal numeral. -/
inductive Parts.Spells (p : Parts) : List Char → Prop
  | mk {sign point last : List Char} (signed : SignText p.negative sign)
      (whole : ∀ c ∈ p.whole, c.isDigit = true) (fraction : PointText point p.fraction)
      (filled : p.whole ++ p.fraction ≠ []) (exponent : ExponentText last p.exponent) :
      p.Spells (sign ++ (p.whole ++ (point ++ last)))

/-- The number that a decimal numeral denotes without its sign. -/
def Parts.magnitude (p : Parts) : ℚ :=
  (value p.whole + value p.fraction / 10 ^ p.fraction.length) * 10 ^ p.exponent

def Parts.number (p : Parts) : ℚ := if p.negative then -p.magnitude else p.magnitude

/-- The text is a decimal numeral of the number. -/
def Denotes (s : List Char) (q : ℚ) : Prop := ∃ p : Parts, p.Spells s ∧ p.number = q

/-! ### Signs and integers -/

/-- Text that starts with neither sign. -/
def Unsigned (s : List Char) : Prop := ∀ c ∈ s.head?, c ≠ '-' ∧ c ≠ '+'

theorem unsigned_of_head {c : Char} (starts : c.isDigit = true ∨ c = '.') (rest : List Char) :
    Unsigned (c :: rest) := by
  rintro _ ⟨⟩
  rcases starts with digit | rfl
  · constructor <;> rintro rfl <;> cases digit
  · decide

theorem splitSign_append {negative : Bool} {sign : List Char} (signed : SignText negative sign)
    (unsigned : Unsigned s) : splitSign (sign ++ s) = (negative, s) := by
  cases signed with
  | none =>
    rw [List.nil_append]
    unfold splitSign
    split
    · exact absurd rfl (unsigned '-' rfl).1
    · exact absurd rfl (unsigned '+' rfl).2
    · rfl
  | plus => rfl
  | minus => rfl

theorem exists_signText (s : List Char) :
    ∃ sign, SignText (splitSign s).1 sign ∧ s = sign ++ (splitSign s).2 := by
  unfold splitSign
  split
  · exact ⟨_, .minus, rfl⟩
  · exact ⟨_, .plus, rfl⟩
  · exact ⟨_, .none, rfl⟩

theorem readSigned?_eq_some : readSigned? s = some n ↔ IntegerText s n := by
  constructor
  · intro read
    obtain ⟨sign, signed, text⟩ := exists_signText s
    simp only [readSigned?, Option.ite_none_left_eq_some, Bool.or_eq_true, decide_eq_true_eq,
      not_or, Bool.not_eq_true, Bool.not_eq_false', Option.some.injEq] at read
    obtain ⟨⟨filled, all⟩, number⟩ := read
    rw [text, ← number]
    exact .mk signed (List.all_eq_true.mp all) filled
  · rintro ⟨signed, all, filled⟩
    next negative sign ds =>
    have unsigned : Unsigned ds := by
      obtain ⟨c, rest, rfl⟩ := List.exists_cons_of_ne_nil filled
      exact unsigned_of_head (.inl (all c List.mem_cons_self)) rest
    have digits : ds.all Char.isDigit = true := List.all_eq_true.mpr all
    simp only [readSigned?, splitSign_append signed unsigned, filled, digits, decide_false,
      Bool.not_true, Bool.or_self, Bool.false_eq_true, if_false]

/-- An integer is written as one. -/
theorem integerText_signed (n : Int) : IntegerText (signed n) n := by
  have text (negative : Bool) : SignText negative (sign negative) := by
    cases negative with
    | false => exact .none
    | true => exact .minus
  have written := IntegerText.mk (text (decide (n < 0)))
    (fun _ => isDigit_of_mem_digits (n := n.natAbs)) Nat.toDigits_ne_nil
  rw [value_digits] at written
  have number : (if decide (n < 0) = true then -(n.natAbs : Int) else n.natAbs) = n := by
    by_cases below : n < 0
    · simp only [below, decide_true, if_true]
      omega
    · simp only [below, decide_false, Bool.false_eq_true, if_false]
      omega
  rwa [number] at written

theorem signed_injective {n m : Int} (same : signed n = signed m) : n = m := by
  have read := readSigned?_eq_some.mpr (integerText_signed n)
  rw [same, readSigned?_eq_some.mpr (integerText_signed m)] at read
  exact (Option.some.inj read).symm

/-! ### Decimals -/

theorem readExponent?_eq_some : Binary64.readExponent? s = some n ↔ ExponentText s n := by
  constructor
  · intro read
    cases s with
    | nil =>
      cases read
      exact .none
    | cons c rest =>
      rw [Binary64.readExponent?, Option.ite_none_right_eq_some, readSigned?_eq_some] at read
      exact .marked read.1 read.2
  · rintro (_ | ⟨mark, exponent⟩)
    · rfl
    · rw [Binary64.readExponent?, if_pos mark]
      exact readSigned?_eq_some.mpr exponent

theorem ExponentText.stops (exponent : ExponentText s n) : Stops s := by
  cases exponent with
  | none => exact stops_nil
  | marked mark _ => rcases mark with rfl | rfl <;> exact stops_cons (by decide) _

/-- The digits behind a point and what follows them. -/
def splitPoint : List Char → List Char × List Char
  | '.' :: tail => (tail.takeWhile Char.isDigit, tail.dropWhile Char.isDigit)
  | s => ([], s)

/-- The parts that the reader of floating point numerals finds. -/
def parts? (s : List Char) : Option Parts :=
  let (negative, body) := splitSign s
  let whole := body.takeWhile Char.isDigit
  let (fraction, rest) := splitPoint (body.dropWhile Char.isDigit)
  if whole ++ fraction = [] then none
  else (Binary64.readExponent? rest).map (⟨negative, whole, fraction, ·⟩)

theorem splitPoint_bare (bare : ∀ tail, s = '.' :: tail → False) : splitPoint s = ([], s) := by
  unfold splitPoint
  split
  · exact (bare _ rfl).elim
  · rfl

theorem splitPoint_append {point fraction last : List Char} (digits : PointText point fraction)
    (stops : Stops last) (bare : last.head? ≠ some '.') :
    splitPoint (point ++ last) = (fraction, last) := by
  cases digits with
  | none =>
    refine splitPoint_bare fun tail text => bare ?_
    rw [← List.nil_append last, text]
    rfl
  | digits all =>
    obtain ⟨run, behind⟩ := takeWhile_run all stops
    rw [List.cons_append, splitPoint, run, behind]

theorem exists_pointText (s : List Char) :
    ∃ point, PointText point (splitPoint s).1 ∧ s = point ++ (splitPoint s).2 := by
  unfold splitPoint
  split
  · next tail =>
    have all : ∀ c ∈ tail.takeWhile Char.isDigit, c.isDigit = true := fun _ => List.mem_takeWhile_imp
    refine ⟨_, .digits all, ?_⟩
    rw [List.cons_append, List.takeWhile_append_dropWhile]
  · exact ⟨_, .none, rfl⟩

theorem PointText.stops {point fraction last : List Char} (digits : PointText point fraction)
    (stops : Stops last) : Stops (point ++ last) := by
  cases digits with
  | none => exact stops
  | digits _ => exact stops_cons (by decide) _

theorem ExponentText.bare (exponent : ExponentText s n) : s.head? ≠ some '.' := by
  cases exponent with
  | none => nofun
  | marked mark _ => rcases mark with rfl | rfl <;> nofun

/-- Behind its sign a numeral starts with a digit or with the point. -/
theorem exists_head {whole point fraction : List Char} (all : ∀ c ∈ whole, c.isDigit = true)
    (digits : PointText point fraction) (filled : whole ++ fraction ≠ []) (last : List Char) :
    ∃ c rest, whole ++ (point ++ last) = c :: rest ∧ (c.isDigit = true ∨ c = '.') := by
  cases whole with
  | cons c whole => exact ⟨c, _, rfl, .inl (all c List.mem_cons_self)⟩
  | nil =>
    cases digits with
    | none => exact absurd rfl filled
    | digits _ => exact ⟨'.', _, rfl, .inr rfl⟩

theorem unsigned_parts {whole point fraction : List Char} (all : ∀ c ∈ whole, c.isDigit = true)
    (digits : PointText point fraction) (filled : whole ++ fraction ≠ []) (last : List Char) :
    Unsigned (whole ++ (point ++ last)) := by
  obtain ⟨c, rest, text, starts⟩ := exists_head all digits filled last
  rw [text]
  exact unsigned_of_head starts rest

theorem Parts.Spells.splitSign {p : Parts} (spelled : p.Spells s) : ∃ c rest,
    Numeral.splitSign s = (p.negative, c :: rest) ∧ (c.isDigit = true ∨ c = '.') := by
  obtain ⟨signed, whole, fraction, filled, _⟩ := spelled
  next sign point last _ =>
  have split := splitSign_append signed (unsigned_parts whole fraction filled last)
  obtain ⟨c, rest, text, starts⟩ := exists_head whole fraction filled last
  exact ⟨c, rest, text ▸ split, starts⟩

theorem parts?_eq_some {p : Parts} : parts? s = some p ↔ p.Spells s := by
  constructor
  · intro found
    obtain ⟨sign, signed, text⟩ := exists_signText s
    obtain ⟨point, fraction, behind⟩ := exists_pointText ((splitSign s).2.dropWhile Char.isDigit)
    simp only [parts?, Option.ite_none_left_eq_some, Option.map_eq_some_iff,
      readExponent?_eq_some] at found
    obtain ⟨filled, exponent, read, rfl⟩ := found
    have spelled := Parts.Spells.mk (p := ⟨_, _, _, exponent⟩) signed
      (fun _ => List.mem_takeWhile_imp) fraction filled read
    rwa [← behind, List.takeWhile_append_dropWhile, ← text] at spelled
  · rintro ⟨signed, whole, fraction, filled, exponent⟩
    obtain ⟨run, behind⟩ := takeWhile_run whole (fraction.stops exponent.stops)
    simp only [parts?, splitSign_append signed (unsigned_parts whole fraction filled _), run, behind,
      splitPoint_append fraction exponent.stops exponent.bare, filled, if_false,
      readExponent?_eq_some.mpr exponent, Option.map_some]

/-- A text denotes one number at most. -/
theorem Denotes.unique {q r : ℚ} (first : Denotes s q) (second : Denotes s r) : q = r := by
  obtain ⟨p, spelled, rfl⟩ := first
  obtain ⟨p', spelled', rfl⟩ := second
  have same := (parts?_eq_some.mpr spelled).symm.trans (parts?_eq_some.mpr spelled')
  rw [Option.some.inj same]

/-! ### Numbers -/

theorem value_append (s u : List Char) : value (s ++ u) = 10 ^ u.length * value s + value u := by
  rw [value, Nat.ofDigitChars_append, Nat.ofDigitChars_eq_ofDigitChars_zero]
  rfl

/-- All digits in a row are a whole number of the last decimal place. -/
theorem Parts.magnitude_eq (p : Parts) : p.magnitude =
    value (p.whole ++ p.fraction) * 10 ^ (p.exponent - p.fraction.length) := by
  have ten : (10 : ℚ) ≠ 0 := by norm_num
  rw [magnitude, value_append, zpow_sub₀ ten, zpow_natCast]
  push_cast
  field_simp

/-- An integer is a decimal without fraction and exponent. -/
theorem IntegerText.denotes (text : IntegerText s n) : Denotes s n := by
  obtain ⟨signed, all, filled⟩ := text
  next negative sign ds =>
  have spelled : Parts.Spells ⟨negative, ds, [], 0⟩ (sign ++ ds) := by
    have parts := Parts.Spells.mk (p := ⟨negative, ds, [], 0⟩) signed all .none
      (List.append_ne_nil_of_left_ne_nil filled _) .none
    simpa only [List.append_nil] using parts
  refine ⟨_, spelled, ?_⟩
  have nothing : value [] = 0 := rfl
  cases negative <;> simp [Parts.number, Parts.magnitude, nothing]

end RecordQuery.Text.Numeral
