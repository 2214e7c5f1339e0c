/-!
# Decimal numerals

Numbers written in ASCII digits: their digits, zero padding, and the reading of a signed
numeral of 64 bits.
-/

namespace RecordQuery.Text.Numeral

def digits (n : Nat) : List Char := Nat.toDigits 10 n

/-- The number that a run of digits denotes, zero for the empty run. -/
def value (s : List Char) : Nat := Nat.ofDigitChars 10 s 0

def tenTo (n : Nat) : Nat := Nat.pow 10 n

@[simp] theorem value_digits (n : Nat) : value (digits n) = n :=
  Nat.ofDigitChars_toDigits (by decide) (by decide)

theorem isDigit_of_mem_digits {n : Nat} {c : Char} (h : c ∈ digits n) : c.isDigit = true :=
  Nat.isDigit_of_mem_toDigits (by decide) (by decide) h

/-- The digits of `n` with zeros in front, at least `width` of them. -/
def padded (width n : Nat) : List Char :=
  List.replicate (width - (digits n).length) '0' ++ digits n

def sign (negative : Bool) : List Char := if negative then ['-'] else []

def signed (n : Int) : List Char := sign (decide (n < 0)) ++ digits n.natAbs

/-- Splits off one leading sign; the flag tells a minus. -/
def splitSign : List Char → Bool × List Char
  | '-' :: rest => (true, rest)
  | '+' :: rest => (false, rest)
  | s => (false, s)

/-- The number under an optional sign and one or more digits. -/
def readSigned? (s : List Char) : Option Int :=
  let (negative, body) := splitSign s
  if body = [] || !body.all Char.isDigit then none
  else some (if negative then -(value body : Int) else value body)

/-- The integers of 64 bits, two's complement. -/
def InRange (n : Int) : Prop := -9223372036854775808 ≤ n ∧ n ≤ 9223372036854775807

instance (n : Int) : Decidable (InRange n) := inferInstanceAs (Decidable (_ ∧ _))

def narrow? (n : Int) : Option Int64 := if InRange n then some (Int64.ofInt n) else none

@[simp] theorem narrow_toInt (n : Int64) : narrow? n.toInt = some n := by
  have lower := Int64.le_toInt n
  have upper := Int64.toInt_lt n
  have range : InRange n.toInt := ⟨by omega, by omega⟩
  simp [narrow?, range]

theorem toInt_of_narrow {n : Int} {m : Int64} (h : narrow? n = some m) : m.toInt = n := by
  unfold narrow? at h
  split at h
  · next range =>
    cases h
    obtain ⟨lower, upper⟩ := range
    exact Int64.toInt_ofInt_of_le (by omega) (by omega)
  · cases h

def readInt64? (s : List Char) : Option Int64 := (readSigned? s).bind narrow?

end RecordQuery.Text.Numeral
