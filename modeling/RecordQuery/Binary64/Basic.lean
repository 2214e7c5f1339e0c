/-!
# Binary floating point numbers

A finite binary64 value is a sign and the number of its magnitude, where the magnitudes are
counted upwards from zero. The next code is the next larger magnitude, so rounding, comparison
and the encoding in bits are arithmetic on natural numbers.
-/

namespace RecordQuery

/-- A binary interchange format with `fractionBits` stored bits of a significand, a least positive
magnitude of two to the power `-unitExponent`, and `exponents` exponent fields of finite values. -/
structure FloatFormat where
  fractionBits : Nat
  unitExponent : Nat
  exponents : Nat

namespace FloatFormat

def double : FloatFormat := ⟨52, 1074, 2047⟩

def single : FloatFormat := ⟨23, 149, 255⟩

variable (format : FloatFormat)

/-- How many magnitudes share an exponent field. -/
def fractions : Nat := Nat.pow 2 format.fractionBits

/-- How many finite magnitudes there are. -/
def magnitudes : Nat := format.exponents * format.fractions

def significand (code : Nat) : Nat :=
  if code < format.fractions then code else format.fractions + code % format.fractions

/-- The magnitude as a multiple of the least positive one. -/
def units (code : Nat) : Nat :=
  format.significand code * Nat.pow 2 (code / format.fractions - 1)

/-- The units that make up the number one. -/
def one : Nat := Nat.pow 2 format.unitExponent

end FloatFormat

/-- How many finite magnitudes there are: 2047 exponent fields of 52 fraction bits each. -/
abbrev Binary64.limit : Nat := 9218868437227405312

inductive Binary64 where
  | nan
  | infinite (negative : Bool)
  | finite (negative : Bool) (code : Fin Binary64.limit)
deriving DecidableEq

namespace Binary64

def units (code : Nat) : Nat := FloatFormat.double.units code

/-- The units that make up the number one. -/
def one : Nat := FloatFormat.double.one

def isFinite : Binary64 → Bool
  | finite _ _ => true
  | _ => false

/-- A magnitude past the last finite one is infinite. -/
def ofMagnitude (negative : Bool) (code : Nat) : Binary64 :=
  if h : code < limit then finite negative ⟨code, h⟩ else infinite negative

/-- Numerical equality: a NaN differs from everything and the two zeros are equal. -/
def same : Binary64 → Binary64 → Bool
  | infinite s, infinite t => s == t
  | finite s m, finite t n => m == n && (s == t || m.val == 0)
  | _, _ => false

/-- The integer that the value is, when it is one. -/
def toInt? : Binary64 → Option Int
  | finite negative code =>
    if units code % one = 0 then
      let n : Int := units code / one
      some (if negative then -n else n)
    else none
  | _ => none

/-! ### Encoding in bits -/

/-- The weight of the sign, above eleven exponent bits and 52 fraction bits. -/
def signBit : Nat := 9223372036854775808

def ofBits (bits : BitVec 64) : Binary64 :=
  let negative := signBit ≤ bits.toNat
  let code := bits.toNat % signBit
  if limit < code then nan else ofMagnitude negative code

/-- Every NaN is encoded as the quiet NaN with an empty payload. -/
def toBits : Binary64 → BitVec 64
  | nan => 0x7FF8000000000000#64
  | infinite negative => BitVec.ofNat 64 (negative.toNat * signBit + limit)
  | finite negative code => BitVec.ofNat 64 (negative.toNat * signBit + code)

end Binary64

end RecordQuery
