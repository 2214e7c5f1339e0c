import RecordQuery.Binary64.Basic
import RecordQuery.Text.Numeral

/-!
# Rounding to nearest

Every conversion into a binary format rounds one exact ratio to the nearest value, ties to the
even code.
-/

namespace RecordQuery

/-- The integer nearest to `num / den`, a half going to the even neighbour. -/
def nearestEven (num den : Nat) : Nat :=
  let low := num / den
  match compare (2 * (num % den)) den with
  | .lt => low
  | .gt => low + 1
  | .eq => low + low % 2

/-- The code of the magnitude nearest to `num / den`. It may lie past the finite ones. -/
def FloatFormat.nearest (format : FloatFormat) (num den : Nat) : Nat :=
  let scaled := num * format.one
  let exponent := (scaled / den).log2 - format.fractionBits
  exponent * format.fractions + nearestEven scaled (den * Nat.pow 2 exponent)

namespace Binary64

open Text.Numeral

def ofRatio (negative : Bool) (num den : Nat) : Binary64 :=
  ofMagnitude negative (FloatFormat.double.nearest num den)

def ofInt (n : Int) : Binary64 := ofRatio (decide (n < 0)) n.natAbs 1

/-- The value of `coefficient` times ten to the power `exponent`. The two bounds keep the power
small: a number of 310 or more digits is past the largest double, and one with 330 zeros after
the point is past the least. -/
def ofDecimal (negative : Bool) (coefficient : Nat) (exponent : Int) : Binary64 :=
  let size := (digits coefficient).length + exponent
  if coefficient = 0 ∨ size ≤ -330 then ofMagnitude negative 0
  else if 310 ≤ size then infinite negative
  else ofRatio negative (coefficient * tenTo exponent.toNat) (tenTo (-exponent).toNat)

/-- The nearest value of single precision. -/
def toSingle : Binary64 → Binary64
  | finite negative code =>
    let rounded := FloatFormat.single.nearest (units code) one
    if rounded < FloatFormat.single.magnitudes then
      ofRatio negative (FloatFormat.single.units rounded) FloatFormat.single.one
    else infinite negative
  | x => x

end Binary64

end RecordQuery
