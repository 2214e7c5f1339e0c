import RecordQuery.Binary64.Rounding

/-!
# The fewest digits that read back

A double is written with the fewest decimal digits that read back to it, and with the nearest
such digits. Where two are equally near, the text format decides.
-/

namespace RecordQuery

/-- The number `0.d₁d₂…` times ten to the power `point`. -/
structure Decimal where
  digits : List Char
  point : Int
deriving DecidableEq

namespace Decimal

/-- Which of two equally near decimals is written. -/
inductive Tie where
  | up
  | toEven

def Tie.pick (low : Nat) : Tie → Nat
  | .up => low + 1
  | .toEven => low + low % 2

/-- The decimal of `coefficient` times ten to the power `exponent`, without trailing zeros. -/
def ofCoefficient (coefficient : Nat) (exponent : Int) : Decimal :=
  let ds := Text.Numeral.digits coefficient
  ⟨(ds.reverse.dropWhile (· == '0')).reverse, ds.length + exponent⟩

/-- The least power of ten above a positive magnitude; ten to the power -324 is below all. -/
def scale (code : Nat) : Int :=
  (Text.Numeral.digits (Binary64.units code * Text.Numeral.tenTo 324 / Binary64.one)).length - 324

def readsBack (code coefficient : Nat) (exponent : Int) : Bool :=
  Binary64.ofDecimal false coefficient exponent == Binary64.ofMagnitude false code

/-- Of the two multiples of ten to the power `exponent` next to a magnitude, the nearer that reads
back. -/
def onGrid? (tie : Tie) (code : Nat) (exponent : Int) : Option Nat :=
  let num := Binary64.units code * Text.Numeral.tenTo (-exponent).toNat
  let den := Binary64.one * Text.Numeral.tenTo exponent.toNat
  let low := num / den
  match readsBack code low exponent, readsBack code (low + 1) exponent with
  | true, true =>
    match compare (2 * (num % den)) den with
    | .lt => some low
    | .gt => some (low + 1)
    | .eq => some (tie.pick low)
  | true, false => some low
  | false, true => some (low + 1)
  | false, false => none

/-- The shortest decimal of a positive magnitude: one digit is tried first, and seventeen always
suffice. -/
def shortest (tie : Tie) (code : Nat) : Decimal :=
  let top := scale code
  let found := (List.range' 1 17).findSome? fun (count : Nat) =>
    (onGrid? tie code (top - count)).map (ofCoefficient · (top - count))
  found.getD (ofCoefficient (Binary64.units code * Text.Numeral.tenTo 1074 / Binary64.one) (-1074))

/-! ### Layout -/

def zeros (n : Nat) : List Char := List.replicate n '0'

/-- Positional text with at least one digit on each side of the point. -/
def positional (d : Decimal) : List Char :=
  if d.point ≤ 0 then '0' :: '.' :: zeros (-d.point).toNat ++ d.digits
  else
    let whole := d.point.toNat
    if whole < d.digits.length then d.digits.take whole ++ '.' :: d.digits.drop whole
    else d.digits ++ zeros (whole - d.digits.length) ++ ['.', '0']

/-- One digit before the point, none of the point when nothing follows it, and an exponent that
always has a sign. -/
def scientific (d : Decimal) : List Char :=
  let exponent := d.point - 1
  let mantissa :=
    match d.digits with
    | lead :: rest@(_ :: _) => lead :: '.' :: rest
    | ds => ds
  mantissa ++ 'e' :: (if exponent < 0 then '-' else '+') :: Text.Numeral.digits exponent.natAbs

end Decimal

end RecordQuery
