import RecordQuery.Binary64.Rounding
import RecordQuery.Text.Caseless

/-!
# Reading floating point numerals

The grammar is an optional sign and either one of the words `inf`, `infinity` and `nan`, in any
case, or decimal digits with an optional point and an optional exponent.
-/

namespace RecordQuery.Binary64

open Text.Numeral

/-- The exponent part: nothing, or `e` and a signed integer. -/
def readExponent? : List Char → Option Int
  | [] => some 0
  | c :: rest => if c = 'e' ∨ c = 'E' then readSigned? rest else none

/-- Digits on at least one side of an optional point, then an exponent. -/
def readDecimal? (negative : Bool) (s : List Char) : Option Binary64 :=
  let whole := s.takeWhile Char.isDigit
  let afterWhole := s.dropWhile Char.isDigit
  let (fraction, rest) :=
    match afterWhole with
    | '.' :: tail => (tail.takeWhile Char.isDigit, tail.dropWhile Char.isDigit)
    | _ => ([], afterWhole)
  if whole ++ fraction = [] then none
  else (readExponent? rest).map fun exponent =>
    ofDecimal negative (value (whole ++ fraction)) (exponent - fraction.length)

def read? (s : List Char) : Option Binary64 :=
  let (negative, body) := splitSign s
  match String.ofList (Text.lower body) with
  | "inf" | "infinity" => some (infinite negative)
  | "nan" => some nan
  | _ => readDecimal? negative body

end RecordQuery.Binary64
