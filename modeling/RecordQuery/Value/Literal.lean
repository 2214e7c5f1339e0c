import RecordQuery.Value.Basic
import RecordQuery.Binary64.Shortest
import RecordQuery.Calendar.Written
import RecordQuery.Text.Quoted

/-!
# Literals

The text of a value inside a query. A string is quoted; dates and instants have their written
form; a number never has an exponent, and a float always has a fraction.
-/

namespace RecordQuery

open Text.Numeral

/-- A finite magnitude: a whole number in full, any other by its shortest digits. -/
def Binary64.plainText (code : Nat) : List Char :=
  if units code % one = 0 then digits (units code / one) ++ ['.', '0']
  else (Decimal.shortest .up code).positional

def Binary64.literalText : Binary64 → List Char
  | nan => ['N', 'a', 'N']
  | infinite negative => sign negative ++ ['i', 'n', 'f']
  | finite negative code => sign negative ++ plainText code

namespace Value

def literalText : Value → List Char
  | null => ['N', 'U', 'L', 'L']
  | string s => Text.Quoted.quote s.toList
  | boolean true => ['t', 'r', 'u', 'e']
  | boolean false => ['f', 'a', 'l', 's', 'e']
  | integer n => signed n.toInt
  | float x => x.literalText
  | date d => d.text
  | datetime t => t.text

def literal (v : Value) : String := String.ofList v.literalText

end Value

end RecordQuery
