import RecordQuery.Binary64.Shortest
import RecordQuery.Payload.Basic

/-!
# Compact text of a payload

One line without blanks, as messages show a payload. Strings stand between double quotes; a float
has its shortest digits, with an exponent if it is below 0.00001 or has more than 16 digits before
the point.
-/

namespace RecordQuery.Payload

open Text.Numeral

def hexDigit (n : Nat) : Char := Nat.digitChar (n % 16)

def escapeChar (c : Char) : List Char :=
  match c with
  | '"' => ['\\', '"']
  | '\\' => ['\\', '\\']
  | '\x08' => ['\\', 'b']
  | '\x0c' => ['\\', 'f']
  | '\n' => ['\\', 'n']
  | '\r' => ['\\', 'r']
  | '\t' => ['\\', 't']
  | c =>
    if c.toNat < 0x20 then ['\\', 'u', '0', '0', hexDigit (c.toNat / 16), hexDigit c.toNat] else [c]

def stringText (s : String) : List Char := '"' :: s.toList.flatMap escapeChar ++ ['"']

def magnitudeText (code : Nat) : List Char :=
  if code = 0 then ['0', '.', '0']
  else
    let d := Decimal.shortest .toEven code
    if -5 ≤ d.point - 1 ∧ d.point - 1 ≤ 15 then d.positional else d.scientific

def floatText : Binary64 → List Char
  | .finite negative code => sign negative ++ magnitudeText code
  | _ => ['n', 'u', 'l', 'l']

/-- The parts with commas between them. -/
def commaSeparated : List (List Char) → List Char
  | [] => []
  | [part] => part
  | part :: rest => part ++ ',' :: commaSeparated rest

mutual

def text : Payload → List Char
  | null => ['n', 'u', 'l', 'l']
  | boolean true => ['t', 'r', 'u', 'e']
  | boolean false => ['f', 'a', 'l', 's', 'e']
  | integer n => signed n
  | float x => floatText x
  | string s => stringText s
  | list items => '[' :: commaSeparated (texts items) ++ [']']
  | mapping entries => '\x7b' :: commaSeparated (entryTexts entries) ++ ['\x7d']

def texts : List Payload → List (List Char)
  | [] => []
  | p :: rest => text p :: texts rest

def entryTexts : List (String × Payload) → List (List Char)
  | [] => []
  | (key, p) :: rest => (stringText key ++ ':' :: text p) :: entryTexts rest

end

end RecordQuery.Payload
