import RecordQuery.Binary64.Reading
import RecordQuery.Calendar.Reading
import RecordQuery.Error
import RecordQuery.Payload.Compact
import RecordQuery.Text.Blank
import RecordQuery.Value.Literal

/-!
# Coercion

How values cross the boundary of an attribute: into its kind from code or from a payload, out of
it as a literal or as a payload. The names of the schema and the field only serve the messages.
-/

namespace RecordQuery

open Text.Numeral

/-- The integer of 64 bits that a float is, when it is one. -/
def Binary64.toInt64? (x : Binary64) : Option Int64 := x.toInt?.bind narrow?

namespace Kind

def trimmed (s : String) : List Char := Text.trim s.toList

/-- A numeral of an integer, or one of a float that is whole. -/
def readInteger? (s : List Char) : Option Int64 :=
  readInt64? s <|> (Binary64.read? s).bind Binary64.toInt64?

def readFloat? (s : List Char) : Option Binary64 := (Binary64.read? s).filter Binary64.isFinite

/-- The words `true` and `false` in any case. -/
def readBoolean? (s : List Char) : Option Bool :=
  match String.ofList (Text.lower s) with
  | "true" => some true
  | "false" => some false
  | _ => none

/-- A value converted to the kind, when there is such a conversion. Everything but null has a
text, and texts are read by the grammar of the kind. -/
def convert? : Kind → Value → Option Value
  | _, .null => none
  | string, .string s => some (.string s)
  | string, v => some (.string v.literal)
  | integer, .integer n => some (.integer n)
  | integer, .float x => x.toInt64?.map .integer
  | integer, .string s => (readInteger? (trimmed s)).map .integer
  | float, .float x => if x.isFinite then some (.float x) else none
  | float, .integer n => some (.float (.ofInt n.toInt))
  | float, .string s => (readFloat? (trimmed s)).map .float
  | boolean, .boolean b => some (.boolean b)
  | boolean, .string s => (readBoolean? (trimmed s)).map .boolean
  | date, .date d => some (.date d)
  | date, .datetime t => some (.date t.date)
  | date, .string s => (Date.read? s.toList).map .date
  | datetime, .datetime t => some (.datetime t)
  | datetime, .date d => some (.datetime (.ofDate d))
  | datetime, .string s => (Instant.read? s.toList).map .datetime
  | _, _ => none

end Kind

/-- The scalar that a payload carries. An integer outside 64 bits becomes the nearest float. -/
def Payload.scalar? : Payload → Option Value
  | null => some .null
  | boolean b => some (.boolean b)
  | integer n => some ((narrow? n).elim (.float (.ofInt n)) .integer)
  | float x => some (.float x)
  | string s => some (.string s)
  | list _ => none
  | mapping _ => none

/-- The payload that carries a value; dates and instants go as text, and a float that is not
finite is lost. -/
def Value.toPayload : Value → Payload
  | null => .null
  | string s => .string s
  | boolean b => .boolean b
  | integer n => .integer n.toInt
  | float x => if x.isFinite then .float x else .null
  | v => .string v.literal

namespace Attribute

variable (a : Attribute) (schema field : String)

/-- The given value in the kind of the attribute. -/
def coerce (v : Value) : Except Error Value :=
  if v.isNull then
    if a.nullable then .ok .null else .error (.notNullable schema field)
  else
    match a.kind?.bind (·.convert? v) with
    | some w => .ok w
    | none => .error (.notCoercible schema field a.content v.literal)

def coercePayload (p : Payload) : Except Error Value :=
  match p.scalar? with
  | some v => a.coerce schema field v
  | none => .error (.notCoercible schema field a.content (String.ofList p.text))

/-- The literal of a value that the attribute takes without conversion. -/
def literal (v : Value) : Except Error String :=
  if v.isNull then
    if a.nullable then .ok v.literal else .error (.notNullable schema field)
  else if a.kind?.any (·.accepts v) then .ok v.literal
  else .error (.operandMismatch schema field "literal" v.literal)

end Attribute

end RecordQuery
