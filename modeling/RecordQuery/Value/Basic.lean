import RecordQuery.Binary64.Rounding
import RecordQuery.Calendar.Instant

/-!
# Values

The scalar kinds of attributes and the values they hold, with the two relations between them:
which values a kind accepts as they are, and which kinds can feed one another.
-/

namespace RecordQuery

inductive Kind where
  | string
  | boolean
  | integer
  | float
  | date
  | datetime
deriving DecidableEq

namespace Kind

def all : List Kind := [string, boolean, integer, float, date, datetime]

def name : Kind → String
  | string => "string"
  | boolean => "boolean"
  | integer => "integer"
  | float => "float"
  | date => "date"
  | datetime => "datetime"

def ofName? (s : String) : Option Kind := all.find? (·.name == s)

end Kind

inductive Value where
  | null
  | string (s : String)
  | boolean (b : Bool)
  | integer (n : Int64)
  | float (x : Binary64)
  | date (d : Date)
  | datetime (t : Instant)
deriving DecidableEq

namespace Value

/-- The kind that a value belongs to by nature; null has none. -/
def kind? : Value → Option Kind
  | null => none
  | string _ => some .string
  | boolean _ => some .boolean
  | integer _ => some .integer
  | float _ => some .float
  | date _ => some .date
  | datetime _ => some .datetime

def isNull (v : Value) : Bool := v.kind?.isNone

def typeName (v : Value) : String := (v.kind?.map Kind.name).getD "null"

/-- Equality of values, where floats are compared as numbers. -/
def same : Value → Value → Bool
  | float x, float y => x.same y
  | v, w => v == w

/-! ### Views -/

def string? : Value → Option String
  | string s => some s
  | _ => none

def boolean? : Value → Option Bool
  | boolean b => some b
  | _ => none

def integer? : Value → Option Int64
  | integer n => some n
  | _ => none

/-- Integers widen to floats. -/
def float? : Value → Option Binary64
  | float x => some x
  | integer n => some (.ofInt n.toInt)
  | _ => none

def date? : Value → Option Date
  | date d => some d
  | _ => none

def datetime? : Value → Option Instant
  | datetime t => some t
  | _ => none

end Value

namespace Kind

/-- Whether a value can be compared with an attribute of this kind without conversion. Integers
widen to floats; null is no operand, and neither is a float that is not finite. -/
def accepts : Kind → Value → Bool
  | string, .string _ => true
  | boolean, .boolean _ => true
  | integer, .integer _ => true
  | float, .integer _ => true
  | float, .float x => x.isFinite
  | date, .date _ => true
  | datetime, .datetime _ => true
  | _, _ => false

/-- Whether a column of the kind `other` can supply the operands for this kind. -/
def compatible (self other : Kind) : Bool :=
  self == other || (self == float && other == integer)

end Kind

end RecordQuery
