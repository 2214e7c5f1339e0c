import RecordQuery.Fragment.Basic

/-!
# Comparators

The operators that stand between an attribute and its operand.
-/

namespace RecordQuery

inductive Comparator where
  | relation (r : Relation)
  | like
  | oneOf
  | noneOf
  | includes
  | excludes
deriving DecidableEq

namespace Comparator

def all : List Comparator :=
  [relation .equal, relation .notEqual, relation .less, relation .greater, relation .atMost,
    relation .atLeast, like, oneOf, noneOf, includes, excludes]

def name : Comparator → String
  | relation r => r.name
  | like => "like"
  | oneOf => "in"
  | noneOf => "not_in"
  | includes => "includes"
  | excludes => "excludes"

def ofName? (s : String) : Option Comparator := all.find? (·.name == s)

def text : Comparator → String
  | relation r => r.text
  | like => "LIKE"
  | oneOf => "IN"
  | noneOf => "NOT IN"
  | includes => "INCLUDES"
  | excludes => "EXCLUDES"

def fragment : Comparator → Fragment
  | relation r => [.relation r]
  | like => [.keyword .LIKE]
  | oneOf => [.keyword .IN]
  | noneOf => [.keyword .NOT, .keyword .IN]
  | includes => [.keyword .INCLUDES]
  | excludes => [.keyword .EXCLUDES]

/-- Whether the operand stands in parentheses. -/
def takesList : Comparator → Bool
  | oneOf => true
  | noneOf => true
  | includes => true
  | excludes => true
  | _ => false

/-- Whether only strings are compared. -/
def onlyStrings : Comparator → Bool
  | like => true
  | includes => true
  | excludes => true
  | _ => false

def isMembership : Comparator → Bool
  | oneOf => true
  | noneOf => true
  | _ => false

def isEquality : Comparator → Bool
  | relation .equal => true
  | relation .notEqual => true
  | _ => false

end Comparator

end RecordQuery
