import RecordQuery.Condition.Comparator
import RecordQuery.Path

/-!
# Conditions

A condition is a tree of comparisons under AND, OR and NOT. The operand of a comparison is a
value, a list of values, or a subquery: the values of one column over the records of a model that
satisfy a condition of their own.
-/

namespace RecordQuery

mutual

inductive Condition where
  | compare (path : AttributePath) (comparator : Comparator) (operand : Operand)
  | junction (kind : Junction) (children : List Condition)
  | not (child : Condition)

inductive Operand where
  | literal (v : Value)
  | list (values : List Value)
  | subquery (s : Subquery)

/-- The flag tells whether the column was chosen or is the only one of its model. -/
inductive Subquery where
  | selecting (column : AttributePath) (chosen : Bool) (filter : Option Condition)

end

namespace Subquery

def column : Subquery → AttributePath
  | selecting column _ _ => column

def chosen : Subquery → Bool
  | selecting _ chosen _ => chosen

def filter : Subquery → Option Condition
  | selecting _ _ filter => filter

def root (s : Subquery) : Model := s.column.root

end Subquery

namespace Condition

def isJunction : Condition → Bool
  | junction _ _ => true
  | _ => false

def isComparison : Condition → Bool
  | compare _ _ _ => true
  | _ => false

mutual

/-- The paths that are compared, from left to right. Those inside subqueries belong to the
subqueries. -/
def paths : Condition → List AttributePath
  | compare path _ _ => [path]
  | junction _ children => pathsAll children
  | not child => paths child

def pathsAll : List Condition → List AttributePath
  | [] => []
  | c :: rest => paths c ++ pathsAll rest

end

end Condition

/-! ### Equality

Conditions are compared with the equality of values, in which floats are compared as numbers. -/

mutual

def Condition.same : Condition → Condition → Bool
  | .compare p c a, .compare q d b => p == q && c == d && Operand.same a b
  | .junction j as, .junction k bs => j == k && Condition.sameAll as bs
  | .not a, .not b => Condition.same a b
  | _, _ => false

def Operand.same : Operand → Operand → Bool
  | .literal v, .literal w => v.same w
  | .list vs, .list ws => vs.length == ws.length && (vs.zip ws).all fun (v, w) => v.same w
  | .subquery s, .subquery t => Subquery.same s t
  | _, _ => false

def Subquery.same : Subquery → Subquery → Bool
  | .selecting p b none, .selecting q c none => p == q && b == c
  | .selecting p b (some f), .selecting q c (some g) => p == q && b == c && Condition.same f g
  | _, _ => false

def Condition.sameAll : List Condition → List Condition → Bool
  | [], [] => true
  | a :: as, b :: bs => Condition.same a b && Condition.sameAll as bs
  | _, _ => false

end

end RecordQuery
