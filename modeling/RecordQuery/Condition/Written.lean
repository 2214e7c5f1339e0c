import RecordQuery.Condition.Basic

/-!
# Written conditions

The parentheses follow the tree: an AND or OR inside another stands in parentheses, and so does
everything but a comparison under NOT.
-/

namespace RecordQuery

def AttributePath.fragment (p : AttributePath) : Fragment := .path p.segments

def RelationPath.fragment (p : RelationPath) : Fragment := .path p.segments

def Junction.chunk : Junction → Chunk
  | all => .keyword .AND
  | any => .keyword .OR

/-- Puts a fragment in parentheses if need be. -/
def Fragment.parensIf (needed : Bool) (f : Fragment) : Fragment := if needed then f.parens else f

/-- A list of values in parentheses. -/
def Fragment.values (vs : List Value) : Fragment :=
  (Fragment.separated .comma (vs.map fun v => [.literal v])).parens

/-- The query of a subquery up to its condition. -/
def Subquery.head (column : AttributePath) : Fragment :=
  .keyword .SELECT :: column.fragment ++ [.keyword .FROM, .name column.root.objectName]

mutual

def Condition.fragment : Condition → Fragment
  | .compare path comparator operand => path.fragment ++ comparator.fragment ++ operand.fragment
  | .junction kind children => Fragment.separated kind.chunk (Condition.parts children)
  | .not child => .keyword .NOT :: child.fragment.parensIf (!child.isComparison)

def Condition.parts : List Condition → List Fragment
  | [] => []
  | c :: rest => c.fragment.parensIf c.isJunction :: Condition.parts rest

def Operand.fragment : Operand → Fragment
  | .literal v => [.literal v]
  | .list vs => Fragment.values vs
  | .subquery s => s.fragment

/-- The query of the subquery in parentheses. -/
def Subquery.fragment : Subquery → Fragment
  | .selecting column _ none => (Subquery.head column).parens
  | .selecting column _ (some filter) =>
    (Subquery.head column ++ .keyword .WHERE :: filter.fragment).parens

end

/-- The operand as messages show it. -/
def Operand.text (o : Operand) : String := o.fragment.write

end RecordQuery
