import RecordQuery.Condition.Written

/-!
# Checked conditions

The ways to make a condition. A comparison is refused unless its operand suits both the operator
and the kind of the attribute, so that every condition made here can be written and evaluated.
-/

namespace RecordQuery

/-- Whether an operator takes an operand for attributes of a kind. Null is compared for equality
only; a list has at least one value; a subquery supplies a list to be or not to be in. -/
def Comparator.admits (c : Comparator) (k : Kind) (o : Operand) : Bool :=
  (!c.onlyStrings || k == .string) &&
  match o with
  | .literal .null => c.isEquality
  | .literal v => !c.takesList && k.accepts v
  | .list vs => c.takesList && !vs.isEmpty && vs.all k.accepts
  | .subquery s => c.isMembership && k.compatible s.column.kind

/-- The comparison of an attribute with an operand. -/
def AttributePath.compare (p : AttributePath) (c : Comparator) (o : Operand) :
    Except Error Condition :=
  if c.admits p.kind o then .ok (.compare p c o)
  else .error (.operandMismatch p.root.name p.fieldPath c.text o.text)

namespace Condition

/-- The junction of two or more conditions. Nothing is flattened. -/
def junction? (kind : Junction) (children : List Condition) : Except Error Condition :=
  if children.length < 2 then .error (.tooFewOperands kind) else .ok (.junction kind children)

def and (a b : Condition) : Condition := .junction .all [a, b]

def or (a b : Condition) : Condition := .junction .any [a, b]

end Condition

end RecordQuery
