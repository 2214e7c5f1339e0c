import RecordQuery.Attribute.Coercion
import RecordQuery.Instance.Basic

/-!
# Reading and assigning fields

Scalar fields, single-valued relationships and one-to-many relationships are read and assigned
each in their own way. A value is coerced to the kind of its field, and a related instance must
belong to the model that the relationship leads to.
-/

namespace RecordQuery.Instance

variable (x : Instance) (field : String)

/-- The position of a field and its attribute. -/
def locate (m : Model) (field : String) : Except Error (Nat × Attribute) :=
  match m.schema.position? field, m.schema.attr? field with
  | some i, some a => .ok (i, a)
  | _, _ => .error (.unknownField m.name field)

def slotAt (i : Nat) : Slot Instance := x.slots[i]?.getD .unset

def slot : Except Error (Slot Instance) := do
  let (i, _) ← locate x.model field
  return x.slotAt i

def isSet : Bool :=
  match x.slot field with
  | .ok s => s.isSet
  | .error _ => false

def misuse (m : Model) (field : String) (fault : ColumnFault) : Error :=
  .invalidColumn m.name field fault

/-- The position of a relationship, which must lead to many records or to one as asked. -/
def locateRelation (m : Model) (field : String) (many : Bool) :
    Except Error (Nat × Attribute) := do
  let (i, a) ← locate m field
  if !a.isRelation then throw (misuse m field .scalarNotRelated)
  if a.isMany ≠ many then throw (misuse m field (if many then .singleNotMany else .manyNotSingle))
  return (i, a)

/-! ### Reading -/

def get : Except Error Value := do
  match ← x.slot field with
  | .value v => return v
  | .unset => throw (.unsetField x.model.name field)
  | _ => throw (misuse x.model field .relationNotRead)

def one : Except Error (Option Instance) := do
  let (i, _) ← locateRelation x.model field false
  match x.slotAt i with
  | .one related => return related
  | _ => throw (.unsetField x.model.name field)

def many : Except Error (List Instance) := do
  let (i, _) ← locateRelation x.model field true
  match x.slotAt i with
  | .many related => return related
  | _ => throw (.unsetField x.model.name field)

/-! ### Assigning -/

/-- The position of a scalar field and the value as the field takes it. -/
def accept (m : Model) (field : String) (v : Value) : Except Error (Nat × Value) := do
  let (i, a) ← locate m field
  if a.isRelation then throw (misuse m field .relationNotAssigned)
  return (i, ← a.coerce m.name field v)

def put (i : Nat) (s : Slot Instance) : Instance := { x with slots := x.slots.set i s }

def holds (i : Nat) (v : Value) : Bool :=
  match x.slotAt i with
  | .value w => w.same v
  | _ => false

/-- Assigns a scalar field. The field counts as changed unless it held an equal value. -/
def set (v : Value) : Except Error Instance := do
  let (i, w) ← accept x.model field v
  let changed := if x.holds i w then x.changed else x.changed.set i true
  return { x.put i (.value w) with changed }

/-- Refuses an instance of another model than the relationship leads to. -/
def checkTarget (m : Model) (field : String) (related : Instance) : Except Error Unit := do
  let target ← m.related field
  if related.model ≠ target then throw (.invalidJoin m.name field .foreignInstance)

def setOne (related : Option Instance) : Except Error Instance := do
  let (i, a) ← locateRelation x.model field false
  match related with
  | some y => checkTarget x.model field y
  | none => if !a.nullable then throw (.notNullable x.model.name field)
  return x.put i (.one related)

def setMany (related : List Instance) : Except Error Instance := do
  let (i, _) ← locateRelation x.model field true
  related.forM (checkTarget x.model field)
  return x.put i (.many related)

def resetChanges : Instance := { x with changed := x.changed.map fun _ => false }

/-! ### Construction -/

/-- The instance with the given scalar fields assigned in order, and no changes. -/
def ofValues (m : Model) (values : List (String × Value)) : Except Error Instance :=
  values.foldlM
    (fun x entry => do
      let (i, w) ← accept m entry.1 entry.2
      return x.put i (.value w))
    (new m)

end RecordQuery.Instance
