import RecordQuery.Schema.Registry

/-!
# Instances

An instance is a record of a model. It has one slot for each field of the schema, in order, and
remembers which scalar fields were assigned a new value.
-/

namespace RecordQuery

inductive Slot (I : Type) where
  | unset
  | value (v : Value)
  | one (related : Option I)
  | many (related : List I)

def Slot.isSet {I : Type} : Slot I → Bool
  | unset => false
  | _ => true

structure Instance where
  model : Model
  slots : List (Slot Instance)
  changed : List Bool

namespace Instance

/-- The instance with the given slots, all others being unset, and no changes. -/
def ofSlots (m : Model) (assigned : List (String × Slot Instance)) : Instance :=
  { model := m
    slots := m.schema.fields.map fun f => (assigned.lookup f.name).getD .unset
    changed := m.schema.fields.map fun _ => false }

/-- The instance in which every field is unset. -/
def new (m : Model) : Instance := ofSlots m []

/-- The fields with their slots. -/
def cells (x : Instance) : List (Field × Slot Instance) := x.model.schema.fields.zip x.slots

/-! ### Equality

Two instances are equal if their models and slots are. Recorded changes do not count, and floats
are compared as numbers. -/

mutual

def same : Instance → Instance → Bool
  | ⟨m, slots, _⟩, ⟨m', slots', _⟩ => m == m' && sameSlots slots slots'

def sameSlots : List (Slot Instance) → List (Slot Instance) → Bool
  | [], [] => true
  | .unset :: rest, .unset :: rest' => sameSlots rest rest'
  | .value v :: rest, .value w :: rest' => v.same w && sameSlots rest rest'
  | .one none :: rest, .one none :: rest' => sameSlots rest rest'
  | .one (some x) :: rest, .one (some y) :: rest' => same x y && sameSlots rest rest'
  | .many xs :: rest, .many ys :: rest' => sameAll xs ys && sameSlots rest rest'
  | _, _ => false

def sameAll : List Instance → List Instance → Bool
  | [], [] => true
  | x :: xs, y :: ys => same x y && sameAll xs ys
  | _, _ => false

end

end Instance

end RecordQuery
