import RecordQuery.Schema.Basic

/-!
# Declarations

A declaration collects the fields of a model before it is registered. Fields taken on from a base
come first, in the order of the base, and may be redefined; a field of its own may be declared
only once.
-/

namespace RecordQuery

structure Declaration where
  name : String
  objectName : Option String
  /-- The fields taken on from the latest base. -/
  inherited : List Field
  /-- All other fields. -/
  own : List Field
deriving DecidableEq

namespace Declaration

def new (name : String) : Declaration := ⟨name, none, [], []⟩

def fields (d : Declaration) : List Field := d.inherited ++ d.own

def withObjectName (d : Declaration) (objectName : String) : Declaration :=
  { d with objectName := some objectName }

/-- Gives the first field of that name a new definition, when there is one. -/
def redefine? (field : Field) : List Field → Option (List Field)
  | [] => none
  | f :: rest =>
    if f.name = field.name then some (field :: rest) else (redefine? field rest).map (f :: ·)

def declare (d : Declaration) (field : Field) : Declaration :=
  match redefine? field d.inherited with
  | some inherited => { d with inherited }
  | none => { d with own := d.own ++ [field] }

/-- The first field of that name, and the fields without it. -/
def takeOut? (name : String) : List Field → Option (Field × List Field)
  | [] => none
  | f :: rest =>
    if f.name = name then some (f, rest)
    else (takeOut? name rest).map fun (found, others) => (found, f :: others)

/-- The fields of a base, each with the definition in `declared` if it has one, and the declared
fields that are left. -/
def overlay : List Field → List Field → List Field × List Field
  | [], declared => ([], declared)
  | f :: base, declared =>
    let (first, rest) := (takeOut? f.name declared).getD (f, declared)
    let (merged, left) := overlay base rest
    (first :: merged, left)

def inherit (d base : Declaration) : Declaration :=
  let (inherited, own) := overlay base.fields d.fields
  { d with inherited, own }

/-! ### Checking -/

/-- Checks fields after those that stand before them: no name twice, and no external name of a
scalar twice. -/
def check (schema : String) (earlier : List Field) : List Field → Except Error Unit
  | [] => .ok ()
  | f :: rest =>
    if earlier.any (·.name == f.name) then .error (.duplicateField schema f.name)
    else if !f.attr.isRelation && earlier.any (fun e =>
        !e.attr.isRelation && e.attr.externalName == f.attr.externalName) then
      .error (.duplicateExternalName schema f.attr.externalName)
    else check schema (earlier ++ [f]) rest

/-- The schema, where the object has the name of the model unless another was given. -/
def build (d : Declaration) : Except Error Schema :=
  match check d.name [] d.fields with
  | .ok () => .ok ⟨d.name, d.objectName.getD d.name, d.fields⟩
  | .error e => .error e

end Declaration

end RecordQuery
