import RecordQuery.Schema.Declaration

/-!
# Registries

A registry is a fixed collection of schemas in which every relationship leads to a schema of the
same registry. A model is one schema of one registry: schemas of two registries are never the
same model, even if they are declared alike.
-/

namespace RecordQuery

structure Registry where
  /-- Tells registries apart that hold equal schemas. -/
  id : Nat
  schemas : List Schema
deriving DecidableEq

structure Model where
  registry : Registry
  schema : Schema
  mem : schema ∈ registry.schemas
deriving DecidableEq

namespace Registry

/-- The first model whose schema satisfies the test. -/
def findModel? (r : Registry) (test : Schema → Bool) : Option Model :=
  match found : r.schemas.find? test with
  | some s => some ⟨r, s, List.mem_of_find?_eq_some found⟩
  | none => none

theorem findModel?_eq_some {r : Registry} {test : Schema → Bool} {m : Model}
    (h : r.findModel? test = some m) : m.registry = r ∧ test m.schema = true := by
  unfold findModel? at h
  split at h
  · next found =>
    cases h
    exact ⟨rfl, List.find?_some found⟩
  · cases h

def model (r : Registry) (name : String) : Except Error Model :=
  match r.findModel? (·.name == name) with
  | some m => .ok m
  | none => .error (.unknownModel name)

def byObjectName (r : Registry) (objectName : String) : Except Error Model :=
  match r.findModel? (·.objectName == objectName) with
  | some m => .ok m
  | none => .error (.unknownModel objectName)

/-- All models in registration order. -/
def models (r : Registry) : List Model := r.schemas.attach.map fun s => ⟨r, s.val, s.property⟩

/-! ### Building -/

/-- Adds the schema of a declaration, whose two names must be new. -/
def add (schemas : List Schema) (d : Declaration) : Except Error (List Schema) := do
  let schema ← d.build
  if schemas.any (·.name == schema.name) then throw (.duplicateModel schema.name)
  if schemas.any (·.objectName == schema.objectName) then throw (.duplicateModel schema.objectName)
  return schemas ++ [schema]

/-- Checks that a relationship leads to one of the schemas. -/
def checkTarget (schemas : List Schema) (schema : Schema) (field : Field) : Except Error Unit :=
  match field.attr.target? with
  | none => .ok ()
  | some target =>
    if schemas.any (·.name == target) then .ok ()
    else .error (.unresolvedTarget schema.name field.name target)

def build (id : Nat) (declarations : List Declaration) : Except Error Registry := do
  let schemas ← declarations.foldlM add []
  schemas.forM fun schema => schema.relations.forM (checkTarget schemas schema)
  return ⟨id, schemas⟩

end Registry

namespace Model

def name (m : Model) : String := m.schema.name

def objectName (m : Model) : String := m.schema.objectName

def attr (m : Model) (field : String) : Except Error Attribute := m.schema.attr field

/-- The model that a relationship leads to. -/
def related (m : Model) (field : String) : Except Error Model := do
  let a ← m.attr field
  match a.target? with
  | some target => m.registry.model target
  | none => throw (.invalidJoin m.name field .notRelation)

end Model

end RecordQuery
