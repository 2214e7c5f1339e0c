import RecordQuery.Schema.Registry

/-!
# Paths

A path starts at a model and follows relationships. It ends in a model, or in a scalar attribute
of the model it has reached. Both kinds remember where they start, so that a query can refuse
what does not belong to it.
-/

namespace RecordQuery

/-- One relationship followed by a path. -/
structure Hop where
  field : String
  externalName : String
  many : Bool
deriving DecidableEq

/-- A path to a scalar attribute. -/
structure AttributePath where
  root : Model
  hops : List Hop
  owner : Model
  field : String
  externalName : String
  nullable : Bool
  kind : Kind
deriving DecidableEq

/-- A path over one or more relationships, the last of which leads to the target. -/
structure RelationPath where
  root : Model
  parents : List Hop
  last : Hop
  target : Model
deriving DecidableEq

namespace AttributePath

def toAttribute (p : AttributePath) : Attribute := ⟨p.externalName, p.nullable, .scalar p.kind⟩

/-- The path over `hops` from `root` to an attribute of the model reached. -/
def through (root : Model) (hops : List Hop) (owner : Model) (field : String) :
    Except Error AttributePath := do
  let a ← owner.attr field
  match a.content with
  | .scalar kind => return ⟨root, hops, owner, field, a.externalName, a.nullable, kind⟩
  | .relation _ _ => throw (.invalidColumn owner.name field .isRelation)

def isDirect (p : AttributePath) : Bool := p.hops.isEmpty

def crossesMany (p : AttributePath) : Bool := p.hops.any Hop.many

/-- The external names along the path, with the name of the root object in front. -/
def segments (p : AttributePath) : List String :=
  p.root.objectName :: p.hops.map Hop.externalName ++ [p.externalName]

/-- The field names along the path with dots between them. -/
def fieldPath (p : AttributePath) : String :=
  ".".intercalate (p.hops.map Hop.field ++ [p.field])

end AttributePath

namespace RelationPath

def hops (p : RelationPath) : List Hop := p.parents ++ [p.last]

def fields (p : RelationPath) : List String := p.hops.map Hop.field

def isMany (p : RelationPath) : Bool := p.last.many

def segments (p : RelationPath) : List String :=
  p.root.objectName :: p.hops.map Hop.externalName

/-- The path over `parents` from `root` and over one more relationship of the model reached. -/
def through (root : Model) (parents : List Hop) (owner : Model) (field : String) :
    Except Error RelationPath := do
  let a ← owner.attr field
  if !a.isRelation then throw (.invalidJoin owner.name field .notRelation)
  let target ← owner.related field
  return ⟨root, parents, ⟨field, a.externalName, a.isMany⟩, target⟩

/-- Goes on over a relationship of the target. -/
def relationAt (p : RelationPath) (field : String) : Except Error RelationPath :=
  through p.root p.hops p.target field

/-- Ends at a scalar attribute of the target. -/
def attributeAt (p : RelationPath) (field : String) : Except Error AttributePath :=
  AttributePath.through p.root p.hops p.target field

end RelationPath

namespace Model

def attributeAt (m : Model) (field : String) : Except Error AttributePath :=
  AttributePath.through m [] m field

def relationAt (m : Model) (field : String) : Except Error RelationPath :=
  RelationPath.through m [] m field

end Model

end RecordQuery
