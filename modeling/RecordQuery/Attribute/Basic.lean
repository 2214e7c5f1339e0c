import RecordQuery.Value.Basic

/-!
# Attributes

An attribute is one field of a model: the name it has outside, whether it may be null, and either
the scalar kind it holds or the model it relates to.
-/

namespace RecordQuery

inductive Content where
  | scalar (kind : Kind)
  | relation (target : String) (many : Bool)
deriving DecidableEq

/-- The word for what an attribute takes. -/
def Content.name : Content → String
  | scalar kind => kind.name
  | relation _ _ => "relationship"

structure Attribute where
  externalName : String
  nullable : Bool
  content : Content
deriving DecidableEq

namespace Attribute

def kind? (a : Attribute) : Option Kind :=
  match a.content with
  | .scalar kind => some kind
  | .relation _ _ => none

/-- The name of the model that a relationship leads to. -/
def target? (a : Attribute) : Option String :=
  match a.content with
  | .scalar _ => none
  | .relation target _ => some target

def isRelation (a : Attribute) : Bool := a.target?.isSome

def isMany (a : Attribute) : Bool :=
  match a.content with
  | .relation _ many => many
  | .scalar _ => false

end Attribute

end RecordQuery
