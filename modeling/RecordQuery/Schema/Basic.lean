import RecordQuery.Attribute.Basic
import RecordQuery.Error

/-!
# Schemas

A schema is the declaration of one object: its model name, the name of the object outside, and
its fields in order.
-/

namespace RecordQuery

/-- A field of a model and the attribute declared for it. -/
structure Field where
  name : String
  attr : Attribute
deriving DecidableEq

structure Schema where
  name : String
  objectName : String
  fields : List Field
deriving DecidableEq

namespace Schema

def find? (s : Schema) (field : String) : Option Field := s.fields.find? (·.name == field)

def attr? (s : Schema) (field : String) : Option Attribute :=
  (s.find? field).map Field.attr

def attr (s : Schema) (field : String) : Except Error Attribute :=
  match s.attr? field with
  | some a => .ok a
  | none => .error (.unknownField s.name field)

def position? (s : Schema) (field : String) : Option Nat := s.fields.findIdx? (·.name == field)

/-- The scalar fields in declaration order. -/
def columns (s : Schema) : List Field := s.fields.filter fun f => !f.attr.isRelation

/-- The relationships in declaration order. -/
def relations (s : Schema) : List Field := s.fields.filter fun f => f.attr.isRelation

end Schema

end RecordQuery
