import RecordQuery.Condition.Basic

/-!
# Queries

A query selects records of a root model. It may name the columns to read, join related records
along relationships, filter, order and cut the result, or only count it.
-/

namespace RecordQuery

inductive Direction where
  | ascending
  | descending
deriving DecidableEq

namespace Direction

def all : List Direction := [ascending, descending]

def name : Direction → String
  | ascending => "asc"
  | descending => "desc"

def ofName? (s : String) : Option Direction := all.find? (·.name == s)

end Direction

/-- Where null values stand in an order. -/
inductive NullPlacement where
  | first
  | last
deriving DecidableEq

namespace NullPlacement

def all : List NullPlacement := [first, last]

def name : NullPlacement → String
  | first => "first"
  | last => "last"

def ofName? (s : String) : Option NullPlacement := all.find? (·.name == s)

end NullPlacement

structure SortKey where
  path : AttributePath
  direction : Option Direction
  nulls : Option NullPlacement
deriving DecidableEq

/-- A joined relationship: its field, the attribute declared for it, and the query over the
related records. -/
structure Join (Q : Type) where
  field : String
  attr : Attribute
  query : Q

structure Query where
  root : Model
  /-- The chosen columns; none stands for all scalar fields of the root. -/
  columns : List AttributePath
  joins : List (Join Query)
  filter : Option Condition
  order : List SortKey
  limit : Option Nat
  offset : Option Nat
  count : Bool

namespace Query

/-- All scalar fields of a model and nothing else. -/
def select (root : Model) : Query :=
  { root, columns := [], joins := [], filter := none, order := [], limit := none, offset := none,
    count := false }

/-- The fields that a choice of columns stands for. -/
def fieldsOf (root : Model) (columns : List AttributePath) : List Field :=
  if columns.isEmpty then root.schema.columns else columns.map fun p => ⟨p.field, p.toAttribute⟩

/-- The scalar fields that are read, in order. -/
def selected (q : Query) : List Field := fieldsOf q.root q.columns

def joinFor? (q : Query) (field : String) : Option (Join Query) :=
  q.joins.find? (·.field == field)

/-- Whether the query picks out, orders or cuts records. -/
def isRestricted (q : Query) : Bool :=
  q.filter.isSome || !q.order.isEmpty || q.limit.isSome || q.offset.isSome

/-! ### Equality -/

def sameFilter : Option Condition → Option Condition → Bool
  | none, none => true
  | some c, some d => c.same d
  | _, _ => false

mutual

/-- Equality of all parts, with the equality of conditions. -/
def same : Query → Query → Bool
  | ⟨root, columns, joins, filter, order, limit, offset, count⟩,
    ⟨root', columns', joins', filter', order', limit', offset', count'⟩ =>
    root == root' && columns == columns' && sameJoins joins joins' && sameFilter filter filter' &&
      order == order' && limit == limit' && offset == offset' && count == count'

def sameJoins : List (Join Query) → List (Join Query) → Bool
  | [], [] => true
  | ⟨f, a, q⟩ :: rest, ⟨f', a', q'⟩ :: rest' =>
    f == f' && a == a' && same q q' && sameJoins rest rest'
  | _, _ => false

end

end Query

/-- The query that a subquery stands for. -/
def Subquery.toQuery : Subquery → Query
  | .selecting column chosen filter =>
    { Query.select column.root with columns := if chosen then [column] else [], filter }

end RecordQuery
