import RecordQuery.Attribute.Basic
import RecordQuery.Payload.Basic

/-!
# Errors

Every way in which declaring a model, building a query, loading a record or using an instance can
fail, by cause. The wording stands in `Error.message` and in the functions `text` of the causes.
-/

namespace RecordQuery

/-- Why a column or an attribute path cannot stand where it was given. -/
inductive ColumnFault where
  | isRelation
  | otherRoot
  | indirect
  | repeated
  | foreignReference
  | acrossMany
  | relationNotRead
  | relationNotAssigned
  | scalarNotRelated
  | singleNotMany
  | manyNotSingle
deriving DecidableEq

def ColumnFault.text : ColumnFault → String
  | isRelation => "relationships cannot be used as columns"
  | otherRoot => "not an attribute of the query's schema"
  | indirect => "columns cannot traverse relationships"
  | repeated => "selected more than once"
  | foreignReference => "not rooted at the query's schema"
  | acrossMany => "cannot reference across a one-to-many relationship"
  | relationNotRead => "use one() or many()"
  | relationNotAssigned => "use set_one() or set_many()"
  | scalarNotRelated => "scalar attribute; use get() or set()"
  | singleNotMany => "use one() or set_one()"
  | manyNotSingle => "use many() or set_many()"

/-- Why a relationship, a joined query or a related instance does not fit. -/
inductive JoinFault where
  | notRelation
  | otherRoot
  | otherTarget
  | countJoined
  | restrictedSingle
  | foreignInstance
deriving DecidableEq

def JoinFault.text : JoinFault → String
  | notRelation => "not a relationship"
  | otherRoot => "relationship does not start at the query's schema"
  | otherTarget => "joined query must select from the related schema"
  | countJoined => "joined query cannot be a count"
  | restrictedSingle => "filters, ordering, limits and offsets need a one-to-many relationship"
  | foreignInstance => "related instance belongs to a different model"

/-- Why a query cannot be an operand. -/
inductive SubqueryFault where
  | joined
  | ordered
  | limited
  | skipping
  | counted
  | notOneColumn
deriving DecidableEq

def SubqueryFault.text : SubqueryFault → String
  | joined => "subqueries cannot join"
  | ordered => "subqueries cannot be ordered"
  | limited => "subqueries cannot be limited"
  | skipping => "subqueries cannot be offset"
  | counted => "subqueries cannot count"
  | notOneColumn => "subqueries select exactly one column"

/-- What a payload should have been in its place. -/
inductive Expected where
  | record
  | singleRecord
  | recordList
  | list
  | response
deriving DecidableEq

def Expected.text : Expected → String
  | record => "record mapping"
  | singleRecord => "single record"
  | recordList => "list of records"
  | list => "list"
  | response => "response mapping"

/-- How a payload disagrees with what is read from it. -/
inductive PayloadFault where
  | missingFromRecord
  | missingFromResponse
  | noRecordType
  | noTotal
  | shape (expected : Expected) (found : Shape)
deriving DecidableEq

def PayloadFault.text : PayloadFault → String
  | missingFromRecord => "missing from record"
  | missingFromResponse => "missing from response"
  | noRecordType => "record has no attributes.type"
  | noTotal => "missing or not a non-negative integer"
  | shape expected found => "expected a " ++ expected.text ++ ", found a " ++ found.name

/-- The two ways to join conditions. -/
inductive Junction where
  | all
  | any
deriving DecidableEq

def Junction.word : Junction → String
  | all => "AND"
  | any => "OR"

inductive Error where
  | notCoercible (schema field : String) (expected : Content) (value : String)
  | notNullable (schema field : String)
  | unknownField (schema field : String)
  | invalidColumn (schema path : String) (fault : ColumnFault)
  | operandMismatch (schema path operator value : String)
  | negativeLimit (n : Int)
  | negativeOffset (n : Int)
  | payloadMismatch (schema field : String) (fault : PayloadFault)
  | unsetField (schema field : String)
  | invalidSubquery (schema : String) (fault : SubqueryFault)
  | tooFewOperands (junction : Junction)
  | invalidJoin (schema field : String) (fault : JoinFault)
  | countNotLoadable (schema : String)
  | unknownModel (name : String)
  | duplicateModel (name : String)
  | duplicateField (schema field : String)
  | duplicateExternalName (schema externalName : String)
  | unresolvedTarget (schema field target : String)
deriving DecidableEq

/-- How messages name a field. -/
def qualified (schema field : String) : String := schema ++ "." ++ field

def Error.message : Error → String
  | notCoercible schema field expected value =>
    "cannot coerce " ++ value ++ " into " ++ expected.name ++ " for " ++ qualified schema field
  | notNullable schema field => qualified schema field ++ " is not nullable"
  | unknownField schema field => schema ++ " has no attribute " ++ field
  | invalidColumn schema path fault =>
    "invalid column " ++ qualified schema path ++ ": " ++ fault.text
  | operandMismatch schema path operator value =>
    "type mismatch on " ++ qualified schema path ++ ": " ++ operator ++ " does not accept " ++ value
  | negativeLimit n => "invalid limit " ++ toString n
  | negativeOffset n => "invalid offset " ++ toString n
  | payloadMismatch schema field fault =>
    "schema mismatch for " ++ qualified schema field ++ ": " ++ fault.text
  | unsetField schema field => qualified schema field ++ " is unset"
  | invalidSubquery schema fault =>
    "query over " ++ schema ++ " is not a valid subquery: " ++ fault.text
  | tooFewOperands junction =>
    "invalid expression: " ++ junction.word ++ " needs at least two operands"
  | invalidJoin schema field fault =>
    "invalid join " ++ qualified schema field ++ ": " ++ fault.text
  | countNotLoadable schema =>
    "invalid query over " ++ schema ++ ": count queries return no records"
  | unknownModel name => "unknown model " ++ name
  | duplicateModel name => "model " ++ name ++ " registered twice"
  | duplicateField schema field => schema ++ " declares attribute " ++ field ++ " twice"
  | duplicateExternalName schema externalName =>
    schema ++ " maps external name " ++ externalName ++ " twice"
  | unresolvedTarget schema field target =>
    qualified schema field ++ " targets unregistered model " ++ target

end RecordQuery
