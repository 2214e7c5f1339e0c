import RecordQuery.Condition.Written
import RecordQuery.Query.Basic

/-!
# Statements

The text of a query. The columns of a single-valued join stand among those of the query, under
the dotted path of the relationship. A one-to-many join becomes a subselect in parentheses, whose
columns start from the related object and whose source is the dotted path.
-/

namespace RecordQuery

def SortKey.fragment (k : SortKey) : Fragment :=
  k.path.fragment
    ++ (match k.direction with
      | none => []
      | some .ascending => [.keyword .ASC]
      | some .descending => [.keyword .DESC])
    ++ (match k.nulls with
      | none => []
      | some .first => [.keyword .NULLS, .keyword .FIRST]
      | some .last => [.keyword .NULLS, .keyword .LAST])

namespace Query

/-- The items of a select list: plain columns, and the subselects that follow all of them. -/
structure Projection where
  columns : List Fragment
  subselects : List Fragment

namespace Projection

def append (p r : Projection) : Projection :=
  ⟨p.columns ++ r.columns, p.subselects ++ r.subselects⟩

def fragment (p : Projection) : Fragment := Fragment.separated .comma (p.columns ++ p.subselects)

end Projection

/-- The columns of one level under the path that leads to it. -/
def columnItems (path : List String) (fields : List Field) : List Fragment :=
  fields.map fun f => .path (path ++ [f.attr.externalName])

/-- The clauses after the source. -/
def clauses (filter : Option Condition) (order : List SortKey) (limit offset : Option Nat) :
    Fragment :=
  (match filter with
    | none => []
    | some c => .keyword .WHERE :: c.fragment)
  ++ (if order.isEmpty then []
    else .keyword .ORDER :: .keyword .BY :: Fragment.separated .comma (order.map SortKey.fragment))
  ++ (match limit with
    | none => []
    | some n => [.keyword .LIMIT, .number n])
  ++ (match offset with
    | none => []
    | some n => [.keyword .OFFSET, .number n])

mutual

/-- The items that a query under a single-valued join adds to the select list. -/
def project (path : List String) : Query → Projection
  | ⟨root, columns, joins, _, _, _, _, _⟩ =>
    .append ⟨columnItems path (fieldsOf root columns), []⟩ (projectJoins path joins)

def projectJoins (path : List String) : List (Join Query) → Projection
  | [] => ⟨[], []⟩
  | ⟨_, attr, query⟩ :: rest =>
    let here := path ++ [attr.externalName]
    .append
      (if attr.isMany then ⟨[], [Fragment.parens (statementFrom (.path here) query)]⟩
        else project here query)
      (projectJoins path rest)

/-- The statement with its source given. -/
def statementFrom (source : Fragment) : Query → Fragment
  | ⟨root, columns, joins, filter, order, limit, offset, count⟩ =>
    .keyword .SELECT ::
      (if count then [.raw "COUNT()"]
        else (Projection.append ⟨columnItems [root.objectName] (fieldsOf root columns), []⟩
          (projectJoins [root.objectName] joins)).fragment)
      ++ .keyword .FROM :: source ++ clauses filter order limit offset

end

def fragment (q : Query) : Fragment := statementFrom [.name q.root.objectName] q

def text (q : Query) : String := q.fragment.write

end Query

end RecordQuery
