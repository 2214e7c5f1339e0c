import RecordQuery.Proofs.Path.Walked
import RecordQuery.Condition.Checked
import RecordQuery.Query.Building

/-!
# Reachable queries

The queries and conditions that can be made: a query by a run of building operations from a model
of a built registry, a condition from comparisons by AND, OR and NOT. The two refer to each other,
as the operand of a comparison may be a subquery.
-/

namespace RecordQuery

mutual

inductive Query.Reachable : Query → Prop
  | select {m : Model} (built : m.registry.Built) : Query.Reachable (Query.select m)
  | choose {q next : Query} {columns : List AttributePath} (start : Query.Reachable q)
      (walked : ∀ p ∈ columns, p.Walked) (step : q.choose columns = .ok next) :
      Query.Reachable next
  | suchThat {q next : Query} {c : Condition} (start : Query.Reachable q) (made : Condition.Made c)
      (step : q.suchThat c = .ok next) : Query.Reachable next
  | orderBy {q next : Query} {key : SortKey} (start : Query.Reachable q)
      (walked : key.path.Walked) (step : q.orderBy key = .ok next) : Query.Reachable next
  | limitTo {q next : Query} {n : Int} (start : Query.Reachable q) (step : q.limitTo n = .ok next) :
      Query.Reachable next
  | startAt {q next : Query} {n : Int} (start : Query.Reachable q) (step : q.startAt n = .ok next) :
      Query.Reachable next
  | counting {q : Query} (start : Query.Reachable q) : Query.Reachable q.counting
  | join {q next : Query} {path : RelationPath} (start : Query.Reachable q) (walked : path.Walked)
      (step : q.join path = .ok next) : Query.Reachable next
  | joinWith {q next query : Query} {path : RelationPath} (start : Query.Reachable q)
      (walked : path.Walked) (joined : Query.Reachable query)
      (step : q.joinWith path query = .ok next) : Query.Reachable next

inductive Condition.Made : Condition → Prop
  | compare {p : AttributePath} {comparator : Comparator} {operand : Operand} {c : Condition}
      (walked : p.Walked) (made : Operand.Made operand)
      (step : p.compare comparator operand = .ok c) : Condition.Made c
  | junction {kind : Junction} {children : List Condition} {c : Condition}
      (made : ∀ child ∈ children, Condition.Made child)
      (step : Condition.junction? kind children = .ok c) : Condition.Made c
  | and {a b : Condition} (left : Condition.Made a) (right : Condition.Made b) :
      Condition.Made (a.and b)
  | or {a b : Condition} (left : Condition.Made a) (right : Condition.Made b) :
      Condition.Made (a.or b)
  | not {c : Condition} (made : Condition.Made c) : Condition.Made (.not c)

/-- Values need no making; a subquery comes from a query. -/
inductive Operand.Made : Operand → Prop
  | literal (v : Value) : Operand.Made (.literal v)
  | list (values : List Value) : Operand.Made (.list values)
  | subquery {q : Query} {s : Subquery} (reachable : Query.Reachable q)
      (step : q.subquery = .ok s) : Operand.Made (.subquery s)

end

end RecordQuery
