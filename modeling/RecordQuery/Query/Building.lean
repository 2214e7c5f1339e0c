import RecordQuery.Query.Basic

/-!
# Building queries

Each operation gives the changed query or the reason why its argument does not belong to the
query. Joining along a path adds the joins that are missing on the way and keeps those that are
there.
-/

namespace RecordQuery.Query

variable (q : Query)

/-! ### Columns, filter, order and cut -/

/-- Checks columns after those chosen before them. -/
def checkColumns (root : Model) (earlier : List AttributePath) :
    List AttributePath → Except Error Unit
  | [] => .ok ()
  | p :: rest =>
    if p.root ≠ root then .error (.invalidColumn root.name p.fieldPath .otherRoot)
    else if !p.isDirect then .error (.invalidColumn root.name p.fieldPath .indirect)
    else if earlier.any (·.field == p.field) then
      .error (.invalidColumn root.name p.fieldPath .repeated)
    else checkColumns root (earlier ++ [p]) rest

/-- Chooses the columns to read, none standing for all. -/
def choose (columns : List AttributePath) : Except Error Query := do
  checkColumns q.root [] columns
  return { q with columns }

/-- A condition and an order may reach over single-valued relationships only. -/
def checkReference (root : Model) (p : AttributePath) : Except Error Unit :=
  if p.root ≠ root then .error (.invalidColumn root.name p.fieldPath .foreignReference)
  else if p.crossesMany then .error (.invalidColumn root.name p.fieldPath .acrossMany)
  else .ok ()

/-- Replaces the filter. -/
def suchThat (condition : Condition) : Except Error Query := do
  condition.paths.forM (checkReference q.root)
  return { q with filter := some condition }

/-- Adds a sort key after those there are. -/
def orderBy (key : SortKey) : Except Error Query := do
  checkReference q.root key.path
  return { q with order := q.order ++ [key] }

def limitTo (n : Int) : Except Error Query :=
  if n < 0 then .error (.negativeLimit n) else .ok { q with limit := some n.toNat }

def startAt (n : Int) : Except Error Query :=
  if n < 0 then .error (.negativeOffset n) else .ok { q with offset := some n.toNat }

def counting : Query := { q with count := true }

/-! ### Joins -/

/-- The join over a relationship of a model with all scalar fields of the related records. -/
def defaultJoin (root : Model) (field : String) : Except Error (Join Query) := do
  let target ← root.related field
  let attr ← root.attr field
  return ⟨field, attr, select target⟩

/-- Changes the join over a field, which is the default join at the end if there is none. -/
def changeJoin (root : Model) (field : String) (change : Join Query → Except Error (Join Query)) :
    List (Join Query) → Except Error (List (Join Query))
  | [] => do return [← change (← defaultJoin root field)]
  | j :: rest =>
    if j.field = field then do return (← change j) :: rest
    else do return j :: (← changeJoin root field change rest)

def onJoin (field : String) (change : Join Query → Except Error (Join Query)) :
    Except Error Query := do
  return { q with joins := ← changeJoin q.root field change q.joins }

/-- Changes the query reached over a path of fields. -/
def along (change : Query → Except Error Query) : List String → Query → Except Error Query
  | [], q => change q
  | field :: rest, q =>
    q.onJoin field fun j => do return { j with query := ← along change rest j.query }

def checkStart (path : RelationPath) : Except Error Unit :=
  if path.root = q.root then .ok ()
  else .error (.invalidJoin q.root.name path.last.field .otherRoot)

/-- Joins the records along a path. -/
def join (path : RelationPath) : Except Error Query := do
  q.checkStart path
  along .ok path.fields q

/-- Puts a query in the place of a joined one and keeps the joins it does not have itself. -/
def replaceJoined (parent : Model) (query : Query) (j : Join Query) :
    Except Error (Join Query) :=
  let fail (fault : JoinFault) : Except Error (Join Query) :=
    .error (.invalidJoin parent.name j.field fault)
  if query.root ≠ j.query.root then fail .otherTarget
  else if query.count then fail .countJoined
  else if !j.attr.isMany && query.isRestricted then fail .restrictedSingle
  else
    let kept := j.query.joins.filter fun old => (query.joinFor? old.field).isNone
    .ok { j with query := { query with joins := query.joins ++ kept } }

/-- Joins the records along a path with a query of their own. -/
def joinWith (path : RelationPath) (query : Query) : Except Error Query := do
  q.checkStart path
  along (fun parent => parent.onJoin path.last.field (replaceJoined parent.root query))
    (path.parents.map Hop.field) q

/-! ### Subqueries -/

/-- The query as an operand: it has exactly one column and at most a filter. -/
def subquery : Except Error Subquery :=
  let fail (fault : SubqueryFault) : Except Error Subquery :=
    .error (.invalidSubquery q.root.name fault)
  if !q.joins.isEmpty then fail .joined
  else if !q.order.isEmpty then fail .ordered
  else if q.limit.isSome then fail .limited
  else if q.offset.isSome then fail .skipping
  else if q.count then fail .counted
  else
    match q.selected with
    | [f] => do
      let column ← q.root.attributeAt f.name
      return .selecting column (!q.columns.isEmpty) q.filter
    | _ => fail .notOneColumn

end RecordQuery.Query
