import RecordQuery.Proofs.Query.Begins
import RecordQuery.Proofs.Query.Selection
import RecordQuery.Proofs.Query.Subqueries
import RecordQuery.Proofs.Query.Throughout

/-!
# Statements inside statements

A statement encloses the subselects of its select list and the subqueries in its filter, each in a
pair of parentheses, and these enclose further ones. Wherever SELECT stands in the text, one of them
begins.
-/

namespace RecordQuery

namespace Query

/-- The items between SELECT and FROM. -/
def items (q : Query) : List Fragment :=
  if q.count then [[.raw "COUNT()"]]
  else
    let projection := project [q.root.objectName] q
    projection.columns ++ projection.subselects

/-- The sort keys, if there are any. -/
def ordering? (q : Query) : Option (List SortKey) := if q.order.isEmpty then none else some q.order

/-- What follows the word ORDER. -/
def orderText (keys : List SortKey) : Fragment :=
  .keyword .BY :: Fragment.separated .comma (keys.map SortKey.fragment)

/-- The clauses behind the source, each with the word that opens it. -/
def laterPieces (q : Query) : List (Chunk × Fragment) :=
  (q.filter.map fun c => (Chunk.keyword .WHERE, c.fragment)).toList
    ++ (q.ordering?.map fun keys => (Chunk.keyword .ORDER, orderText keys)).toList
    ++ (q.limit.map fun n => (Chunk.keyword .LIMIT, [.number n])).toList
    ++ (q.offset.map fun n => (Chunk.keyword .OFFSET, [.number n])).toList

/-- Well formed, with filters that were made from comparisons. -/
structure Grounded (q : Query) : Prop where
  wellFormed : q.WellFormed
  made : q.Throughout FilterMade

theorem Reachable.grounded {q : Query} (h : q.Reachable) : q.Grounded :=
  ⟨h.wellFormed, h.filters_made⟩

theorem Grounded.within {q sub : Query} (h : q.Grounded) (inside : sub.Within q) : sub.Grounded :=
  ⟨h.wellFormed.within inside, fun s below => h.made s (below.trans inside)⟩

/-- A subquery in the filter was made from a query, and is written as that query in parentheses. -/
theorem Grounded.subquery {q : Query} {c : Condition} {s : Subquery} (h : q.Grounded)
    (filter : q.filter = some c) (taken : c.Takes (.subquery s)) :
    s.toQuery.Reachable ∧ s.fragment = s.toQuery.fragment.parens := by
  obtain ⟨made, _⟩ := (h.made.here c filter).takes taken
  cases made with
  | subquery reachable step =>
    rw [reachable.wellFormed.subquery_toQuery step]
    exact ⟨reachable, reachable.wellFormed.subquery_fragment step⟩

end Query

/-- A query with the names along the path that it reads from. -/
structure Statement where
  query : Query
  source : List String

/-- The statement of a query on its own reads from the object of the root. -/
def Query.statement (q : Query) : Statement := ⟨q, [q.root.objectName]⟩

namespace Statement

def fragment (s : Statement) : Fragment := s.query.statementFrom (.path s.source)

/-- The clauses, each with the word that opens it. -/
def pieces (s : Statement) : List (Chunk × Fragment) :=
  (.keyword .SELECT, Fragment.separated .comma s.query.items) ::
    (.keyword .FROM, .path s.source) :: s.query.laterPieces

/-- The second statement stands in parentheses in a clause of the first. -/
inductive Encloses : Statement → Statement → Prop
  | subselect {q sub : Query} {source path : List String} (listing : q.count = false)
      (subselects : q.Subselects path sub) :
      Encloses ⟨q, source⟩ ⟨sub, q.root.objectName :: path⟩
  | subquery {q : Query} {source : List String} {c : Condition} {s : Subquery}
      (filter : q.filter = some c) (taken : c.Takes (.subquery s)) :
      Encloses ⟨q, source⟩ s.toQuery.statement

/-- The statement itself, or one at some depth in its parentheses. -/
inductive Inside : Statement → Statement → Prop
  | refl {s : Statement} : Inside s s
  | enclosed {s t u : Statement} (first : u.Encloses t) (below : Inside s t) : Inside s u

variable {s t : Statement} {q sub : Query} {item : Fragment}

/-! ### The text by clauses -/

theorem fragment_eq (s : Statement) : s.fragment = Fragment.assemble s.pieces := by
  obtain ⟨⟨root, columns, joins, filter, order, limit, offset, count⟩, source⟩ := s
  have list : (if count = true then [Chunk.raw "COUNT()"]
      else (Query.Projection.append
        ⟨Query.columnItems [root.objectName] (Query.fieldsOf root columns), []⟩
        (Query.projectJoins [root.objectName] joins)).fragment) =
      Fragment.separated .comma
        (Query.items ⟨root, columns, joins, filter, order, limit, offset, count⟩) := by
    rw [Query.items, Query.project_eq]
    cases count <;> rfl
  have later : Query.clauses filter order limit offset = Fragment.assemble
      (Query.laterPieces ⟨root, columns, joins, filter, order, limit, offset, count⟩) := by
    simp only [Query.clauses, Query.laterPieces, Query.ordering?, Query.orderText, Fragment.assemble,
      List.flatMap_append]
    cases filter <;> cases order <;> cases limit <;> cases offset <;> simp
  rw [fragment, Query.statementFrom, pieces, list, later]
  simp only [Fragment.assemble_cons, List.cons_append, List.append_assoc]

theorem fragment_statement (q : Query) : q.statement.fragment = q.fragment := rfl

/-- What stands in a select list: the count, a column, or an enclosed statement. -/
theorem mem_items (wellFormed : q.WellFormed) : item ∈ q.items ↔
    q.count = true ∧ item = [.raw "COUNT()"] ∨
    q.count = false ∧ ((∃ c, q.Selects c ∧ item = .path (q.root.objectName :: c)) ∨
      ∃ path sub, q.Subselects path sub ∧
        item = (Statement.mk sub (q.root.objectName :: path)).fragment.parens) := by
  rw [Query.items]
  cases q.count with
  | true => simp
  | false =>
    rw [if_neg Bool.false_ne_true, List.mem_append, Query.mem_project_columns wellFormed,
      Query.mem_project_subselects wellFormed]
    simp [fragment]

/-! ### Enclosed statements -/

/-- What follows the word SELECT. -/
def body (s : Statement) : Fragment :=
  Fragment.separated .comma s.query.items ++
    Fragment.assemble ((.keyword .FROM, .path s.source) :: s.query.laterPieces)

theorem fragment_body (s : Statement) : s.fragment = .keyword .SELECT :: s.body := by
  rw [fragment_eq]
  rfl

theorem Encloses.grounded (h : t.Encloses s) (grounded : t.query.Grounded) :
    s.query.Grounded := by
  cases h with
  | subselect _ subselects =>
    obtain ⟨inline, mem, _⟩ := subselects
    exact grounded.within ((Query.Within.joined mem .refl).trans inline.within)
  | subquery filter taken => exact (grounded.subquery filter taken).1.grounded

theorem Encloses.part (h : t.Encloses s) (grounded : t.query.Grounded) :
    s.fragment.parens <:+: t.body := by
  cases h with
  | @subselect q sub source path listing subselects =>
    have item := (mem_items grounded.wellFormed).mpr (.inr ⟨listing, .inr ⟨_, _, subselects, rfl⟩⟩)
    exact (Fragment.infix_separated item).trans (List.prefix_append _ _).isInfix
  | @subquery q source c s filter taken =>
    have clause : (Chunk.keyword .WHERE, c.fragment) ∈
        (.keyword .FROM, Fragment.path source) :: q.laterPieces := by
      simp [Query.laterPieces, filter]
    have inner := taken.part
    rw [Operand.fragment, (grounded.subquery filter taken).2] at inner
    exact (inner.trans (Fragment.infix_assemble clause)).trans (List.suffix_append _ _).isInfix

theorem Encloses.length_lt (h : t.Encloses s) (grounded : t.query.Grounded) :
    s.fragment.length < t.fragment.length := by
  have shorter := (h.part grounded).length_le
  rw [fragment_body t, List.length_cons]
  simp only [Fragment.parens, List.length_append, List.length_cons] at shorter
  omega

/-- What passes from all enclosed statements to the statement around them holds of every one. -/
theorem induction {P : Statement → Prop}
    (step : ∀ t : Statement, t.query.Grounded → (∀ s, t.Encloses s → P s) → P t) :
    ∀ t : Statement, t.query.Grounded → P t := by
  intro t grounded
  generalize size : t.fragment.length = n
  induction n using Nat.strongRecOn generalizing t with
  | ind n ih =>
    refine step t grounded fun s encloses => ?_
    exact ih _ (size ▸ encloses.length_lt grounded) s (encloses.grounded grounded) rfl

theorem Inside.grounded (h : s.Inside t) (grounded : t.query.Grounded) : s.query.Grounded := by
  induction h with
  | refl => exact grounded
  | enclosed first _ ih => exact ih (first.grounded grounded)

/-- Every enclosed statement stands in parentheses of its own in the text. -/
theorem Inside.part (h : s.Inside t) (grounded : t.query.Grounded) :
    s = t ∨ s.fragment.parens <:+: t.fragment := by
  induction h with
  | refl => exact .inl rfl
  | @enclosed t u first _ ih =>
    have inner := first.part grounded
    have whole : u.body <:+: u.fragment := by
      rw [fragment_body]
      exact (List.suffix_cons _ _).isInfix
    rcases ih (first.grounded grounded) with rfl | deeper
    · exact .inr (inner.trans whole)
    · exact .inr ((deeper.trans (Fragment.infix_parens _)).trans (inner.trans whole))

/-! ### Properties of the text

A property that passes from enclosed statements in parentheses to the text around them is shown
clause by clause, once for all such properties. -/

theorem mem_laterPieces {p : Chunk × Fragment} : p ∈ q.laterPieces ↔
    (∃ c, q.filter = some c ∧ p = (.keyword .WHERE, c.fragment)) ∨
    (∃ keys, q.ordering? = some keys ∧ p = (.keyword .ORDER, Query.orderText keys)) ∨
    (∃ n, q.limit = some n ∧ p = (.keyword .LIMIT, [.number n])) ∨
    ∃ n, q.offset = some n ∧ p = (.keyword .OFFSET, [.number n]) := by
  simp only [Query.laterPieces, List.mem_append, Option.mem_toList, Option.map_eq_some_iff, or_assoc,
    eq_comm (a := p)]

theorem opensClause_pieces (s : Statement) : ∀ p ∈ s.pieces, p.1.opensClause = true := by
  intro p mem
  rcases List.mem_cons.mp mem with rfl | mem
  · rfl
  rcases List.mem_cons.mp mem with rfl | mem
  · rfl
  rcases mem_laterPieces.mp mem with ⟨_, _, rfl⟩ | ⟨_, _, rfl⟩ | ⟨_, _, rfl⟩ | ⟨_, _, rfl⟩
  · rfl
  · rfl
  · rfl
  · rfl

theorem later_words (s : Statement) : ∀ p ∈ s.pieces.tail, p.1 ≠ .keyword .SELECT := by
  intro p mem
  rcases List.mem_cons.mp mem with rfl | mem
  · nofun
  rcases mem_laterPieces.mp mem with ⟨_, _, rfl⟩ | ⟨_, _, rfl⟩ | ⟨_, _, rfl⟩ | ⟨_, _, rfl⟩
  · nofun
  · nofun
  · nofun
  · nofun

/-- What holds of the pieces, of the values in the filter and of the enclosed statements in
parentheses holds of every clause. -/
theorem pieces_closed {P : Fragment → Prop} (closed : Fragment.Closed P)
    (grounded : t.query.Grounded) (counted : P [.raw "COUNT()"]) (numbers : ∀ n, P [.number n])
    (values : ∀ c, t.query.filter = some c → ∀ o, c.Takes o → ∀ v ∈ o.values, P [.literal v])
    (enclosed : ∀ s, t.Encloses s → P s.fragment.parens) : ∀ p ∈ t.pieces, P p.2 := by
  obtain ⟨q, source⟩ := t
  intro p mem
  rcases List.mem_cons.mp mem with rfl | mem
  · refine closed.separated closed.comma fun item inside => ?_
    rcases (mem_items grounded.wellFormed).mp inside with
      ⟨_, rfl⟩ | ⟨_, ⟨_, _, rfl⟩ | ⟨path, sub, subselects, rfl⟩⟩
    · exact counted
    · exact closed.path _
    · exact enclosed _ (.subselect ‹_› subselects)
  rcases List.mem_cons.mp mem with rfl | mem
  · exact closed.path _
  rcases mem_laterPieces.mp mem with ⟨c, filter, rfl⟩ | ⟨keys, _, rfl⟩ | ⟨n, _, rfl⟩ | ⟨n, _, rfl⟩
  · refine c.fragment_closed closed fun o taken => ?_
    cases o with
    | literal v => exact values c filter _ taken v List.mem_cons_self
    | list vs => exact closed.values (values c filter _ taken)
    | subquery s =>
      have inner := enclosed _ (.subquery filter taken)
      rw [fragment_statement, ← (grounded.subquery filter taken).2] at inner
      exact inner
  · refine closed.cons (closed.keyword (by decide)) (closed.separated closed.comma fun f mem => ?_)
    obtain ⟨key, _, rfl⟩ := List.mem_map.mp mem
    exact closed.sortKey key
  · exact numbers n
  · exact numbers n

/-! ### Balance and beginnings -/

theorem clear_pieces (grounded : t.query.Grounded)
    (enclosed : ∀ s, t.Encloses s → s.fragment.Balanced) :
    ∀ p ∈ t.pieces, Fragment.Clear Chunk.opensClause p.2 := by
  refine pieces_closed Fragment.clear_closed grounded ?_ (fun n => ?_) (fun c _ o _ v _ => ?_) ?_
  · exact .chunk nofun nofun rfl .nil
  · exact .chunk nofun nofun rfl .nil
  · exact .chunk nofun nofun rfl .nil
  · exact fun s encloses => .parens (enclosed s encloses)

theorem balanced : ∀ t : Statement, t.query.Grounded → t.fragment.Balanced := by
  refine Statement.induction fun t grounded ih => ?_
  rw [fragment_eq]
  exact Fragment.balanced_assemble (opensClause_pieces t) (clear_pieces grounded ih)

/-- Wherever SELECT stands behind the first, a statement inside begins. -/
theorem begins : ∀ t : Statement, t.query.Grounded →
    Fragment.Begins (fun f => ∃ s : Statement, s.Inside t ∧ s.fragment = f) t.body := by
  refine Statement.induction fun t grounded ih => ?_
  let Inner (f : Fragment) : Prop := ∃ s : Statement, s.Inside t ∧ s.fragment = f
  have pieces : ∀ p ∈ t.pieces, Fragment.Begins Inner p.2 := by
    refine pieces_closed Fragment.Begins.closed grounded ?_ (fun n => ?_) (fun c _ o _ v _ => ?_) ?_
    · exact .cons nofun .nil
    · exact .cons nofun .nil
    · exact .cons nofun .nil
    · intro s encloses
      rw [fragment_body]
      refine .statement ⟨s, .enclosed encloses .refl, fragment_body s⟩ ?_
      refine (ih s encloses).imp fun f inside => ?_
      obtain ⟨inner, below, same⟩ := inside
      exact ⟨inner, .enclosed encloses below, same⟩
  refine (pieces _ List.mem_cons_self).append (.assemble ?_ ?_)
  · exact later_words t
  · exact fun p mem => pieces p (List.mem_cons_of_mem _ mem)

/-- A pair of parentheses that opens with SELECT encloses one of the statements inside. -/
theorem exists_inside (grounded : t.query.Grounded) {before inner after : Fragment}
    (closes : inner.Balanced)
    (split : t.fragment = before ++ (Fragment.parens (.keyword .SELECT :: inner) ++ after)) :
    ∃ s : Statement, s.Inside t ∧ s.fragment = .keyword .SELECT :: inner := by
  rw [fragment_body] at split
  cases before with
  | nil =>
    -- The whole statement does not open with a parenthesis.
    simp [Fragment.parens, Chunk.keyword, Chunk.leftParen] at split
  | cons c before =>
    have rest : t.body = (before ++ [.leftParen]) ++
        .keyword .SELECT :: (inner ++ .rightParen :: after) := by
      have tail := (List.cons.inj split).2
      simpa using tail
    obtain ⟨found, behind, same, s, inside, text⟩ := begins t grounded _ _ rest
    refine ⟨s, inside, ?_⟩
    -- Both end at the first parenthesis that closes behind this SELECT.
    have whole := balanced s (inside.grounded grounded)
    rw [text] at whole
    cases whole with
    | chunk _ _ ends =>
      obtain ⟨rfl, _⟩ := closes.closing_unique ends same
      exact text

end Statement

end RecordQuery
