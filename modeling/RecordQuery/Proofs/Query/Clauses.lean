import RecordQuery.Proofs.Query.Nested

/-!
# Clauses of a statement

A reader who cuts a statement at the clause words outside all parentheses finds each clause at most
once, in a fixed order, and in it exactly what the query says: no word of a statement in parentheses
is taken for one of the statement around it. The same holds for all statements inside, so queries
that differ in a clause have different texts.
-/

namespace RecordQuery

/-! ### Sort keys -/

namespace SortKey

/-- What a sort key says to a reader: names, a direction, and where null values stand. -/
def reading (key : SortKey) : List String × Option Direction × Option NullPlacement :=
  (key.path.segments, key.direction, key.nulls)

/-- The words behind the path. -/
def words (direction : Option Direction) (nulls : Option NullPlacement) : Fragment :=
  (match direction with
    | none => []
    | some .ascending => [.keyword .ASC]
    | some .descending => [.keyword .DESC])
  ++ (match nulls with
    | none => []
    | some .first => [.keyword .NULLS, .keyword .FIRST]
    | some .last => [.keyword .NULLS, .keyword .LAST])

variable {a b : SortKey}

theorem words_head (direction : Option Direction) (nulls : Option NullPlacement) :
    (words direction nulls).head? ≠ some .dot := by
  rcases direction with _ | _ | _ <;> rcases nulls with _ | _ | _ <;> nofun

theorem words_injective {direction direction' : Option Direction}
    {nulls nulls' : Option NullPlacement} (same : words direction nulls = words direction' nulls') :
    direction = direction' ∧ nulls = nulls' := by
  rcases direction with _ | _ | _ <;> rcases nulls with _ | _ | _ <;>
    rcases direction' with _ | _ | _ <;> rcases nulls' with _ | _ | _ <;>
      first | exact ⟨rfl, rfl⟩ | cases same

theorem reading_of_fragment (same : a.fragment = b.fragment) : a.reading = b.reading := by
  have split (key : SortKey) : key.fragment = .name key.path.root.objectName ::
      (Fragment.dotted (key.path.hops.map Hop.externalName ++ [key.path.externalName]) ++
        words key.direction key.nulls) := by
    rw [SortKey.fragment, AttributePath.fragment, AttributePath.segments, List.cons_append,
      Fragment.path_cons, List.append_assoc]
    rfl
  rw [split a, split b] at same
  obtain ⟨root, rest⟩ := List.cons.inj same
  obtain ⟨names, behind⟩ := Fragment.dotted_unique (words_head _ _) (words_head _ _) rest
  obtain ⟨direction, nulls⟩ := words_injective behind
  rw [reading, reading, AttributePath.segments, AttributePath.segments, List.cons_append,
    List.cons_append, names, direction, nulls, Chunk.name.inj root]

theorem readings_of_fragments {as bs : List SortKey}
    (same : as.map SortKey.fragment = bs.map SortKey.fragment) :
    as.map reading = bs.map reading := by
  rw [← List.forall₂_eq_eq_eq, List.forall₂_map_left_iff, List.forall₂_map_right_iff] at same ⊢
  exact same.imp fun _ _ => reading_of_fragment

end SortKey

/-! ### Lookups and items -/

namespace Fragment

theorem keyword_beq (j k : Keyword) : (Chunk.keyword j == .keyword k) = decide (j = k) := by
  cases j <;> cases k <;> rfl

theorem lookup_optional {α : Type} (o : Option α) (j k : Keyword) (text : α → Fragment) :
    ((o.map fun a => (Chunk.keyword k, text a)).toList).lookup (.keyword j) =
      if j = k then o.map text else none := by
  cases o with
  | none => simp
  | some a => by_cases same : j = k <;> simp [List.lookup_cons, keyword_beq, same]

/-- A sort key has no comma. -/
theorem clear_sortKey (key : SortKey) : Clear Chunk.isComma key.fragment := by
  refine .append (.append (.path rfl (fun _ => rfl) _) ?_) ?_
  · match key.direction with
    | none => exact .nil
    | some .ascending => exact .chunk nofun nofun rfl .nil
    | some .descending => exact .chunk nofun nofun rfl .nil
  · match key.nulls with
    | none => exact .nil
    | some .first => exact .chunk nofun nofun rfl (.chunk nofun nofun rfl .nil)
    | some .last => exact .chunk nofun nofun rfl (.chunk nofun nofun rfl .nil)

theorem path_ne_nil (first : String) (rest : List String) : path (first :: rest) ≠ [] := by
  rw [path_cons]
  exact List.cons_ne_nil _ _

theorem items_order (keys : List SortKey) :
    (separated .comma (keys.map SortKey.fragment)).items = keys.map SortKey.fragment := by
  refine items_separated (fun f mem => ?_) (fun f mem => ?_)
  · obtain ⟨key, _, rfl⟩ := List.mem_map.mp mem
    exact clear_sortKey key
  · obtain ⟨key, _, rfl⟩ := List.mem_map.mp mem
    apply List.append_ne_nil_of_left_ne_nil
    apply List.append_ne_nil_of_left_ne_nil
    exact path_ne_nil _ _

end Fragment

namespace Statement

/-- What a reader of the text finds in its clauses is what the query says. -/
structure Divided (s : Statement) : Prop where
  balanced : s.fragment.Balanced
  whole : Fragment.assemble s.fragment.sections = s.fragment
  ordered : (s.fragment.sections.map Prod.fst).Sublist (clauseWords.map Chunk.keyword)
  select : (s.fragment.clause? .SELECT).map Fragment.items = some s.query.items
  counted : s.fragment.clause? .SELECT = some [.raw "COUNT()"] ↔ s.query.count = true
  source : s.fragment.clause? .FROM = some (.path s.source)
  filter : s.fragment.clause? .WHERE = s.query.filter.map Condition.fragment
  unsorted : s.fragment.clause? .ORDER = none ↔ s.query.order = []
  sorted : ∀ text, s.fragment.clause? .ORDER = some text → ∃ list : Fragment,
    text = .keyword .BY :: list ∧ list.items = s.query.order.map SortKey.fragment
  limit : s.fragment.clause? .LIMIT = s.query.limit.map fun n => [.number n]
  offset : s.fragment.clause? .OFFSET = s.query.offset.map fun n => [.number n]

variable {s t : Statement} {q r : Query} {k : Keyword}

/-! ### One statement -/

theorem sections_eq (grounded : s.query.Grounded) : s.fragment.sections = s.pieces := by
  rw [fragment_eq]
  refine Fragment.sections_assemble (opensClause_pieces s) (clear_pieces grounded ?_)
  exact fun t encloses => balanced t (encloses.grounded grounded)

theorem clause?_eq (grounded : s.query.Grounded) (k : Keyword) :
    s.fragment.clause? k = s.pieces.lookup (.keyword k) := by
  rw [Fragment.clause?, sections_eq grounded]

/-- The text behind a word other than the first two. -/
theorem clause?_later (grounded : s.query.Grounded) (select : k ≠ .SELECT) (source : k ≠ .FROM) :
    s.fragment.clause? k =
      (if k = .WHERE then s.query.filter.map Condition.fragment else none).or
        ((if k = .ORDER then s.query.ordering?.map Query.orderText else none).or
          ((if k = .LIMIT then s.query.limit.map fun n => [.number n] else none).or
            (if k = .OFFSET then s.query.offset.map fun n => [.number n] else none))) := by
  rw [clause?_eq grounded, pieces, Query.laterPieces]
  simp [List.lookup_cons, List.lookup_append, Fragment.lookup_optional, Fragment.keyword_beq, select,
    source]

theorem map_fst_optional {α : Type} (o : Option α) (c : Chunk) (text : α → Fragment) :
    (((o.map fun a => (c, text a)).toList).map Prod.fst).Sublist [c] := by
  cases o <;> simp

theorem words_sublist (s : Statement) :
    (s.pieces.map Prod.fst).Sublist (clauseWords.map Chunk.keyword) := by
  simp only [pieces, Query.laterPieces, List.map_cons, List.map_append]
  have filter := map_fst_optional s.query.filter (.keyword .WHERE) Condition.fragment
  have order := map_fst_optional s.query.ordering? (.keyword .ORDER) Query.orderText
  have limit := map_fst_optional s.query.limit (.keyword .LIMIT) fun n => [.number n]
  have offset := map_fst_optional s.query.offset (.keyword .OFFSET) fun n => [.number n]
  exact ((((filter.append order).append limit).append offset).cons_cons _).cons_cons _

theorem items_read (grounded : s.query.Grounded) :
    (Fragment.separated .comma s.query.items).items = s.query.items := by
  refine Fragment.items_separated (fun item mem => ?_) (fun item mem => ?_)
  · rcases (mem_items grounded.wellFormed).mp mem with
      ⟨_, rfl⟩ | ⟨listing, ⟨_, _, rfl⟩ | ⟨path, sub, subselects, rfl⟩⟩
    · exact .chunk nofun nofun rfl .nil
    · exact .path rfl (fun _ => rfl) _
    · obtain ⟨q, source⟩ := s
      have encloses : Encloses ⟨q, source⟩ ⟨sub, q.root.objectName :: path⟩ :=
        .subselect listing subselects
      exact .parens (balanced _ (encloses.grounded grounded))
  · rcases (mem_items grounded.wellFormed).mp mem with
      ⟨_, rfl⟩ | ⟨_, ⟨_, _, rfl⟩ | ⟨_, _, _, rfl⟩⟩
    · exact List.cons_ne_nil _ _
    · exact Fragment.path_ne_nil _ _
    · exact List.cons_ne_nil _ _

theorem counts_iff (grounded : s.query.Grounded) :
    Fragment.separated .comma s.query.items = [.raw "COUNT()"] ↔ s.query.count = true := by
  constructor
  · intro same
    have read := items_read grounded
    rw [same] at read
    have item : [Chunk.raw "COUNT()"] ∈ s.query.items := by
      rw [← read]
      exact List.mem_cons_self
    rcases (mem_items grounded.wellFormed).mp item with
      ⟨count, _⟩ | ⟨_, ⟨_, _, same⟩ | ⟨_, _, _, same⟩⟩
    · exact count
    · rw [Fragment.path_cons] at same
      cases same
    · cases same
  · intro count
    rw [Query.items, if_pos count]
    rfl

theorem divided (grounded : s.query.Grounded) : s.Divided where
  balanced := balanced s grounded
  whole := by rw [sections_eq grounded, fragment_eq]
  ordered := by
    rw [sections_eq grounded]
    exact words_sublist s
  select := by
    rw [clause?_eq grounded]
    exact congrArg some (items_read grounded)
  counted := by
    rw [clause?_eq grounded, ← counts_iff grounded]
    exact Option.some_inj
  source := by
    rw [clause?_eq grounded]
    rfl
  filter := by
    rw [clause?_later grounded (by decide) (by decide)]
    simp
  unsorted := by
    rw [clause?_later grounded (by decide) (by decide)]
    simp [Query.ordering?]
  sorted := by
    intro text found
    rw [clause?_later grounded (by decide) (by decide)] at found
    obtain ⟨keys, ordered, rfl⟩ : ∃ keys, s.query.ordering? = some keys ∧
        Query.orderText keys = text := by simpa using found
    refine ⟨_, rfl, ?_⟩
    rw [Fragment.items_order]
    simp only [Query.ordering?, Option.ite_none_left_eq_some] at ordered
    rw [Option.some.inj ordered.2]
  limit := by
    rw [clause?_later grounded (by decide) (by decide)]
    simp
  offset := by
    rw [clause?_later grounded (by decide) (by decide)]
    simp

theorem Divided.order_eq (hs : s.Divided) (ht : t.Divided) (same : s.fragment = t.fragment) :
    s.query.order.map SortKey.fragment = t.query.order.map SortKey.fragment := by
  cases found : s.fragment.clause? .ORDER with
  | none =>
    have other := same ▸ found
    rw [hs.unsorted.mp found, ht.unsorted.mp other]
  | some text =>
    obtain ⟨list, rfl, items⟩ := hs.sorted text found
    obtain ⟨list', split, items'⟩ := ht.sorted _ (same ▸ found)
    obtain ⟨_, rfl⟩ := List.cons.inj split
    rw [← items, ← items']

end Statement

namespace Query

variable {q : Query}

/-- Every statement inside a query, with itself, is read back clause by clause; these statements are
just what the parentheses that open with SELECT enclose; and a query of the same text has the same
filter, order, limit and offset in it, and counts if this one does. -/
theorem divided_of_reachable (reachable : q.Reachable) :
    (∀ s : Statement, s.Inside q.statement →
      s.Divided ∧ (s = q.statement ∨ s.fragment.parens <:+: q.fragment)) ∧
    (∀ before inner after : Fragment, inner.Balanced →
      q.fragment = before ++ (Fragment.parens (.keyword .SELECT :: inner) ++ after) →
        ∃ s : Statement, s.Inside q.statement ∧ s.fragment = .keyword .SELECT :: inner) ∧
    ∀ r : Query, r.Reachable → r.fragment = q.fragment →
      r.filter.map Condition.fragment = q.filter.map Condition.fragment ∧
        r.order.map SortKey.reading = q.order.map SortKey.reading ∧
          r.limit = q.limit ∧ r.offset = q.offset ∧ r.count = q.count := by
  have grounded := reachable.grounded
  refine ⟨fun s inside => ?_, fun before inner after closes split => ?_, fun r other same => ?_⟩
  · exact ⟨Statement.divided (inside.grounded grounded), inside.part grounded⟩
  · exact Statement.exists_inside (t := q.statement) grounded closes split
  · have mine : q.statement.Divided := Statement.divided grounded
    have theirs : r.statement.Divided := Statement.divided other.grounded
    have text : r.statement.fragment = q.statement.fragment := same
    have number : Function.Injective fun n : Nat => [Chunk.number n] := fun m n h => by simpa using h
    refine ⟨?_, SortKey.readings_of_fragments (theirs.order_eq mine text), ?_, ?_, ?_⟩
    · have filter := theirs.filter
      rw [text, mine.filter] at filter
      exact filter.symm
    · have limit := theirs.limit
      rw [text, mine.limit] at limit
      exact (Option.map_injective number limit).symm
    · have offset := theirs.offset
      rw [text, mine.offset] at offset
      exact (Option.map_injective number offset).symm
    · rw [Bool.eq_iff_iff]
      have counted := theirs.counted
      rw [text, mine.counted] at counted
      exact counted.symm

end Query

/-! ### At the sample -/

namespace Sample

/-- The subselect of the users in an account. -/
def usersStatement : Statement := ⟨joinedUsers, ["Account", "Users"]⟩

theorem usersStatement_inside : usersStatement.Inside accountsWithUsers.statement := by
  have mem : usersOfAccount joinedUsers ∈ accountsWithUsers.joins := List.mem_cons_self
  exact .enclosed (.subselect rfl (Query.subselects_refl mem rfl)) .refl

theorem accountsWithUsers_divided : accountsWithUsers.Reachable ∧
    usersStatement.Inside accountsWithUsers.statement ∧ usersStatement.Divided ∧
      usersStatement.fragment.clause? .WHERE = some isFirst.fragment := by
  have divided := (Query.divided_of_reachable accountsWithUsers_reachable).1 usersStatement
    usersStatement_inside
  exact ⟨accountsWithUsers_reachable, usersStatement_inside, divided.1, divided.1.filter⟩

end Sample

end RecordQuery
