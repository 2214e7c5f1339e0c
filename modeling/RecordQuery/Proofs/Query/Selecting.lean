import RecordQuery.Proofs.Loading.Answered
import RecordQuery.Proofs.Query.Clauses

/-!
# Statements with something to select

A statement that does not count lists the columns and the subselects of the queries inline in it.
The list is empty when there are none, and this happens in no other way: a model without scalar
fields has nothing to offer on its own.
-/

namespace RecordQuery

/-- What the grammar has in a select list: a dotted path to a column, or a subselect. -/
inductive Fragment.Listable : Fragment → Prop
  | column (object first : String) (rest : List String) :
      Listable (.path (object :: first :: rest))
  | subselect {inner : Fragment} (closes : inner.Balanced) :
      Listable (Fragment.parens (.keyword .SELECT :: inner))

namespace Statement

/-- Between SELECT and FROM stands the count, or a list with at least one item. -/
def Selecting (s : Statement) : Prop :=
  ∃ list : Fragment, s.fragment.clause? .SELECT = some list ∧
    (list = [.raw "COUNT()"] ∨ list.items ≠ [] ∧ ∀ item ∈ list.items, item.Listable)

variable {s t : Statement} {q : Query} {item : Fragment}

theorem listable_of_mem (grounded : s.query.Grounded) (listing : s.query.count = false)
    (mem : item ∈ s.query.items) : item.Listable := by
  obtain ⟨q, source⟩ := s
  rcases (mem_items grounded.wellFormed).mp mem with
    ⟨counts, _⟩ | ⟨_, ⟨c, selects, rfl⟩ | ⟨path, sub, subselects, rfl⟩⟩
  · rw [listing] at counts
    cases counts
  · obtain @⟨sub, path, f, _, _⟩ := selects
    cases path with
    | nil => exact .column _ _ []
    | cons first rest => exact .column _ _ _
  · have encloses : Encloses ⟨q, source⟩ ⟨sub, q.root.objectName :: path⟩ :=
      .subselect listing subselects
    have whole := balanced _ (encloses.grounded grounded)
    rw [fragment_body] at whole ⊢
    cases whole with
    | chunk _ _ closes => exact .subselect closes

theorem items_ne_nil (wellFormed : q.WellFormed) (listing : q.count = false) :
    q.items ≠ [] ↔ q.Asks [] := by
  constructor
  · intro filled
    obtain ⟨item, mem⟩ := List.exists_mem_of_ne_nil _ filled
    rcases (mem_items wellFormed).mp mem with
      ⟨counts, _⟩ | ⟨_, ⟨c, selects, _⟩ | ⟨path, sub, subselects, _⟩⟩
    · rw [listing] at counts
      cases counts
    · exact .inl ⟨c, selects⟩
    · exact .inr ⟨path, sub, subselects⟩
  · intro asks
    rcases asks with ⟨c, selects⟩ | ⟨path, sub, subselects⟩
    · have item := (mem_items wellFormed).mpr (.inr ⟨listing, .inl ⟨c, selects, rfl⟩⟩)
      exact List.ne_nil_of_mem item
    · have item :=
        (mem_items wellFormed).mpr (.inr ⟨listing, .inr ⟨path, sub, subselects, rfl⟩⟩)
      exact List.ne_nil_of_mem item

/-- A statement selects something exactly when it counts or its query asks for something. -/
theorem selecting_iff (grounded : s.query.Grounded) :
    s.Selecting ↔ s.query.count = true ∨ s.query.Asks [] := by
  have divided := divided grounded
  obtain ⟨list, found, read⟩ := Option.map_eq_some_iff.mp divided.select
  have asks (listing : s.query.count = false) : list.items ≠ [] ↔ s.query.Asks [] := by
    rw [read, items_ne_nil grounded.wellFormed listing]
  constructor
  · intro h
    obtain ⟨_, same, shape⟩ := h
    obtain rfl := Option.some.inj (found.symm.trans same)
    rcases shape with rfl | ⟨filled, _⟩
    · exact .inl (divided.counted.mp found)
    · cases count : s.query.count with
      | true => exact .inl rfl
      | false => exact .inr ((asks count).mp filled)
  · intro h
    cases count : s.query.count with
    | true => exact ⟨_, divided.counted.mpr count, .inl rfl⟩
    | false =>
      have asked : s.query.Asks [] := by simpa [count] using h
      refine ⟨list, found, .inr ⟨(asks count).mpr asked, fun item mem => ?_⟩⟩
      exact listable_of_mem grounded count (read ▸ mem)

end Statement

/-! ### Models with scalar fields -/

namespace Query

variable {q : Query} {m : Model}

theorem asks_select : (select m).Asks [] ↔ m.schema.columns ≠ [] := by
  have selected : (select m).selected = m.schema.columns := rfl
  constructor
  · intro asks
    rcases asks with ⟨c, selects⟩ | ⟨path, sub, subselects⟩
    · rcases selects_iff.mp selects with ⟨f, mem, _⟩ | ⟨j, mem, _⟩
      · exact List.ne_nil_of_mem (selected ▸ mem)
      · cases mem
    · rcases subselects_iff.mp subselects with ⟨j, mem, _⟩ | ⟨j, mem, _⟩
      · cases mem
      · cases mem
  · intro filled
    obtain ⟨f, mem⟩ := List.exists_mem_of_ne_nil _ filled
    exact .inl ⟨_, selects_refl mem⟩

/-- The chosen columns are scalar fields, and if none are chosen all of them are read. -/
theorem asks_of_columns (filled : q.root.schema.columns ≠ []) : q.Asks [] := by
  have read : q.selected ≠ [] := by
    rw [selected, fieldsOf]
    split
    · exact filled
    · next chosen => simpa using chosen
  obtain ⟨f, mem⟩ := List.exists_mem_of_ne_nil _ read
  exact .inl ⟨_, selects_refl mem⟩

end Query

/-- A statement has something to select exactly when it counts or asks for something. All statements
over a registry do, wherever they stand, exactly when every schema of it has a scalar field. -/
theorem Registry.Built.all_selecting {r : Registry} (built : r.Built) :
    (∀ q : Query, q.Reachable → ∀ s : Statement, s.Inside q.statement →
      (s.Selecting ↔ s.query.count = true ∨ s.query.Asks [])) ∧
    ((∀ q : Query, q.Reachable → ∀ s : Statement, s.Inside q.statement →
      s.query.root.registry = r → s.Selecting) ↔
        ∀ schema ∈ r.schemas, schema.columns ≠ []) := by
  have single (q : Query) (reachable : q.Reachable) (s : Statement)
      (inside : s.Inside q.statement) :
      s.Selecting ↔ s.query.count = true ∨ s.query.Asks [] :=
    Statement.selecting_iff (inside.grounded reachable.grounded)
  refine ⟨single, fun all schema mem => ?_, fun filled q reachable s inside same => ?_⟩
  · let m : Model := ⟨r, schema, mem⟩
    have reachable : (Query.select m).Reachable := .select built
    have selects := all _ reachable _ .refl rfl
    rcases (single _ reachable _ .refl).mp selects with counts | asks
    · cases counts
    · exact Query.asks_select.mp asks
  · refine (single q reachable s inside).mpr (.inr (Query.asks_of_columns ?_))
    exact filled _ (same ▸ s.query.root.mem)

/-! ### At the samples -/

namespace Sample

theorem usersStatement_selecting : registry.Built ∧ accountsWithUsers.Reachable ∧
    usersStatement.Inside accountsWithUsers.statement ∧ usersStatement.Selecting := by
  have whole := Registry.Built.all_selecting registry_built
  have filled : ∀ schema ∈ registry.schemas, schema.columns ≠ [] := by decide
  refine ⟨registry_built, accountsWithUsers_reachable, usersStatement_inside, ?_⟩
  exact whole.2.mpr filled _ accountsWithUsers_reachable _ usersStatement_inside rfl

/-- A group has no scalar field, and nothing stands between SELECT and FROM when it is selected. -/
theorem group_unselecting : group.registry.Built ∧ (Query.select group).Reachable ∧
    (Query.select group).text = "SELECT FROM Group" ∧
      ¬ (Query.select group).statement.Selecting := by
  refine ⟨taskRegistry_built, .select taskRegistry_built, by decide, fun selecting => ?_⟩
  obtain ⟨list, found, shape⟩ := selecting
  obtain rfl : [] = list := Option.some.inj found
  rcases shape with impossible | ⟨filled, _⟩
  · cases impossible
  · exact filled rfl

end Sample

end RecordQuery
