import RecordQuery.Proofs.Query.WellFormed
import RecordQuery.Query.Statement

/-!
# Items of a select list

A query under a single-valued join adds its columns to the statement that it stands in, and a query
under a one-to-many join is a statement of its own. What a statement asks for is therefore read off
the queries that are inline in it.
-/

namespace RecordQuery

namespace Query

/-- The columns of `sub` stand in the select list of `q`, under a path of external names. -/
inductive Inline : Query → List String → Query → Prop
  | refl {q : Query} : Inline q [] q
  | join {q sub : Query} {j : Join Query} {path : List String} (mem : j ∈ q.joins)
      (single : j.attr.isMany = false) (below : Inline j.query path sub) :
      Inline q (j.attr.externalName :: path) sub

/-- The statement of `s` is that of `q` or a subselect at some depth inside it. -/
inductive Stated : Query → Query → Prop
  | refl {q : Query} : Stated q q
  | subselect {s q sub : Query} {path : List String} {j : Join Query} (inline : q.Inline path sub)
      (mem : j ∈ sub.joins) (many : j.attr.isMany = true) (below : Stated s j.query) : Stated s q

/-- The statement has a column under the path. -/
inductive Selects (q : Query) : List String → Prop
  | column {sub : Query} {path : List String} {f : Field} (inline : q.Inline path sub)
      (mem : f ∈ sub.selected) : Selects q (path ++ [f.attr.externalName])

/-- The statement has a subselect from the path. -/
inductive Subselects (q : Query) : List String → Query → Prop
  | join {sub : Query} {path : List String} {j : Join Query} (inline : q.Inline path sub)
      (mem : j ∈ sub.joins) (many : j.attr.isMany = true) :
      Subselects q (path ++ [j.attr.externalName]) j.query

/-- The path is a column or the source of a subselect, or leads to one. -/
def Asks (q : Query) (path : List String) : Prop :=
  (∃ rest, q.Selects (path ++ rest)) ∨ ∃ rest sub, q.Subselects (path ++ rest) sub

variable {q s sub inner : Query} {path rest : List String} {f : Field} {j : Join Query}
  {joins : List (Join Query)} {item source : Fragment}

theorem Inline.within (h : q.Inline path sub) : sub.Within q := by
  induction h with
  | refl => exact .refl
  | join mem _ _ ih => exact .joined mem ih

theorem Within.trans (below : inner.Within sub) (outer : sub.Within q) : inner.Within q := by
  induction outer with
  | refl => exact below
  | joined mem _ ih => exact .joined mem (ih below)

theorem Stated.within (h : s.Stated q) : s.Within q := by
  induction h with
  | refl => exact .refl
  | subselect inline mem _ _ ih => exact (Within.joined mem ih).trans inline.within

theorem selects_refl (mem : f ∈ q.selected) : q.Selects [f.attr.externalName] := .column .refl mem

theorem subselects_refl (mem : j ∈ q.joins) (many : j.attr.isMany = true) :
    q.Subselects [j.attr.externalName] j.query := .join .refl mem many

/-! ### Under single-valued joins -/

theorem Selects.under (mem : j ∈ q.joins) (single : j.attr.isMany = false)
    (h : j.query.Selects path) : q.Selects (j.attr.externalName :: path) := by
  obtain ⟨inline, selected⟩ := h
  exact .column (.join mem single inline) selected

theorem Subselects.under (mem : j ∈ q.joins) (single : j.attr.isMany = false)
    (h : j.query.Subselects path sub) : q.Subselects (j.attr.externalName :: path) sub := by
  obtain ⟨inline, joined, many⟩ := h
  exact .join (.join mem single inline) joined many

theorem selects_iff : q.Selects path ↔ (∃ f ∈ q.selected, path = [f.attr.externalName]) ∨
    ∃ j ∈ q.joins, j.attr.isMany = false ∧
      ∃ below, j.query.Selects below ∧ path = j.attr.externalName :: below := by
  constructor
  · intro h
    obtain ⟨_ | ⟨mem, single, inline⟩, selected⟩ := h
    · exact .inl ⟨_, selected, rfl⟩
    · exact .inr ⟨_, mem, single, _, .column inline selected, rfl⟩
  · intro h
    rcases h with ⟨f, selected, rfl⟩ | ⟨j, mem, single, below, h, rfl⟩
    · exact selects_refl selected
    · exact h.under mem single

theorem subselects_iff : q.Subselects path sub ↔
    (∃ j ∈ q.joins, j.attr.isMany = true ∧ path = [j.attr.externalName] ∧ sub = j.query) ∨
    ∃ j ∈ q.joins, j.attr.isMany = false ∧
      ∃ below, j.query.Subselects below sub ∧ path = j.attr.externalName :: below := by
  constructor
  · intro h
    obtain ⟨_ | ⟨mem, single, inline⟩, joined, many⟩ := h
    · exact .inl ⟨_, joined, many, rfl, rfl⟩
    · exact .inr ⟨_, mem, single, _, .join inline joined many, rfl⟩
  · intro h
    rcases h with ⟨j, mem, many, rfl, rfl⟩ | ⟨j, mem, single, below, h, rfl⟩
    · exact subselects_refl mem many
    · exact h.under mem single

/-! ### The text -/

theorem mem_projectJoins_columns : item ∈ (projectJoins path joins).columns ↔
    ∃ j ∈ joins, j.attr.isMany = false ∧
      item ∈ (project (path ++ [j.attr.externalName]) j.query).columns := by
  induction joins with
  | nil => simp [projectJoins]
  | cons j rest ih =>
    obtain ⟨field, attr, query⟩ := j
    rw [projectJoins]
    simp only [Projection.append, List.mem_append, ih, List.exists_mem_cons_iff]
    cases attr.isMany with
    | true => simp
    | false => simp

theorem mem_projectJoins_subselects : item ∈ (projectJoins path joins).subselects ↔
    (∃ j ∈ joins, j.attr.isMany = true ∧
      item = Fragment.parens (statementFrom (.path (path ++ [j.attr.externalName])) j.query)) ∨
    ∃ j ∈ joins, j.attr.isMany = false ∧
      item ∈ (project (path ++ [j.attr.externalName]) j.query).subselects := by
  induction joins with
  | nil => simp [projectJoins]
  | cons j rest ih =>
    obtain ⟨field, attr, query⟩ := j
    rw [projectJoins]
    simp only [Projection.append, List.mem_append, ih, List.exists_mem_cons_iff]
    cases attr.isMany with
    | true => simp [or_assoc]
    | false => simp [or_left_comm]

theorem project_eq (path : List String) (q : Query) : project path q =
    .append ⟨columnItems path q.selected, []⟩ (projectJoins path q.joins) := by
  obtain ⟨root, columns, joins, filter, order, limit, offset, count⟩ := q
  rw [project]
  rfl

/-- The columns of a select list are those of the queries inline in it. -/
theorem mem_project_columns (wellFormed : q.WellFormed) : ∀ path : List String,
    item ∈ (project path q).columns ↔ ∃ c, q.Selects c ∧ item = .path (path ++ c) := by
  induction wellFormed with
  | @intro q _ _ ih =>
    intro path
    rw [project_eq, Projection.append]
    simp only [List.mem_append, mem_projectJoins_columns, columnItems, List.mem_map]
    constructor
    · intro h
      rcases h with ⟨f, selected, rfl⟩ | ⟨j, mem, single, inside⟩
      · exact ⟨_, selects_refl selected, rfl⟩
      · obtain ⟨c, selects, rfl⟩ := (ih j mem _).mp inside
        exact ⟨_, selects.under mem single, by rw [List.append_assoc]; rfl⟩
    · intro h
      obtain ⟨c, selects, rfl⟩ := h
      rcases selects_iff.mp selects with ⟨f, selected, rfl⟩ | ⟨j, mem, single, below, inside, rfl⟩
      · exact .inl ⟨f, selected, rfl⟩
      · refine .inr ⟨j, mem, single, (ih j mem _).mpr ⟨below, inside, ?_⟩⟩
        rw [List.append_assoc]
        rfl

/-- The subselects of a select list are the one-to-many joins of the queries inline in it. -/
theorem mem_project_subselects (wellFormed : q.WellFormed) : ∀ path : List String,
    item ∈ (project path q).subselects ↔ ∃ c sub, q.Subselects c sub ∧
      item = Fragment.parens (statementFrom (.path (path ++ c)) sub) := by
  induction wellFormed with
  | @intro q _ _ ih =>
    intro path
    rw [project_eq, Projection.append]
    simp only [List.nil_append, mem_projectJoins_subselects]
    constructor
    · intro h
      rcases h with ⟨j, mem, many, rfl⟩ | ⟨j, mem, single, inside⟩
      · exact ⟨_, _, subselects_refl mem many, rfl⟩
      · obtain ⟨c, sub, subselects, rfl⟩ := (ih j mem _).mp inside
        exact ⟨_, sub, subselects.under mem single, by rw [List.append_assoc]; rfl⟩
    · intro h
      obtain ⟨c, sub, subselects, rfl⟩ := h
      rcases subselects_iff.mp subselects with
        ⟨j, mem, many, rfl, rfl⟩ | ⟨j, mem, single, below, inside, rfl⟩
      · exact .inl ⟨j, mem, many, rfl⟩
      · refine .inr ⟨j, mem, single, (ih j mem _).mpr ⟨below, sub, inside, ?_⟩⟩
        rw [List.append_assoc]
        rfl

/-- The select list of a statement. -/
theorem statementFrom_eq (listing : q.count = false) : statementFrom source q =
    .keyword .SELECT :: (project [q.root.objectName] q).fragment ++ .keyword .FROM :: source ++
      clauses q.filter q.order q.limit q.offset := by
  rw [project_eq]
  obtain ⟨root, columns, joins, filter, order, limit, offset, count⟩ := q
  obtain rfl : count = false := listing
  rw [statementFrom]
  rfl

end Query

end RecordQuery
