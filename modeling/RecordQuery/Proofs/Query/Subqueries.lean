import RecordQuery.Proofs.Loading.Record
import RecordQuery.Query.Statement

/-!
# Queries as operands

A subquery stands for the query it was made from and is written as that query in parentheses, though
it keeps only a column and a filter of it.
-/

namespace RecordQuery.Query

variable {q : Query} {s : Subquery}

/-! ### What becomes a subquery -/

theorem subquery_eq_ok (h : q.subquery = .ok s) :
    q.joins = [] ∧ q.order = [] ∧ q.limit = none ∧ q.offset = none ∧ q.count = false ∧
      ∃ f column, q.selected = [f] ∧ q.root.attributeAt f.name = .ok column ∧
        s = .selecting column (!q.columns.isEmpty) q.filter := by
  simp only [subquery] at h
  split at h
  · cases h
  split at h
  · cases h
  split at h
  · cases h
  split at h
  · cases h
  split at h
  · cases h
  next joined ordered limited skipping counted =>
  split at h
  · next f chosen =>
    obtain ⟨column, declared, h⟩ := Outcome.bind_eq_ok.mp h
    obtain rfl := Outcome.pure_eq_ok.mp h
    refine ⟨?_, ?_, ?_, ?_, ?_, f, column, chosen, declared, rfl⟩
    · simpa using joined
    · simpa using ordered
    · simpa using limited
    · simpa using skipping
    · simpa using counted
  · cases h

/-! ### What it stands for -/

/-- The column of a subquery is the one field that its query reads. -/
theorem WellFormed.subquery_column (h : q.WellFormed) (step : q.subquery = .ok s) :
    q.selected = [⟨s.column.field, s.column.toAttribute⟩] ∧ s.column.root = q.root ∧
      s.column.hops = [] := by
  obtain ⟨_, _, _, _, _, f, column, chosen, declared, rfl⟩ := subquery_eq_ok step
  obtain ⟨root, hops, _, name, attr⟩ := AttributePath.through_eq_ok.mp declared
  refine ⟨?_, root, hops⟩
  have mem : f ∈ q.selected := chosen ▸ List.mem_cons_self
  have valid := h.here.built.valid _ q.root.mem
  have found : q.root.attr f.name = .ok f.attr := valid.attr_name (h.here.selected_scalar mem).1
  have same := Except.ok.inj (found.symm.trans attr)
  show q.selected = [⟨column.field, column.toAttribute⟩]
  rw [chosen, name, ← same]

/-- The query that a subquery stands for is the one it came from. -/
theorem WellFormed.subquery_toQuery (h : q.WellFormed) (step : q.subquery = .ok s) :
    s.toQuery = q := by
  obtain ⟨joins, order, limit, offset, count, f, column, chosen, declared, rfl⟩ :=
    subquery_eq_ok step
  have root : column.root = q.root := (h.subquery_column step).2.1
  have columns : (if !q.columns.isEmpty then [column] else []) = q.columns := by
    cases choice : q.columns with
    | nil => rfl
    | cons p rest =>
      -- The one chosen column is found again under its own name.
      rw [selected, fieldsOf, choice] at chosen
      obtain ⟨rfl, none⟩ := List.cons.inj chosen
      obtain rfl := List.map_eq_nil_iff.mp none
      have known := h.here.columns_declared p (choice ▸ List.mem_cons_self)
      obtain rfl := Except.ok.inj (known.symm.trans declared)
      rfl
  rw [Subquery.toQuery, columns, root]
  cases q
  simp_all [select]

/-- A subquery is written as its query in parentheses. -/
theorem WellFormed.subquery_fragment (h : q.WellFormed) (step : q.subquery = .ok s) :
    s.fragment = q.fragment.parens := by
  obtain ⟨chosen, root, hops⟩ := h.subquery_column step
  have same := h.subquery_toQuery step
  obtain ⟨column, flag, filter⟩ := s
  subst same
  have head : Subquery.head column = .keyword .SELECT ::
      Fragment.separated .comma (columnItems [column.root.objectName]
        [⟨column.field, column.toAttribute⟩]) ++ [.keyword .FROM, .name column.root.objectName] := by
    have direct : column.hops = [] := hops
    rw [Subquery.head, AttributePath.fragment, AttributePath.segments, direct]
    rfl
  have listed : fieldsOf column.root (if flag then [column] else []) =
      [⟨column.field, column.toAttribute⟩] := chosen
  have whole : (Subquery.toQuery (.selecting column flag filter)).fragment =
      Subquery.head column ++ clauses filter [] none none := by
    rw [Query.fragment, Subquery.toQuery, statementFrom, head]
    simp only [select, listed, projectJoins, Projection.append, Projection.fragment]
    simp
  cases filter with
  | none =>
    rw [Subquery.fragment, whole]
    simp [clauses]
  | some c =>
    rw [Subquery.fragment, whole]
    simp [clauses]

end RecordQuery.Query
