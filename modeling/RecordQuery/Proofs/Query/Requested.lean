import RecordQuery.Proofs.Fragment.Balanced
import RecordQuery.Proofs.Loading.RoundTrip
import RecordQuery.Proofs.Query.Selection

/-!
# What statements ask for

Every query inside another stands in one of its statements, and the statement asks for its columns
and its one-to-many joins. A single-valued join is asked for through what it contributes: if neither
a column nor a subselect comes from under it, the statement does not mention it.
-/

namespace RecordQuery

namespace Query

/-- Something comes from under every single-valued join. -/
def Contributing (q : Query) : Prop :=
  ∀ sub : Query, sub.Within q → ∀ j ∈ sub.joins, j.attr.isMany = false → j.query.Asks []

/-- Every field that is read, at any depth, is asked for by the statement that it stands in. -/
def Requested (q : Query) : Prop :=
  ∀ s, Stated s q → ∀ path sub, s.Inline path sub → ∀ f ∈ sub.reads,
    s.Asks (path ++ [f.attr.externalName])

variable {q s sub : Query} {path : List String} {f : Field} {j : Join Query} {source : Fragment}

/-! ### Statements inside statements -/

/-- Every query inside another stands in one of its statements. -/
theorem Within.level (h : sub.Within q) : ∃ s path, Stated s q ∧ s.Inline path sub := by
  induction h with
  | refl => exact ⟨_, [], .refl, .refl⟩
  | @joined q sub j mem _ ih =>
    obtain ⟨s, path, stated, inline⟩ := ih
    cases arity : j.attr.isMany with
    | true => exact ⟨s, path, .subselect .refl mem arity stated, inline⟩
    | false =>
      -- The joined query has no statement of its own: its level moves into the outer one.
      rcases stated with _ | ⟨outer, joined, many, below⟩
      · exact ⟨q, _, .refl, .join mem arity inline⟩
      · exact ⟨s, path, .subselect (.join mem arity outer) joined many below, inline⟩

theorem WellFormed.listing (h : q.WellFormed) (mem : j ∈ q.joins) : j.query.count = false :=
  (h.here.joins_fit j mem).listed

theorem Stated.listing (h : Stated s q) (wellFormed : q.WellFormed) (listing : q.count = false) :
    s.count = false := by
  induction h with
  | refl => exact listing
  | subselect inline mem _ _ ih =>
    have inner := wellFormed.within inline.within
    exact ih (inner.joined mem) (inner.listing mem)

/-- The text of every such statement is a part of the whole. -/
theorem Stated.infix (h : Stated s q) (wellFormed : q.WellFormed) (listing : q.count = false)
    (source : Fragment) : ∃ inner, statementFrom inner s <:+: statementFrom source q := by
  induction h generalizing source with
  | refl => exact ⟨source, List.infix_rfl⟩
  | @subselect q sub path j inline mem many _ ih =>
    have inside := wellFormed.within inline.within
    have item := (mem_project_subselects wellFormed [q.root.objectName]).mpr
      ⟨_, _, .join inline mem many, rfl⟩
    have listed : _ <:+: (project [q.root.objectName] q).fragment :=
      Fragment.infix_separated (List.mem_append_right _ item)
    have whole : (project [q.root.objectName] q).fragment <:+: statementFrom source q := by
      rw [statementFrom_eq listing]
      exact ⟨[.keyword .SELECT], .keyword .FROM :: source ++ clauses q.filter q.order q.limit
        q.offset, by simp⟩
    obtain ⟨inner, part⟩ := ih (inside.joined mem) (inside.listing mem) _
    exact ⟨inner, part.trans ((Fragment.infix_parens _).trans (listed.trans whole))⟩

/-! ### Requests -/

theorem Asks.under (mem : j ∈ q.joins) (single : j.attr.isMany = false)
    (h : j.query.Asks path) : q.Asks (j.attr.externalName :: path) := by
  rcases h with ⟨rest, selects⟩ | ⟨rest, sub, subselects⟩
  · exact .inl ⟨rest, selects.under mem single⟩
  · exact .inr ⟨rest, sub, subselects.under mem single⟩

theorem Inline.asks {rest : List String} (h : q.Inline path sub) (asks : sub.Asks rest) :
    q.Asks (path ++ rest) := by
  induction h with
  | refl => exact asks
  | join mem single _ ih => exact (ih asks).under mem single

theorem asks_selected (mem : f ∈ q.selected) : q.Asks [f.attr.externalName] :=
  .inl ⟨[], by simpa using selects_refl mem⟩

theorem asks_many (mem : j ∈ q.joins) (many : j.attr.isMany = true) :
    q.Asks [j.attr.externalName] :=
  .inr ⟨[], j.query, by simpa using subselects_refl mem many⟩

theorem Contributing.requested (h : q.Contributing) : q.Requested := by
  intro s stated path sub inline f read
  apply inline.asks
  rcases List.mem_append.mp read with selected | joined
  · exact asks_selected selected
  · obtain ⟨j, mem, rfl⟩ := List.mem_map.mp joined
    cases arity : j.attr.isMany with
    | true => exact asks_many mem arity
    | false => exact (h sub (inline.within.trans stated.within) j mem arity).under mem arity

/-! ### Requests that are missing -/

/-- Where no two fields have one external name, what is asked for under a single-valued join comes
from the joined query. -/
theorem asks_joined (names : (q.reads.map fun f => f.attr.externalName).Nodup) (mem : j ∈ q.joins)
    (single : j.attr.isMany = false) (h : q.Asks (j.attr.externalName :: path)) :
    j.query.Asks path := by
  rw [reads, List.map_append, List.map_map, List.nodup_append] at names
  obtain ⟨_, distinct, apart⟩ := names
  have alone {k : Join Query} (other : k ∈ q.joins)
      (same : j.attr.externalName = k.attr.externalName) : j = k :=
    List.inj_on_of_nodup_map distinct mem other same
  rcases h with ⟨rest, selects⟩ | ⟨rest, sub, subselects⟩
  · rcases selects_iff.mp selects with ⟨f, selected, same⟩ | ⟨k, other, _, below, inside, same⟩
    · have taken := List.mem_map_of_mem (f := (fun f => f.attr.externalName) ∘ Join.toField) mem
      have column := List.mem_map_of_mem (f := fun f : Field => f.attr.externalName) selected
      exact absurd (List.cons.inj same).1.symm (apart _ column _ taken)
    · obtain ⟨key, rfl⟩ := List.cons.inj same
      obtain rfl := alone other key
      exact .inl ⟨rest, inside⟩
  · rcases subselects_iff.mp subselects with
      ⟨k, other, many, same, _⟩ | ⟨k, other, _, below, inside, same⟩
    · obtain rfl := alone other (List.cons.inj same).1
      rw [single] at many
      cases many
    · obtain ⟨key, rfl⟩ := List.cons.inj same
      obtain rfl := alone other key
      exact .inr ⟨rest, sub, inside⟩

theorem Inline.asks_inner {rest : List String} (h : q.Inline path sub) (names : q.DistinctNames)
    (asks : q.Asks (path ++ rest)) : sub.Asks rest := by
  induction h with
  | refl => exact asks
  | join mem single _ ih => exact ih (names.joined mem) (asks_joined names.here mem single asks)

theorem DistinctNames.within (h : q.DistinctNames) (inside : sub.Within q) : sub.DistinctNames := by
  induction inside with
  | refl => exact h
  | joined mem _ ih => exact ih (h.joined mem)

theorem Requested.contributing (h : q.Requested) (names : q.DistinctNames) : q.Contributing := by
  intro sub inside j mem single
  obtain ⟨s, path, stated, inline⟩ := inside.level
  have read : j.toField ∈ sub.reads := List.mem_append_right _ (List.mem_map_of_mem mem)
  have asks := h s stated path sub inline _ read
  have inner := inline.asks_inner (names.within stated.within) asks
  exact asks_joined (names.within inside).here mem single inner

end Query

end RecordQuery
