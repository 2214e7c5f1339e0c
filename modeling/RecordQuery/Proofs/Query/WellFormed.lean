import RecordQuery.Proofs.Query.Reachable

/-!
# Well-formed queries

A query is consistent when its columns, joins, filter and order belong to its root, and well formed
when this holds of every joined query inside it. Every building operation keeps a query well
formed, joins along a path and joins with a query of their own included, so every reachable query
is.
-/

namespace RecordQuery

/-! ### What a condition compares -/

namespace Condition

/-- A path stands in a comparison of the condition, outside its subqueries. -/
inductive Compares : Condition → AttributePath → Prop
  | here {p : AttributePath} {comparator : Comparator} {operand : Operand} :
      Compares (.compare p comparator operand) p
  | inJunction {kind : Junction} {children : List Condition} {c : Condition} {p : AttributePath}
      (mem : c ∈ children) (below : Compares c p) : Compares (.junction kind children) p
  | underNot {c : Condition} {p : AttributePath} (below : Compares c p) : Compares (.not c) p

mutual

theorem mem_paths {p : AttributePath} : ∀ c : Condition, p ∈ c.paths ↔ c.Compares p
  | .compare path comparator operand => by
    rw [paths, List.mem_singleton]
    constructor
    · rintro rfl
      exact .here
    · intro h
      cases h
      rfl
  | .junction kind children => by
    rw [paths, mem_pathsAll children]
    constructor
    · intro h
      obtain ⟨c, mem, below⟩ := h
      exact .inJunction mem below
    · intro h
      rcases h with _ | ⟨mem, below⟩
      exact ⟨_, mem, below⟩
  | .not c => by
    rw [paths, mem_paths c]
    constructor
    · exact .underNot
    · intro h
      rcases h with _ | _ | below
      exact below

theorem mem_pathsAll {p : AttributePath} :
    ∀ cs : List Condition, p ∈ pathsAll cs ↔ ∃ c ∈ cs, c.Compares p
  | [] => by simp [pathsAll]
  | c :: rest => by
    rw [pathsAll, List.mem_append, mem_paths c, mem_pathsAll rest]
    simp only [List.mem_cons, exists_eq_or_imp]

end

end Condition

/-! ### Consistency of one query -/

/-- A path that a filter or an order over `root` may refer to. -/
def AttributePath.Referable (p : AttributePath) (root : Model) : Prop :=
  p.root = root ∧ p.crossesMany = false

/-- A join that belongs to a query over `root`. -/
structure Join.Fits (j : Join Query) (root : Model) : Prop where
  declared : root.attr j.field = .ok j.attr
  relation : j.attr.isRelation = true
  resolved : root.related j.field = .ok j.query.root
  listed : j.query.count = false
  unrestricted : j.attr.isMany = false →
    j.query.filter = none ∧ j.query.order = [] ∧ j.query.limit = none ∧ j.query.offset = none

namespace Query

structure Consistent (q : Query) : Prop where
  built : q.root.registry.Built
  columns_root : ∀ p ∈ q.columns, p.root = q.root
  columns_direct : ∀ p ∈ q.columns, p.isDirect = true
  columns_declared : ∀ p ∈ q.columns, q.root.attributeAt p.field = .ok p
  columns_distinct : (q.columns.map AttributePath.field).Nodup
  joins_distinct : (q.joins.map Join.field).Nodup
  joins_fit : ∀ j ∈ q.joins, j.Fits q.root
  filter_local : ∀ c, q.filter = some c → ∀ p, c.Compares p → p.Referable q.root
  order_local : ∀ key ∈ q.order, key.path.Referable q.root

/-- Consistent, together with every joined query. -/
inductive WellFormed : Query → Prop
  | intro {q : Query} (here : q.Consistent) (below : ∀ j ∈ q.joins, WellFormed j.query) :
      WellFormed q

/-- A query is inside another when it is the query itself or is inside one of its joins. -/
inductive Within : Query → Query → Prop
  | refl {q : Query} : Within q q
  | joined {q sub : Query} {j : Join Query} (mem : j ∈ q.joins) (below : Within sub j.query) :
      Within sub q

variable {q next sub query : Query}

theorem WellFormed.here (h : q.WellFormed) : q.Consistent := by
  cases h
  assumption

theorem WellFormed.joined (h : q.WellFormed) {j : Join Query} (hj : j ∈ q.joins) :
    j.query.WellFormed := by
  cases h with
  | intro _ below => exact below j hj

theorem WellFormed.within (h : q.WellFormed) (inside : sub.Within q) : sub.WellFormed := by
  induction inside with
  | refl => exact h
  | joined mem _ ih => exact ih (h.joined mem)

/-! ### Columns, filter, order and cut -/

theorem select_wellFormed {m : Model} (built : m.registry.Built) : (select m).WellFormed :=
  .intro
    { built
      columns_root := fun _ hp => nomatch hp
      columns_direct := fun _ hp => nomatch hp
      columns_declared := fun _ hp => nomatch hp
      columns_distinct := .nil
      joins_distinct := .nil
      joins_fit := fun _ hj => nomatch hj
      filter_local := fun _ hc => nomatch hc
      order_local := fun _ hk => nomatch hk }
    fun _ hj => nomatch hj

/-- A choice of columns passes exactly when the columns are direct, of the root, and of distinct
names, also against those before them. -/
theorem checkColumns_eq_ok {root : Model} {earlier columns : List AttributePath} :
    checkColumns root earlier columns = .ok () ↔
      (∀ p ∈ columns, p.root = root ∧ p.isDirect = true) ∧
        (∀ e ∈ earlier, ∀ p ∈ columns, e.field ≠ p.field) ∧
          (columns.map AttributePath.field).Nodup := by
  induction columns generalizing earlier with
  | nil => simp [checkColumns]
  | cons p rest ih =>
    rw [checkColumns]
    by_cases root_eq : p.root = root
    · by_cases direct : p.isDirect = true
      · by_cases fresh : ∀ e ∈ earlier, e.field ≠ p.field
        · have unseen : ¬ earlier.any (·.field == p.field) = true := by simpa using fresh
          rw [if_neg (not_not_intro root_eq), if_neg (by simp [direct]), if_neg unseen, ih]
          simp only [List.mem_append, List.mem_cons, List.not_mem_nil, or_false, forall_eq_or_imp,
            List.map_cons, List.nodup_cons, List.mem_map, not_exists, not_and]
          constructor
          · intro h
            obtain ⟨here, before, distinct⟩ := h
            refine ⟨⟨⟨root_eq, direct⟩, here⟩, fun e he => ⟨fresh e he, ?_⟩, ?_, distinct⟩
            · exact fun g hg => before e (.inl he) g hg
            · exact fun g hg same => before p (.inr rfl) g hg same.symm
          · intro h
            obtain ⟨⟨_, here⟩, before, first, distinct⟩ := h
            refine ⟨here, ?_, distinct⟩
            rintro e (he | rfl) g hg
            · exact (before e he).2 g hg
            · exact fun same => first g hg same.symm
        · have seen : earlier.any (·.field == p.field) = true := by simpa using fresh
          rw [if_neg (not_not_intro root_eq), if_neg (by simp [direct]), if_pos seen]
          refine ⟨(nomatch ·), fun h => absurd ?_ fresh⟩
          exact fun e he => h.2.1 e he p List.mem_cons_self
      · rw [if_neg (not_not_intro root_eq), if_pos (by simpa using direct)]
        exact ⟨(nomatch ·), fun h => absurd (h.1 p List.mem_cons_self).2 direct⟩
    · rw [if_pos root_eq]
      exact ⟨(nomatch ·), fun h => absurd (h.1 p List.mem_cons_self).1 root_eq⟩

theorem choose_eq_ok {columns : List AttributePath} : q.choose columns = .ok next ↔
    ((∀ p ∈ columns, p.root = q.root ∧ p.isDirect = true) ∧
      (columns.map AttributePath.field).Nodup) ∧ next = { q with columns } := by
  rw [choose, Outcome.after_eq_ok, checkColumns_eq_ok]
  simp

theorem choose_keeps {columns : List AttributePath} (h : q.WellFormed)
    (walked : ∀ p ∈ columns, p.Walked) (step : q.choose columns = .ok next) :
    next.WellFormed := by
  obtain ⟨⟨here, distinct⟩, rfl⟩ := choose_eq_ok.mp step
  refine .intro { h.here with
    columns_root := fun p hp => (here p hp).1
    columns_direct := fun p hp => (here p hp).2
    columns_declared := fun p hp => ?_
    columns_distinct := distinct } fun _ => h.joined
  obtain ⟨root_eq, direct⟩ := here p hp
  rw [← root_eq]
  exact (walked p hp).declared direct

theorem checkReference_eq_ok {root : Model} {p : AttributePath} :
    checkReference root p = .ok () ↔ p.Referable root := by
  rw [checkReference, AttributePath.Referable]
  by_cases root_eq : p.root = root
  · cases p.crossesMany <;> simp [root_eq]
  · simp [root_eq]

theorem suchThat_eq_ok {c : Condition} : q.suchThat c = .ok next ↔
    (∀ p, c.Compares p → p.Referable q.root) ∧ next = { q with filter := some c } := by
  rw [suchThat, Outcome.after_eq_ok]
  refine and_congr_left' (Outcome.forM_eq_ok.trans ?_)
  simp only [Condition.mem_paths, checkReference_eq_ok]

theorem suchThat_keeps {c : Condition} (h : q.WellFormed) (step : q.suchThat c = .ok next) :
    next.WellFormed := by
  obtain ⟨referable, rfl⟩ := suchThat_eq_ok.mp step
  refine .intro { h.here with filter_local := ?_ } fun _ => h.joined
  rintro _ ⟨⟩
  exact referable

theorem orderBy_eq_ok {key : SortKey} : q.orderBy key = .ok next ↔
    key.path.Referable q.root ∧ next = { q with order := q.order ++ [key] } := by
  rw [orderBy, Outcome.after_eq_ok, checkReference_eq_ok]

theorem orderBy_keeps {key : SortKey} (h : q.WellFormed) (step : q.orderBy key = .ok next) :
    next.WellFormed := by
  obtain ⟨referable, rfl⟩ := orderBy_eq_ok.mp step
  refine .intro { h.here with order_local := ?_ } fun _ => h.joined
  intro k hk
  rcases List.mem_append.mp hk with hk | hk
  · exact h.here.order_local k hk
  · obtain rfl := List.mem_singleton.mp hk
    exact referable

theorem limitTo_eq_ok {n : Int} :
    q.limitTo n = .ok next ↔ 0 ≤ n ∧ next = { q with limit := some n.toNat } := by
  rw [limitTo]
  by_cases negative : n < 0
  · rw [if_pos negative]
    exact ⟨nofun, fun h => absurd negative (by omega)⟩
  · rw [if_neg negative, Except.ok.injEq, eq_comm]
    exact (and_iff_right (by omega)).symm

theorem limitTo_keeps {n : Int} (h : q.WellFormed) (step : q.limitTo n = .ok next) :
    next.WellFormed := by
  obtain ⟨_, rfl⟩ := limitTo_eq_ok.mp step
  exact .intro { h.here with } fun _ => h.joined

theorem startAt_eq_ok {n : Int} :
    q.startAt n = .ok next ↔ 0 ≤ n ∧ next = { q with offset := some n.toNat } := by
  rw [startAt]
  by_cases negative : n < 0
  · rw [if_pos negative]
    exact ⟨nofun, fun h => absurd negative (by omega)⟩
  · rw [if_neg negative, Except.ok.injEq, eq_comm]
    exact (and_iff_right (by omega)).symm

theorem startAt_keeps {n : Int} (h : q.WellFormed) (step : q.startAt n = .ok next) :
    next.WellFormed := by
  obtain ⟨_, rfl⟩ := startAt_eq_ok.mp step
  exact .intro { h.here with } fun _ => h.joined

theorem counting_keeps (h : q.WellFormed) : q.counting.WellFormed :=
  .intro { h.here with } fun _ => h.joined

end Query

end RecordQuery
