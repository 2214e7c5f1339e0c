import RecordQuery.Proofs.Query.Joining

/-!
# Properties of all joined queries

A property of single queries that every fresh query has, and for which the joins do not matter, is
kept by joining at every query of the tree. One such property is that every filter was made from
comparisons.
-/

namespace RecordQuery.Query

/-- The property holds of the query and of every joined query inside it. -/
def Throughout (P : Query → Prop) (q : Query) : Prop := ∀ sub : Query, sub.Within q → P sub

/-- What joining cannot take away from a query. -/
structure Lasting (P : Query → Prop) : Prop where
  fresh (m : Model) : P (select m)
  joins {q : Query} (joins : List (Join Query)) : P q → P { q with joins }

variable {P : Query → Prop} {q next query : Query} {j : Join Query} {joins : List (Join Query)}
  {field : String} {change : Join Query → Except Error (Join Query)}

theorem Throughout.here (h : q.Throughout P) : P q := h q .refl

theorem Throughout.joined (h : q.Throughout P) (mem : j ∈ q.joins) : j.query.Throughout P :=
  fun sub below => h sub (.joined mem below)

theorem Throughout.intro (here : P q) (below : ∀ j ∈ q.joins, j.query.Throughout P) :
    q.Throughout P := by
  intro sub inside
  cases inside with
  | refl => exact here
  | joined mem inner => exact below _ mem sub inner

/-- A change of one query that leaves its joins alone. -/
theorem Throughout.update (h : q.Throughout P) (same : next.joins = q.joins) (here : P next) :
    next.Throughout P := by
  refine .intro here fun j mem => h.joined ?_
  rwa [same] at mem

namespace Lasting

theorem select (lasting : Lasting P) (m : Model) : (select m).Throughout P :=
  .intro (lasting.fresh m) fun _ mem => nomatch mem

theorem onJoin (lasting : Lasting P) (h : q.Throughout P)
    (keeps : ∀ j j', j.query.Throughout P → change j = .ok j' → j'.query.Throughout P)
    (step : q.onJoin field change = .ok next) : next.Throughout P := by
  rw [Query.onJoin, Outcome.bind_eq_ok] at step
  obtain ⟨joins, changed, step⟩ := step
  obtain rfl := Outcome.pure_eq_ok.mp step
  obtain ⟨before, j, j', after, edited, rfl, _, place⟩ := changeJoin_eq_ok changed
  have old : j.query.Throughout P ∧ ∀ e ∈ before ++ after, e.query.Throughout P := by
    rcases place with ⟨split, _⟩ | ⟨split, rfl, fresh⟩
    · have within e (mem : e = j ∨ e ∈ before ++ after) : e.query.Throughout P := by
        apply h.joined
        rw [split, List.mem_append, List.mem_cons]
        rcases mem with rfl | mem
        · exact .inr (.inl rfl)
        · exact (List.mem_append.mp mem).imp_right .inr
      exact ⟨within j (.inl rfl), fun e mem => within e (.inr mem)⟩
    · obtain ⟨target, _, fresh⟩ := Outcome.bind_eq_ok.mp fresh
      obtain ⟨attr, _, fresh⟩ := Outcome.bind_eq_ok.mp fresh
      obtain rfl := Outcome.pure_eq_ok.mp fresh
      refine ⟨lasting.select target, fun e mem => h.joined ?_⟩
      rw [split]
      exact (List.append_nil before) ▸ mem
  refine .intro (lasting.joins _ h.here) fun e mem => ?_
  rcases List.mem_append.mp mem with mem | mem
  · exact old.2 e (List.mem_append_left _ mem)
  · rcases List.mem_cons.mp mem with rfl | mem
    · exact keeps j e old.1 edited
    · exact old.2 e (List.mem_append_right _ mem)

theorem along {edit : Query → Except Error Query} (lasting : Lasting P)
    (keeps : ∀ q next, q.Throughout P → edit q = .ok next → next.Throughout P)
    (fields : List String) : ∀ q next : Query, q.Throughout P → along edit fields q = .ok next →
      next.Throughout P := by
  induction fields with
  | nil => exact keeps
  | cons field rest ih =>
    intro q next h step
    refine lasting.onJoin h ?_ step
    intro j j' inner changed
    obtain ⟨query, reached, changed⟩ := Outcome.bind_eq_ok.mp changed
    obtain rfl := Outcome.pure_eq_ok.mp changed
    exact ih j.query query inner reached

theorem join {path : RelationPath} (lasting : Lasting P) (h : q.Throughout P)
    (step : q.join path = .ok next) : next.Throughout P := by
  obtain ⟨_, _, step⟩ := Outcome.bind_eq_ok.mp step
  refine lasting.along ?_ _ q next h step
  intro q next h same
  cases same
  exact h

theorem joinWith {path : RelationPath} (lasting : Lasting P) (h : q.Throughout P)
    (joined : query.Throughout P) (step : q.joinWith path query = .ok next) :
    next.Throughout P := by
  obtain ⟨_, _, step⟩ := Outcome.bind_eq_ok.mp step
  refine lasting.along (fun parent next h step => ?_) _ q next h step
  refine lasting.onJoin h (fun j j' inner replaced => ?_) step
  obtain ⟨_, _, _, kept, rfl, rfl⟩ := replaceJoined_eq_ok replaced
  refine .intro (lasting.joins _ joined.here) fun e mem => ?_
  rcases List.mem_append.mp mem with own | old
  · exact joined.joined own
  · exact inner.joined (List.mem_of_mem_filter old)

end Lasting

/-! ### Filters -/

/-- The filter, if there is one, was made from comparisons. -/
def FilterMade (q : Query) : Prop := ∀ c : Condition, q.filter = some c → c.Made

theorem filterMade_lasting : Lasting FilterMade where
  fresh _ := fun _ filter => nomatch filter
  joins _ made := made

/-- Every filter in the tree of a reachable query was made from comparisons. -/
theorem Reachable.filters_made : ∀ {q : Query}, q.Reachable → q.Throughout FilterMade
  | _, .select _ => filterMade_lasting.select _
  | _, .choose start _ step => by
    have before := start.filters_made
    obtain ⟨_, rfl⟩ := choose_eq_ok.mp step
    exact before.update rfl before.here
  | _, .suchThat start made step => by
    obtain ⟨_, rfl⟩ := suchThat_eq_ok.mp step
    refine start.filters_made.update rfl fun c same => ?_
    obtain rfl := Option.some.inj same
    exact made
  | _, .orderBy start _ step => by
    have before := start.filters_made
    obtain ⟨_, rfl⟩ := orderBy_eq_ok.mp step
    exact before.update rfl before.here
  | _, .limitTo start step => by
    have before := start.filters_made
    obtain ⟨_, rfl⟩ := limitTo_eq_ok.mp step
    exact before.update rfl before.here
  | _, .startAt start step => by
    have before := start.filters_made
    obtain ⟨_, rfl⟩ := startAt_eq_ok.mp step
    exact before.update rfl before.here
  | _, .counting start => start.filters_made.update rfl start.filters_made.here
  | _, .join start _ step => filterMade_lasting.join start.filters_made step
  | _, .joinWith start _ joined step =>
    filterMade_lasting.joinWith start.filters_made joined.filters_made step

end RecordQuery.Query
