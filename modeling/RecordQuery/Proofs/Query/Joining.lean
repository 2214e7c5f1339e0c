import RecordQuery.Proofs.Query.WellFormed
import RecordQuery.Proofs.Sample
import RecordQuery.Proofs.Schema.Resolved

/-!
# Joining

A join edits one node deep inside a query and adds the joins missing on the way. Such an edit changes
nothing but joins at every query it passes through, and leaves the whole query well formed when the
change at the end of the path does. With the other building operations this makes every reachable
query well formed.
-/

namespace RecordQuery

namespace Query

variable {q next sub query : Query} {root : Model} {field : String} {joins joins' : List (Join Query)}
  {j j' : Join Query}

/-! ### One join -/

/-- The joins of a well-formed query over `root`. -/
structure JoinsFit (root : Model) (joins : List (Join Query)) : Prop where
  distinct : (joins.map Join.field).Nodup
  fit : ∀ j ∈ joins, j.Fits root
  wellFormed : ∀ j ∈ joins, j.query.WellFormed

theorem WellFormed.joinsFit (h : q.WellFormed) : JoinsFit q.root q.joins :=
  ⟨h.here.joins_distinct, h.here.joins_fit, fun _ => h.joined⟩

theorem WellFormed.withJoins (h : q.WellFormed) (fits : JoinsFit q.root joins) :
    WellFormed { q with joins } :=
  .intro { h.here with joins_distinct := fits.distinct, joins_fit := fits.fit } fits.wellFormed

theorem defaultJoin_eq_ok (built : root.registry.Built) (h : defaultJoin root field = .ok j) :
    j.field = field ∧ j.Fits root ∧ j.query.WellFormed := by
  simp only [defaultJoin, Outcome.bind_eq_ok, Outcome.pure_eq_ok] at h
  obtain ⟨target, related, a, declared, rfl⟩ := h
  obtain ⟨_, declared', relation, registry⟩ := Model.related_eq_ok related
  obtain rfl := Except.ok.inj (declared.symm.trans declared')
  refine ⟨rfl, ⟨declared, relation, related, rfl, fun _ => ⟨rfl, rfl, rfl, rfl⟩⟩, ?_⟩
  exact select_wellFormed (by rwa [registry])

/-- What an edit of one join of a well-formed query over `root` has to keep. -/
def KeepsJoin (root : Model) (change : Join Query → Except Error (Join Query)) : Prop :=
  ∀ j j', j.Fits root → j.query.WellFormed → change j = .ok j' →
    j'.field = j.field ∧ j'.Fits root ∧ j'.query.WellFormed

variable {change : Join Query → Except Error (Join Query)}

/-- An edit changes one join: the one over the field, or the default join that it adds at the
end when no join has that field. -/
theorem changeJoin_eq_ok (h : changeJoin root field change joins = .ok joins') :
    ∃ before j j' after, change j = .ok j' ∧ joins' = before ++ j' :: after ∧
      (∀ e ∈ before, e.field ≠ field) ∧
        (joins = before ++ j :: after ∧ j.field = field ∨
          joins = before ∧ after = [] ∧ defaultJoin root field = .ok j) := by
  induction joins generalizing joins' with
  | nil =>
    simp only [changeJoin, Outcome.bind_eq_ok, Outcome.pure_eq_ok] at h
    obtain ⟨j, fresh, j', changed, rfl⟩ := h
    exact ⟨[], j, j', [], changed, rfl, by simp, .inr ⟨rfl, rfl, fresh⟩⟩
  | cons e rest ih =>
    rw [changeJoin] at h
    by_cases found : e.field = field
    · rw [if_pos found, Outcome.bind_eq_ok] at h
      obtain ⟨j', changed, h⟩ := h
      obtain rfl := Outcome.pure_eq_ok.mp h
      exact ⟨[], e, j', rest, changed, rfl, by simp, .inl ⟨rfl, found⟩⟩
    · rw [if_neg found, Outcome.bind_eq_ok] at h
      obtain ⟨rest', changed, h⟩ := h
      obtain rfl := Outcome.pure_eq_ok.mp h
      obtain ⟨before, j, j', after, edited, rfl, absent, place⟩ := ih changed
      refine ⟨e :: before, j, j', after, edited, rfl, ?_, ?_⟩
      · rintro d (_ | ⟨_, hd⟩)
        · exact found
        · exact absent d hd
      · rcases place with ⟨rfl, same⟩ | ⟨rfl, rfl, fresh⟩
        · exact .inl ⟨rfl, same⟩
        · exact .inr ⟨rfl, rfl, fresh⟩

/-- Putting a join with the same field in the place of another keeps the joins in order. -/
theorem JoinsFit.replace {before after : List (Join Query)}
    (fits : JoinsFit root (before ++ j :: after)) (same : j'.field = j.field)
    (fit : j'.Fits root) (wellFormed : j'.query.WellFormed) :
    JoinsFit root (before ++ j' :: after) := by
  refine ⟨?_, fun e he => ?_, fun e he => ?_⟩
  · have distinct := fits.distinct
    rw [List.map_append, List.map_cons] at distinct ⊢
    rwa [same]
  · rcases List.mem_append.mp he with he | he
    · exact fits.fit e (List.mem_append_left _ he)
    · rcases List.mem_cons.mp he with rfl | he
      · exact fit
      · exact fits.fit e (List.mem_append_right _ (List.mem_cons_of_mem _ he))
  · rcases List.mem_append.mp he with he | he
    · exact fits.wellFormed e (List.mem_append_left _ he)
    · rcases List.mem_cons.mp he with rfl | he
      · exact wellFormed
      · exact fits.wellFormed e (List.mem_append_right _ (List.mem_cons_of_mem _ he))

theorem JoinsFit.add (fits : JoinsFit root joins) (absent : ∀ e ∈ joins, e.field ≠ j.field)
    (fit : j.Fits root) (wellFormed : j.query.WellFormed) : JoinsFit root (joins ++ [j]) := by
  refine ⟨?_, fun e he => ?_, fun e he => ?_⟩
  · rw [List.map_append, List.map_singleton, List.nodup_append]
    refine ⟨fits.distinct, List.nodup_singleton _, ?_⟩
    intro a ha b hb
    obtain ⟨e, he, rfl⟩ := List.mem_map.mp ha
    obtain rfl := List.mem_singleton.mp hb
    exact absent e he
  · rcases List.mem_append.mp he with he | he
    · exact fits.fit e he
    · obtain rfl := List.mem_singleton.mp he
      exact fit
  · rcases List.mem_append.mp he with he | he
    · exact fits.wellFormed e he
    · obtain rfl := List.mem_singleton.mp he
      exact wellFormed

theorem onJoin_keeps (h : q.WellFormed) (keeps : KeepsJoin q.root change)
    (step : q.onJoin field change = .ok next) :
    next.WellFormed ∧ next = { q with joins := next.joins } := by
  rw [onJoin, Outcome.bind_eq_ok] at step
  obtain ⟨joins, changed, step⟩ := step
  obtain rfl := Outcome.pure_eq_ok.mp step
  refine ⟨h.withJoins ?_, rfl⟩
  have fits := h.joinsFit
  obtain ⟨before, j, j', after, edited, rfl, absent, place⟩ := changeJoin_eq_ok changed
  rcases place with ⟨split, _⟩ | ⟨split, rfl, fresh⟩
  · rw [split] at fits
    have hj : j ∈ before ++ j :: after := List.mem_append_right _ List.mem_cons_self
    obtain ⟨same, fit, wellFormed⟩ := keeps j j' (fits.fit j hj) (fits.wellFormed j hj) edited
    exact fits.replace same fit wellFormed
  · obtain ⟨rfl, fit, wellFormed⟩ := defaultJoin_eq_ok h.here.built fresh
    obtain ⟨same, fit, wellFormed⟩ := keeps j j' fit wellFormed edited
    rw [split] at fits
    exact fits.add (by rwa [same]) fit wellFormed

/-! ### A path of joins -/

/-- What an edit of a query at the end of a path has to keep: all but its joins stays, so the
join that leads to it still fits. -/
def KeepsQuery (change : Query → Except Error Query) : Prop :=
  ∀ q next, q.WellFormed → change q = .ok next →
    next.WellFormed ∧ next = { q with joins := next.joins }

theorem along_keeps {change : Query → Except Error Query} (keeps : KeepsQuery change)
    (fields : List String) : KeepsQuery (along change fields) := by
  induction fields with
  | nil => exact keeps
  | cons field rest ih =>
    intro q next h step
    refine onJoin_keeps h ?_ step
    intro j j' fit wellFormed changed
    rw [Outcome.bind_eq_ok] at changed
    obtain ⟨query, inner, changed⟩ := changed
    obtain rfl := Outcome.pure_eq_ok.mp changed
    obtain ⟨wellFormed, same⟩ := ih j.query query wellFormed inner
    refine ⟨rfl, ?_, wellFormed⟩
    rw [same]
    exact ⟨fit.declared, fit.relation, fit.resolved, fit.listed, fit.unrestricted⟩

theorem join_keeps {path : RelationPath} (h : q.WellFormed) (step : q.join path = .ok next) :
    next.WellFormed := by
  rw [join, Outcome.bind_eq_ok] at step
  obtain ⟨_, _, step⟩ := step
  refine (along_keeps ?_ path.fields q next h step).1
  rintro q _ h ⟨⟩
  refine ⟨h, ?_⟩
  cases q
  rfl

/-! ### A query of its own -/

theorem isRestricted_eq_false (q : Query) :
    q.isRestricted = false ↔
      q.filter = none ∧ q.order = [] ∧ q.limit = none ∧ q.offset = none := by
  simp [isRestricted, and_assoc]

/-- A query takes the place of the joined one when it has the same root, is no count, and does
not restrict a single-valued relationship; the joins it lacks are kept after its own. -/
theorem replaceJoined_eq_ok {parent : Model} (h : replaceJoined parent query j = .ok j') :
    query.root = j.query.root ∧ query.count = false ∧
      (j.attr.isMany = false → query.isRestricted = false) ∧
        ∃ kept, kept = j.query.joins.filter (fun old => (query.joinFor? old.field).isNone) ∧
          j' = { j with query := { query with joins := query.joins ++ kept } } := by
  unfold replaceJoined at h
  simp only at h
  split at h
  · cases h
  · next root_eq =>
    split at h
    · cases h
    · next listed =>
      split at h
      · cases h
      · next restricted =>
        cases h
        exact ⟨not_not.mp root_eq, by simpa using listed, by simpa using restricted, _, rfl, rfl⟩

theorem JoinsFit.merge (fits : JoinsFit root query.joins) (older : JoinsFit root joins) :
    JoinsFit root
      (query.joins ++ joins.filter fun old => (query.joinFor? old.field).isNone) := by
  refine ⟨?_, fun e he => ?_, fun e he => ?_⟩
  · rw [List.map_append, List.nodup_append]
    refine ⟨fits.distinct, older.distinct.sublist (List.filter_sublist.map _), ?_⟩
    intro a ha b hb same
    obtain ⟨e, he, rfl⟩ := List.mem_map.mp ha
    obtain ⟨old, hold, rfl⟩ := List.mem_map.mp hb
    have absent := (List.mem_filter.mp hold).2
    rw [Option.isNone_iff_eq_none, joinFor?, List.find?_eq_none] at absent
    exact absent e he (by simpa using same)
  · rcases List.mem_append.mp he with he | he
    · exact fits.fit e he
    · exact older.fit e (List.mem_of_mem_filter he)
  · rcases List.mem_append.mp he with he | he
    · exact fits.wellFormed e he
    · exact older.wellFormed e (List.mem_of_mem_filter he)

theorem replaceJoined_keeps {parent root : Model} (h : query.WellFormed) :
    KeepsJoin root (replaceJoined parent query) := by
  intro j j' fit wellFormed step
  obtain ⟨root_eq, listed, unrestricted, kept, rfl, rfl⟩ := replaceJoined_eq_ok step
  refine ⟨rfl, ⟨fit.declared, fit.relation, ?_, listed, ?_⟩, h.withJoins ?_⟩
  · rw [fit.resolved, root_eq]
  · exact fun single => (isRestricted_eq_false query).mp (unrestricted single)
  · exact h.joinsFit.merge (root_eq ▸ wellFormed.joinsFit)

theorem joinWith_keeps {path : RelationPath} (h : q.WellFormed) (joined : query.WellFormed)
    (step : q.joinWith path query = .ok next) : next.WellFormed := by
  rw [joinWith, Outcome.bind_eq_ok] at step
  obtain ⟨_, _, step⟩ := step
  refine (along_keeps ?_ _ q next h step).1
  exact fun parent _ wellFormed step => onJoin_keeps wellFormed (replaceJoined_keeps joined) step

/-! ### Runs -/

/-- Every building operation keeps a query well formed, so a run of them does. -/
theorem Reachable.wellFormed : ∀ {q : Query}, q.Reachable → q.WellFormed
  | _, .select built => select_wellFormed built
  | _, .choose start walked step => choose_keeps (wellFormed start) walked step
  | _, .suchThat start _ step => suchThat_keeps (wellFormed start) step
  | _, .orderBy start _ step => orderBy_keeps (wellFormed start) step
  | _, .limitTo start step => limitTo_keeps (wellFormed start) step
  | _, .startAt start step => startAt_keeps (wellFormed start) step
  | _, .counting start => counting_keeps (wellFormed start)
  | _, .join start _ step => join_keeps (wellFormed start) step
  | _, .joinWith start _ joined step => joinWith_keeps (wellFormed start) (wellFormed joined) step

/-- In a query made by any run of building operations, the query itself and every joined query at
any depth is consistent with its own root. -/
theorem consistent_within_reachable (reachable : q.Reachable) (inside : sub.Within q) :
    sub.Consistent :=
  (reachable.wellFormed.within inside).here

theorem consistent_within_accountsWithUsers :
    Sample.accountsWithUsers.Reachable ∧ Sample.joinedUsers.Within Sample.accountsWithUsers ∧
      Sample.joinedUsers.Consistent := by
  have inside : Sample.joinedUsers.Within Sample.accountsWithUsers :=
    .joined List.mem_cons_self .refl
  exact ⟨Sample.accountsWithUsers_reachable, inside,
    consistent_within_reachable Sample.accountsWithUsers_reachable inside⟩

end Query

end RecordQuery
