import RecordQuery.Proofs.Query.Growing

/-!
# Joining with a query of its own

A query that is joined takes the place of the one at the end of the path and keeps its older joins
over fields that it does not join itself. Whether it is accepted depends on the path and on the
query alone, not on what was joined before. Everything that is not at or below the end of the path
is left as joining along the path leaves it.
-/

namespace RecordQuery

namespace Query

/-- The joins of the query that a path leads to, none where it leads nowhere. -/
def joinsUnder (q : Query) (path : List String) : List (Join Query) := (q.reach? path).elim [] joins

/-- A query in the place of an older one. -/
def replacing (s old : Query) : Query :=
  { s with joins := s.joins ++ old.joins.filter fun j => (s.joinFor? j.field).isNone }

variable {q next sub s : Query} {parent : Model} {j j' : Join Query} {rel : RelationPath}
  {fields : List String} {plug : Query → Query}

/-! ### At the end of the path -/

/-- The query fits the end of the path: it is over the target, is no count, and picks out no records
where there is only one. -/
structure Suits (s : Query) (rel : RelationPath) : Prop where
  root : s.root = rel.target
  listed : s.count = false
  unrestricted : rel.isMany = false →
    s.filter = none ∧ s.order = [] ∧ s.limit = none ∧ s.offset = none

theorem replaceJoined_ok_iff : replaceJoined parent s j = .ok j' ↔
    (s.root = j.query.root ∧ s.count = false ∧ (j.attr.isMany = false → s.isRestricted = false)) ∧
      j' = { j with query := s.replacing j.query } := by
  constructor
  · intro step
    obtain ⟨root, listed, unrestricted, _, rfl, rfl⟩ := replaceJoined_eq_ok step
    exact ⟨⟨root, listed, unrestricted⟩, rfl⟩
  · intro h
    obtain ⟨⟨root, listed, unrestricted⟩, rfl⟩ := h
    have counted : ¬ s.count = true := by rw [listed]; exact Bool.false_ne_true
    have restricted : ¬ (!j.attr.isMany && s.isRestricted) = true := by simpa using unrestricted
    simp only [replaceJoined]
    rw [if_neg (not_not_intro root), if_neg counted, if_neg restricted]
    rfl

theorem suits_iff (target : j.query.root = rel.target) (many : j.attr.isMany = rel.isMany) :
    (s.root = j.query.root ∧ s.count = false ∧
      (j.attr.isMany = false → s.isRestricted = false)) ↔ s.Suits rel := by
  rw [target, many, isRestricted_eq_false]
  constructor
  · intro h
    obtain ⟨root, listed, unrestricted⟩ := h
    exact ⟨root, listed, unrestricted⟩
  · intro h
    exact ⟨h.root, h.listed, h.unrestricted⟩

/-! ### Along the path -/

/-- Joining with a query replaces what is at the end of the path, and the query decides alone
whether it does. -/
theorem WellFormed.joinWith_opened (h : q.WellFormed) (walked : rel.Walked)
    (start : rel.root = q.root) :
    ∃ old plug, q.Opened rel.fields old plug ∧ old.root = rel.target ∧
      ∀ s next, q.joinWith rel s = .ok next ↔ s.Suits rel ∧ next = plug (s.replacing old) := by
  obtain ⟨owner, leads, last⟩ := walked.declares
  obtain ⟨parent, plug, opened, rfl⟩ := Opened.exists_of_leads (start ▸ leads) h
  obtain ⟨j, found, hop, target⟩ := (opened.wellFormed h).exists_joinAt last
  have name : j.field = rel.last.field := congrArg Hop.field hop
  have many : j.attr.isMany = rel.isMany := congrArg Hop.many hop
  have fields : rel.parents.map Hop.field ++ [rel.last.field] = rel.fields := by
    rw [RelationPath.fields, RelationPath.hops, List.map_append, List.map_singleton]
  refine ⟨j.query, _, fields ▸ opened.snoc found, target, fun s next => ?_⟩
  have edit : parent.onJoin rel.last.field (replaceJoined parent.root s) =
      replaceJoined parent.root s j >>= fun j' => .ok (parent.put j') := by
    refine onJoin_ok found fun j' replaced => ?_
    obtain ⟨_, rfl⟩ := replaceJoined_ok_iff.mp replaced
    exact name
  rw [joinWith, checkStart, if_pos start, Outcome.ok_bind, opened.along h, edit,
    ← suits_iff target many]
  constructor
  · intro step
    obtain ⟨edited, step, last⟩ := Outcome.bind_eq_ok.mp step
    obtain ⟨j', replaced, put⟩ := Outcome.bind_eq_ok.mp step
    obtain ⟨accepted, rfl⟩ := replaceJoined_ok_iff.mp replaced
    obtain rfl := Except.ok.inj put
    exact ⟨accepted, (Except.ok.inj last).symm⟩
  · intro accepted
    obtain ⟨accepted, rfl⟩ := accepted
    rw [replaceJoined_ok_iff.mpr ⟨accepted, rfl⟩]
    rfl

theorem joinWith_start (step : q.joinWith rel s = .ok next) : rel.root = q.root := by
  obtain ⟨_, checked, _⟩ := Outcome.bind_eq_ok.mp step
  rw [checkStart] at checked
  split at checked
  · next start => exact start
  · cases checked

theorem WellFormed.joinWith_ok_iff (h : q.WellFormed) (walked : rel.Walked) :
    (∃ next, q.joinWith rel s = .ok next) ↔ rel.root = q.root ∧ s.Suits rel := by
  constructor
  · intro success
    obtain ⟨next, step⟩ := success
    have start := joinWith_start step
    obtain ⟨_, _, _, _, run⟩ := h.joinWith_opened walked start
    exact ⟨start, ((run s next).mp step).1⟩
  · intro accepted
    obtain ⟨start, suits⟩ := accepted
    obtain ⟨_, _, _, _, run⟩ := h.joinWith_opened walked start
    exact ⟨_, (run s _).mpr ⟨suits, rfl⟩⟩

theorem Opened.joinsUnder (h : q.Opened fields sub plug) (wellFormed : q.WellFormed) :
    q.joinsUnder fields = sub.joins := by
  rw [Query.joinsUnder]
  rcases h.start wellFormed with reached | ⟨missing, default⟩
  · rw [reached]
    rfl
  · rw [missing, default]
    rfl

theorem select_suits (rel : RelationPath) : (select rel.target).Suits rel :=
  ⟨rfl, rfl, fun _ => ⟨rfl, rfl, rfl, rfl⟩⟩

/-- In the place of a default query, the default query is itself. -/
theorem WellFormed.joinWith_select (h : q.WellFormed) (walked : rel.Walked)
    (unjoined : ¬ q.Joins rel.fields) : q.joinWith rel (select rel.target) = q.join rel := by
  by_cases start : rel.root = q.root
  · obtain ⟨old, plug, opened, target, run⟩ := h.joinWith_opened walked start
    have default : old = select rel.target := by
      rw [h.joins_iff] at unjoined
      rcases opened.start h with reached | ⟨_, default⟩
      · rw [reached] at unjoined
        exact absurd rfl unjoined
      · rw [default, target]
    rw [opened.join h start]
    apply (run _ _).mpr ⟨select_suits rel, ?_⟩
    rw [default]
    rfl
  · rw [joinWith, join, checkStart, if_neg start]
    rfl

/-- A query is accepted exactly when it suits the end of a path that starts at the root. It is then
found there with its own joins first, and away from there nothing has happened but joining along the
path. The default query gives just that, where the path was not joined before. -/
theorem joinWith_replaces (reachable : q.Reachable) (walked : rel.Walked) (joined : s.Reachable) :
    ((∃ next, q.joinWith rel s = .ok next) ↔ rel.root = q.root ∧ s.Suits rel) ∧
    (∀ next, q.joinWith rel s = .ok next →
      next.reach? rel.fields = some { s with
        joins := s.joins ++
          (q.joinsUnder rel.fields).filter fun old => (s.joinFor? old.field).isNone } ∧
      ∀ path, ¬ rel.fields <+: path →
        (next.Joins path ↔ q.Joins path ∨ path <+: rel.fields) ∧ q.GrownAt path next) ∧
    (¬ q.Joins rel.fields → q.joinWith rel (select rel.target) = q.join rel) := by
  have h := reachable.wellFormed
  refine ⟨h.joinWith_ok_iff walked, fun next step => ?_, h.joinWith_select walked⟩
  have wellFormed := joinWith_keeps h joined.wellFormed step
  obtain ⟨old, plug, opened, _, run⟩ := h.joinWith_opened walked (joinWith_start step)
  obtain ⟨_, rfl⟩ := (run s next).mp step
  refine ⟨?_, fun path apart => ?_⟩
  · have there : (plug (s.replacing old)).reach? (rel.fields ++ []) = some (s.replacing old) :=
      opened.reach? h
    rw [List.append_nil] at there
    rw [there, opened.joinsUnder h]
    rfl
  · have outside (below : List String) (split : path = rel.fields ++ below) : False :=
      apart (split ▸ List.prefix_append _ _)
    rw [wellFormed.joins_iff, h.joins_iff]
    exact ⟨opened.joined_iff h fun below split => (outside below split).elim,
      opened.grown h fun below split => (outside below split).elim⟩

end Query

namespace Sample

/-- The users of one name take the place of all users, and the account of each stays joined. -/
theorem accountsWithUserAccounts_replaced :
    accountsWithUserAccounts.Reachable ∧ accountUsers.Walked ∧ firstUsers.Reachable ∧
      accountsWithUserAccounts.joinWith accountUsers firstUsers = .ok accountsWithUsers ∧
      accountsWithUsers.reach? ["users"] = some { firstUsers with joins := [accountOfUser] } := by
  have reachable := accountsWithUserAccounts_reachable
  have step : accountsWithUserAccounts.joinWith accountUsers firstUsers =
    .ok accountsWithUsers := rfl
  obtain ⟨_, replaced, _⟩ :=
    Query.joinWith_replaces reachable accountUsers_walked firstUsers_reachable
  exact ⟨reachable, accountUsers_walked, firstUsers_reachable, step, (replaced _ step).1⟩

end Sample

end RecordQuery
