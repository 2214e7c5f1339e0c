import RecordQuery.Proofs.Query.Throughout

/-!
# Plain queries

A query that is made by selecting a model and joining along paths, and by nothing else, reads all
scalar fields at every depth and counts nothing.
-/

namespace RecordQuery.Query

/-- The queries that are made from one model by joining along paths. -/
inductive Joined (m : Model) : Query → Prop
  | select (built : m.registry.Built) : Joined m (Query.select m)
  | join {q next : Query} {path : RelationPath} (start : Joined m q) (walked : path.Walked)
      (step : q.join path = .ok next) : Joined m next

/-- All scalar fields are read, at every depth. -/
inductive Plain : Query → Prop
  | intro {q : Query} (whole : q.columns = []) (listed : q.count = false)
      (below : ∀ j ∈ q.joins, Plain j.query) : Plain q

variable {q next : Query} {m : Model} {j : Join Query}

theorem Plain.whole (h : q.Plain) : q.columns = [] := by
  cases h
  assumption

theorem Plain.listed (h : q.Plain) : q.count = false := by
  cases h
  assumption

theorem Plain.joined (h : q.Plain) (mem : j ∈ q.joins) : j.query.Plain := by
  cases h with
  | intro _ _ below => exact below j mem

theorem plain_lasting : Lasting fun q => q.columns = [] ∧ q.count = false where
  fresh _ := ⟨rfl, rfl⟩
  joins _ h := h

theorem Plain.of_throughout (wellFormed : q.WellFormed)
    (h : q.Throughout fun q => q.columns = [] ∧ q.count = false) : q.Plain := by
  induction wellFormed with
  | intro _ _ ih => exact .intro h.here.1 h.here.2 fun j mem => ih j mem (h.joined mem)

theorem join_root {path : RelationPath} (step : q.join path = .ok next) : next.root = q.root := by
  obtain ⟨_, _, step⟩ := Outcome.bind_eq_ok.mp step
  cases fields : path.fields with
  | nil =>
    rw [fields] at step
    cases step
    rfl
  | cons field rest =>
    rw [fields] at step
    obtain ⟨joins, _, step⟩ := Outcome.bind_eq_ok.mp step
    obtain rfl := Outcome.pure_eq_ok.mp step
    rfl

theorem Joined.reachable (h : Joined m q) : q.Reachable := by
  induction h with
  | select built => exact .select built
  | join _ walked step ih => exact .join ih walked step

/-- Nothing but joins has been changed anywhere since the model was selected. -/
theorem Joined.plain (h : Joined m q) : q.Plain ∧ q.root = m := by
  have everywhere : q.Throughout fun q => q.columns = [] ∧ q.count = false := by
    induction h with
    | select _ => exact plain_lasting.select m
    | join _ _ step ih => exact plain_lasting.join ih step
  refine ⟨.of_throughout h.reachable.wellFormed everywhere, ?_⟩
  clear everywhere
  induction h with
  | select _ => rfl
  | join _ _ step ih => rw [join_root step, ih]

end RecordQuery.Query
