import RecordQuery.Proofs.Query.Requested

/-!
# Responses to statements

A response answers a statement when it has every column of the select list, and the records of every
subselect answer that in turn. Loading such a response never misses a key, provided that something
comes from under every single-valued join. Where nothing does, the statement does not ask for what
loading requires.
-/

namespace RecordQuery

namespace Payload

variable {p raw : Payload} {key : String} {path : List String}

/-- The payload has an entry at the end of the path, or null stands before. -/
def Has : List String → Payload → Prop
  | [], _ => True
  | key :: rest, p => ∃ inner, p.get? key = some inner ∧ (inner = .null ∨ inner.Has rest)

/-- What stands at the end of the path. -/
def At : List String → Payload → Payload → Prop
  | [], p, found => p = found
  | key :: rest, p, found => ∃ inner, p.get? key = some inner ∧ inner.At rest found

theorem Has.entry (h : p.Has (key :: path)) : ∃ raw, p.get? key = some raw := by
  obtain ⟨raw, found, _⟩ := h
  exact ⟨raw, found⟩

theorem Has.inner (h : p.Has (key :: path)) (found : p.get? key = some raw)
    (present : raw ≠ .null) : raw.Has path := by
  obtain ⟨inner, found', null | has⟩ := h
  · cases found.symm.trans found'
    exact absurd null present
  · cases found.symm.trans found'
    exact has

end Payload

/-- A key that is required is not in the record. -/
def Error.Missing (e : Error) : Prop :=
  ∃ schema field, e = .payloadMismatch schema field .missingFromRecord

namespace Query

/-- The payload has what the statement of the query asks for. -/
inductive Answered : Query → Payload → Prop
  | intro {q : Query} {p : Payload} (columns : ∀ path, q.Selects path → p.Has path)
      (sources : ∀ path sub, q.Subselects path sub → p.Has path)
      (records : ∀ path sub, q.Subselects path sub → ∀ found, p.At path found →
        ∀ schema field items, found.records schema field = .ok items →
          ∀ item ∈ items, Answered sub item) : Answered q p

/-- The keys of a record that loading looks at are those of the fields that are read, and it cannot
do without any of them. -/
structure ReadsKeys (q : Query) : Prop where
  required : ∀ entries x, q.loadRecord (.mapping entries) = .ok x →
    ∀ f ∈ q.reads, ∃ raw, entries.lookup f.attr.externalName = some raw
  only : ∀ entries entries' : Payload.Entries,
    (∀ f ∈ q.reads, entries.lookup f.attr.externalName = entries'.lookup f.attr.externalName) →
      q.loadRecord (.mapping entries) = q.loadRecord (.mapping entries')

variable {q sub : Query} {m : Model} {p raw item : Payload} {f : Field} {j : Join Query}
  {path : List String} {e : Error} {record : Payload.Entries} {items : List Payload}
  {schema field : String}

/-! ### Keys -/

theorem required_congr {externalName : String} {entries entries' : Payload.Entries}
    (same : entries.lookup externalName = entries'.lookup externalName) :
    required m field externalName entries = required m field externalName entries' := by
  rw [required, required, same]

theorem readsKeys (q : Query) : q.ReadsKeys where
  required := by
    intro entries x run f read
    obtain ⟨record, scalars, related, ⟨⟩, columns, joins, _⟩ := loadRecord_eq_ok.mp run
    rcases List.mem_append.mp read with selected | joined
    · obtain ⟨⟨name, s⟩, _, step⟩ := Outcome.exists_of_mapM columns selected
      obtain ⟨raw, _, entry, _⟩ := loadColumn_eq_ok.mp step
      exact ⟨raw, required_eq_ok.mp entry⟩
    · obtain ⟨j, mem, rfl⟩ := List.mem_map.mp joined
      obtain ⟨⟨name, s⟩, _, step⟩ := Outcome.exists_of_mapM joins mem
      obtain ⟨raw, entry, _⟩ := loadJoin_eq_ok.mp step
      exact ⟨raw, required_eq_ok.mp entry⟩
  only := by
    intro entries entries' same
    have columns : q.selected.mapM (loadColumn q.root entries) =
        q.selected.mapM (loadColumn q.root entries') := by
      apply Outcome.mapM_congr
      intro f selected
      rw [loadColumn, loadColumn, required_congr (same f (List.mem_append_left _ selected))]
    have joins : q.joins.mapM (loadJoin q.root entries) =
        q.joins.mapM (loadJoin q.root entries') := by
      apply Outcome.mapM_congr
      intro j joined
      have read : j.toField ∈ q.reads := List.mem_append_right _ (List.mem_map_of_mem joined)
      have key : entries.lookup j.attr.externalName = entries'.lookup j.attr.externalName :=
        same _ read
      rw [loadJoin, loadJoin, required_congr key]
    rw [loadRecord_eq, loadRecord_eq]
    simp only [Payload.record, Outcome.ok_bind, columns, joins]

/-! ### Answers -/

theorem Answered.columns (h : q.Answered p) (selects : q.Selects path) : p.Has path := by
  cases h with
  | intro columns _ _ => exact columns path selects

theorem Answered.sources (h : q.Answered p) (subselects : q.Subselects path sub) :
    p.Has path := by
  cases h with
  | intro _ sources _ => exact sources path sub subselects

theorem Answered.records {found : Payload} (h : q.Answered p)
    (subselects : q.Subselects path sub) (here : p.At path found)
    (read : found.records schema field = .ok items) (mem : item ∈ items) : sub.Answered item := by
  cases h with
  | intro _ _ records =>
    exact records path sub subselects found here schema field items read item mem

theorem Answered.many (h : q.Answered p) (mem : j ∈ q.joins) (many : j.attr.isMany = true)
    (found : p.get? j.attr.externalName = some raw)
    (read : raw.records schema field = .ok items) (listed : item ∈ items) :
    j.query.Answered item :=
  h.records (subselects_refl mem many) ⟨raw, found, rfl⟩ read listed

/-- What answers a statement answers the queries that are inline in it. -/
theorem Answered.single (h : q.Answered p) (mem : j ∈ q.joins) (single : j.attr.isMany = false)
    (found : p.get? j.attr.externalName = some raw) (present : raw ≠ .null) :
    j.query.Answered raw := by
  refine .intro (fun path selects => ?_) (fun path sub subselects => ?_) ?_
  · exact (h.columns (selects.under mem single)).inner found present
  · exact (h.sources (subselects.under mem single)).inner found present
  · intro path sub subselects inner here schema field items read item listed
    exact h.records (subselects.under mem single) ⟨raw, found, here⟩ read listed

theorem Answered.entry (h : q.Answered p) (asks : q.Asks [f.attr.externalName]) :
    ∃ raw, p.get? f.attr.externalName = some raw := by
  rcases asks with ⟨rest, selects⟩ | ⟨rest, sub, subselects⟩
  · exact (h.columns selects).entry
  · exact (h.sources subselects).entry

/-! ### Errors -/

theorem record_error (run : p.record schema = .error e) : ¬ e.Missing := by
  cases p with
  | mapping entries => cases run
  | _ =>
    cases run
    rintro ⟨_, _, ⟨⟩⟩

theorem records_error (run : p.records schema field = .error e) : ¬ e.Missing := by
  unfold Payload.records at run
  split at run
  · cases run
  · cases run
  · split at run
    · cases run
    · cases run
      rintro ⟨_, _, ⟨⟩⟩
  · cases run
    rintro ⟨_, _, ⟨⟩⟩

theorem coercePayload_error {a : Attribute} (run : a.coercePayload schema field p = .error e) :
    ¬ e.Missing := by
  unfold Attribute.coercePayload Attribute.coerce at run
  split at run
  · split at run
    · split at run
      · cases run
      · cases run
        rintro ⟨_, _, ⟨⟩⟩
    · split at run
      · cases run
      · cases run
        rintro ⟨_, _, ⟨⟩⟩
  · cases run
    rintro ⟨_, _, ⟨⟩⟩

theorem loadColumn_error (entry : ∃ raw, record.lookup f.attr.externalName = some raw)
    (run : loadColumn m record f = .error e) : ¬ e.Missing := by
  obtain ⟨raw, found⟩ := entry
  rw [loadColumn, required_eq_ok.mpr found, Outcome.ok_bind, Outcome.bind_eq_error] at run
  rcases run with coerced | ⟨_, _, done⟩
  · exact coercePayload_error coerced
  · exact absurd done Outcome.pure_ne_error

theorem loadRelated_error
    (single : j.attr.isMany = false → raw ≠ .null → ∀ e, j.query.loadRecord raw = .error e →
      ¬ e.Missing)
    (many : ∀ items, j.attr.isMany = true → raw.records m.name j.field = .ok items →
      ∀ p ∈ items, ∀ e, j.query.loadRecord p = .error e → ¬ e.Missing)
    (run : loadRelated m j raw = .error e) : ¬ e.Missing := by
  unfold loadRelated at run
  split at run
  · next arity =>
    rcases Outcome.bind_eq_error.mp run with unread | ⟨items, read, run⟩
    · exact records_error unread
    · rcases Outcome.bind_eq_error.mp run with failed | ⟨_, _, done⟩
      · obtain ⟨p, mem, step⟩ := Outcome.error_of_mapM failed
        exact many items arity read p mem e step
      · exact absurd done Outcome.pure_ne_error
  · next arity =>
    split at run
    · split at run
      · exact absurd run Outcome.pure_ne_error
      · cases run
        rintro ⟨_, _, ⟨⟩⟩
    · rcases Outcome.bind_eq_error.mp run with failed | ⟨_, _, done⟩
      · exact single (by simpa using arity) (by simp) e failed
      · exact absurd done Outcome.pure_ne_error
    · cases run
      rintro ⟨_, _, ⟨⟩⟩

theorem loadJoin_error (entry : record.lookup j.attr.externalName = some raw)
    (related : loadRelated m j raw = .error e → ¬ e.Missing)
    (run : loadJoin m record j = .error e) : ¬ e.Missing := by
  rw [loadJoin, required_eq_ok.mpr entry, Outcome.ok_bind, Outcome.bind_eq_error] at run
  rcases run with failed | ⟨_, _, done⟩
  · exact related failed
  · exact absurd done Outcome.pure_ne_error

/-- A load fails at the record itself, at a column or at a join. -/
theorem loadRecord_eq_error (run : q.loadRecord p = .error e) : p.record q.root.name = .error e ∨
    ∃ record, p = .mapping record ∧
      ((∃ f ∈ q.selected, loadColumn q.root record f = .error e) ∨
        ∃ j ∈ q.joins, loadJoin q.root record j = .error e) := by
  rw [loadRecord_eq, Outcome.bind_eq_error] at run
  rcases run with shape | ⟨record, read, run⟩
  · exact .inl shape
  · refine .inr ⟨record, Payload.record_eq_ok.mp read, ?_⟩
    rcases Outcome.bind_eq_error.mp run with failed | ⟨_, _, run⟩
    · exact .inl (Outcome.error_of_mapM failed)
    · rcases Outcome.bind_eq_error.mp run with failed | ⟨_, _, done⟩
      · exact .inr (Outcome.error_of_mapM failed)
      · exact absurd done Outcome.pure_ne_error

/-- Where something comes from under every single-valued join, an answer has every key. -/
theorem WellFormed.loadRecord_error (wellFormed : q.WellFormed) : ∀ p e, q.Contributing →
    q.Answered p → q.loadRecord p = .error e → ¬ e.Missing := by
  induction wellFormed with
  | @intro q _ _ ih =>
    intro p e contributes answered run
    have entry f (read : f ∈ q.reads) : ∃ raw, p.get? f.attr.externalName = some raw :=
      answered.entry (contributes.requested q .refl [] q .refl f read)
    rcases loadRecord_eq_error run with shape | ⟨record, rfl, ⟨f, selected, step⟩ | ⟨j, mem, step⟩⟩
    · exact record_error shape
    · exact loadColumn_error (entry f (List.mem_append_left _ selected)) step
    · obtain ⟨raw, found⟩ := entry _ (List.mem_append_right _ (List.mem_map_of_mem mem))
      -- What stands under the key answers the joined query, inline or as a statement of its own.
      have below : j.query.Contributing := fun sub inside => contributes sub (.joined mem inside)
      refine loadJoin_error found (loadRelated_error (fun single present e => ?_) ?_) step
      · exact ih j mem raw e below (answered.single mem single found present)
      · intro items many read item listed e
        exact ih j mem item e below (answered.many mem many found read listed)

/-! ### Statements and loads -/

/-- The statement of `s` stands in that of `q`, and has the items that `s` selects and no others.
Each of them belongs to a field that is read. -/
structure Written (s q : Query) : Prop where
  part : ∃ source, statementFrom source s <:+: q.fragment
  list : ∀ source, statementFrom source s =
    .keyword .SELECT :: (project [s.root.objectName] s).fragment ++ .keyword .FROM :: source ++
      clauses s.filter s.order s.limit s.offset
  columns : ∀ item, item ∈ (project [s.root.objectName] s).columns ↔
    ∃ path, s.Selects path ∧ item = .path (s.root.objectName :: path)
  subselects : ∀ item, item ∈ (project [s.root.objectName] s).subselects ↔
    ∃ path sub, s.Subselects path sub ∧
      item = Fragment.parens (statementFrom (.path (s.root.objectName :: path)) sub)
  read : ∀ path, (s.Selects path ∨ ∃ sub, s.Subselects path sub) →
    ∃ outer sub f, s.Inline outer sub ∧ f ∈ sub.reads ∧ path = outer ++ [f.attr.externalName]

theorem Stated.written {s : Query} (h : Stated s q) (wellFormed : q.WellFormed)
    (listing : q.count = false) : s.Written q where
  part := h.infix wellFormed listing _
  list := fun _ => statementFrom_eq (h.listing wellFormed listing)
  columns := fun _ => mem_project_columns (wellFormed.within h.within) _
  subselects := fun _ => mem_project_subselects (wellFormed.within h.within) _
  read := by
    intro path items
    rcases items with ⟨inline, selected⟩ | ⟨_, inline, joined, _⟩
    · exact ⟨_, _, _, inline, List.mem_append_left _ selected, rfl⟩
    · exact ⟨_, _, _, inline, List.mem_append_right _ (List.mem_map_of_mem joined), rfl⟩

/-- What loading requires and what the statements ask for are the same exactly when something comes
from under every single-valued join. An answer to the statements then has every key. -/
theorem requested_iff_contributing (reachable : q.Reachable) (listing : q.count = false) :
    (∀ sub : Query, sub.Within q → sub.ReadsKeys ∧ ∃ s path, Stated s q ∧ s.Inline path sub) ∧
    (∀ s, Stated s q → s.Written q) ∧
    (q.Contributing → q.Requested ∧ ∀ records, (∀ p ∈ records, q.Answered p) →
      ∀ schema field, q.load records ≠ .error (.payloadMismatch schema field .missingFromRecord)) ∧
    (q.DistinctNames → (q.Requested ↔ q.Contributing)) := by
  have wellFormed := reachable.wellFormed
  refine ⟨fun sub inside => ⟨sub.readsKeys, inside.level⟩, fun s stated => ?_, ?_, ?_⟩
  · exact stated.written wellFormed listing
  · intro contributes
    refine ⟨contributes.requested, fun records answered schema field run => ?_⟩
    rw [load, listing, if_neg Bool.false_ne_true] at run
    obtain ⟨p, mem, step⟩ := Outcome.error_of_mapM run
    exact wellFormed.loadRecord_error p _ contributes (answered p mem) step ⟨schema, field, rfl⟩
  · exact fun names => ⟨fun requested => requested.contributing names, Contributing.requested⟩

end Query

/-! ### At the sample -/

namespace Sample

theorem accountsWithUsers_contributing : accountsWithUsers.Contributing := by
  have account : accountOfUser.query.Asks [] :=
    .inl ⟨["Id"], Query.selects_refl (f := ⟨"id", ⟨"Id", false, .scalar .string⟩⟩) (by decide)⟩
  intro sub inside j mem single
  rcases inside with _ | ⟨outer, inside⟩
  · obtain rfl := List.mem_singleton.mp mem
    cases single
  · obtain rfl := List.mem_singleton.mp outer
    rcases inside with _ | ⟨outer, inside⟩
    · obtain rfl := List.mem_singleton.mp mem
      exact account
    · obtain rfl := List.mem_singleton.mp outer
      rcases inside with _ | ⟨outer, _⟩
      · cases mem
      · cases outer

theorem accountsWithUsers_requested : accountsWithUsers.Reachable ∧
    accountsWithUsers.count = false ∧ accountsWithUsers.Contributing ∧
    accountsWithUsers.Requested := by
  have contributing := accountsWithUsers_contributing
  have whole := Query.requested_iff_contributing accountsWithUsers_reachable rfl
  exact ⟨accountsWithUsers_reachable, rfl, contributing, (whole.2.2.1 contributing).1⟩

/-! A group has tasks and nothing else. -/

def taskFields : List Field :=
  [⟨"id", ⟨"Id", false, .scalar .string⟩⟩, ⟨"group", ⟨"Group", false, .relation "Group" false⟩⟩]

def groupFields : List Field := [⟨"tasks", ⟨"Tasks", false, .relation "Task" true⟩⟩]

def taskRegistry : Registry :=
  ⟨0, [⟨"Task", "Task", taskFields⟩, ⟨"Group", "Group", groupFields⟩]⟩

theorem taskRegistry_built : taskRegistry.Built :=
  ⟨0, [⟨"Task", none, [], taskFields⟩, ⟨"Group", none, [], groupFields⟩], rfl⟩

def task : Model := ⟨taskRegistry, ⟨"Task", "Task", taskFields⟩, List.mem_cons_self⟩

def group : Model :=
  ⟨taskRegistry, ⟨"Group", "Group", groupFields⟩, List.mem_cons_of_mem _ List.mem_cons_self⟩

def taskGroup : RelationPath := ⟨task, [], ⟨"group", "Group", false⟩, group⟩

def tasksWithGroup : Query :=
  { Query.select task with
    joins := [⟨"group", ⟨"Group", false, .relation "Group" false⟩, Query.select group⟩] }

theorem tasksWithGroup_reachable : tasksWithGroup.Reachable := by
  have walked : task.relationAt "group" = .ok taskGroup := rfl
  have step : (Query.select task).join taskGroup = .ok tasksWithGroup := rfl
  exact .join (.select taskRegistry_built) (.start taskRegistry_built walked) step

def taskRecord : Payload := .mapping [("Id", .string "t1")]

theorem selects_tasksWithGroup {path : List String} (h : tasksWithGroup.Selects path) :
    path = ["Id"] := by
  rcases Query.selects_iff.mp h with ⟨f, selected, rfl⟩ | ⟨j, mem, _, below, inside, _⟩
  · obtain rfl := List.mem_singleton.mp selected
    rfl
  · obtain rfl := List.mem_singleton.mp mem
    rcases Query.selects_iff.mp inside with ⟨f, selected, _⟩ | ⟨k, mem, _⟩
    · cases selected
    · cases mem

theorem subselects_tasksWithGroup {path : List String} {sub : Query} :
    ¬ tasksWithGroup.Subselects path sub := by
  intro h
  rcases Query.subselects_iff.mp h with ⟨j, mem, many, _⟩ | ⟨j, mem, _, below, inside, _⟩
  · obtain rfl := List.mem_singleton.mp mem
    cases many
  · obtain rfl := List.mem_singleton.mp mem
    rcases Query.subselects_iff.mp inside with ⟨k, mem, _⟩ | ⟨k, mem, _⟩
    · cases mem
    · cases mem

/-- Nothing comes from under the join over the group, so the statement does not mention the group,
and a response that has all that the statement asks for is refused. -/
theorem tasksWithGroup_unrequested : tasksWithGroup.Reachable ∧ tasksWithGroup.count = false ∧
    tasksWithGroup.text = "SELECT Task.Id FROM Task" ∧ ¬ tasksWithGroup.Requested ∧
    tasksWithGroup.Answered taskRecord ∧
    tasksWithGroup.load [taskRecord] =
      .error (.payloadMismatch "Task" "group" .missingFromRecord) := by
  refine ⟨tasksWithGroup_reachable, rfl, by decide, fun requested => ?_, ?_, rfl⟩
  · have asks := requested tasksWithGroup .refl [] tasksWithGroup .refl
      ⟨"group", ⟨"Group", false, .relation "Group" false⟩⟩ (by decide)
    rcases asks with ⟨rest, selects⟩ | ⟨rest, sub, subselects⟩
    · exact absurd (List.cons.inj (selects_tasksWithGroup selects)).1 (by decide)
    · exact subselects_tasksWithGroup subselects
  · refine .intro (fun path selects => ?_) (fun _ _ h => absurd h subselects_tasksWithGroup)
      fun _ _ h => absurd h subselects_tasksWithGroup
    obtain rfl := selects_tasksWithGroup selects
    exact ⟨.string "t1", rfl, .inr trivial⟩

end Sample

end RecordQuery
