import RecordQuery.Proofs.Query.Merging
import RecordQuery.Proofs.Query.SelectList

/-!
# Queries at the end of joined paths

A path of joined fields leads to one query inside another. An edit along a path takes up the query
at its end, where joins that are missing on the way are the default ones, and puts another in its
place: what is read at and below the end of the path is read from the query put there, and the
result is a success exactly when the edit of that one query is.
-/

namespace RecordQuery.Query

/-- The query that a path of joined fields leads to. -/
def reach? : Query → List String → Option Query
  | q, [] => some q
  | q, field :: rest => (q.joinFor? field).bind fun j => j.query.reach? rest

/-- The parts of a query without its joins. -/
def bare (q : Query) : Query := { q with joins := [] }

/-- The fields that a query joins, in order. -/
def heads (q : Query) : List Field := q.joins.map Join.toField

/-- The join over a field, which is the default join if there is none. -/
def joinAt (q : Query) (field : String) : Except Error (Join Query) :=
  match q.joinFor? field with
  | some j => .ok j
  | none => defaultJoin q.root field

/-- Puts a join in the place of the one over the same field, or after all others. -/
def putJoin (j : Join Query) : List (Join Query) → List (Join Query)
  | [] => [j]
  | e :: rest => if e.field = j.field then j :: rest else e :: putJoin j rest

def put (q : Query) (j : Join Query) : Query := { q with joins := putJoin j q.joins }

/-- A walk along fields over joins that are there or else default ones: the query at its end, and
the whole query as a function of what is put there. -/
inductive Opened : Query → List String → Query → (Query → Query) → Prop
  | here {q : Query} : Opened q [] q id
  | inside {q sub : Query} {field : String} {rest : List String} {j : Join Query}
      {plug : Query → Query} (found : q.joinAt field = .ok j)
      (inner : Opened j.query rest sub plug) :
      Opened q (field :: rest) sub fun s => q.put { j with query := plug s }

variable {q sub s : Query} {m : Model} {field other : String}
  {path fields rest below : List String} {j j' : Join Query}
  {joins before after : List (Join Query)} {root : Model} {hop : Hop} {hops : List Hop}
  {change : Join Query → Except Error (Join Query)} {plug : Query → Query}

/-! ### One join -/

theorem joinFor?_split (found : q.joinFor? field = some j) :
    ∃ before after, q.joins = before ++ j :: after ∧ (∀ e ∈ before, e.field ≠ field) ∧
      j.field = field := by
  obtain ⟨name, before, after, split, absent⟩ := List.find?_eq_some_iff_append.mp found
  exact ⟨before, after, split, by simpa using absent, by simpa using name⟩

theorem joinFor?_absent (missing : q.joinFor? field = none) : ∀ e ∈ q.joins, e.field ≠ field := by
  simpa [joinFor?] using missing

theorem putJoin_over (absent : ∀ e ∈ before, e.field ≠ j'.field) (named : j.field = j'.field) :
    putJoin j' (before ++ j :: after) = before ++ j' :: after := by
  induction before with
  | nil => rw [List.nil_append, putJoin, if_pos named, List.nil_append]
  | cons e before ih =>
    obtain ⟨apart, absent⟩ := List.forall_mem_cons.mp absent
    rw [List.cons_append, putJoin, if_neg apart, ih absent, List.cons_append]

theorem putJoin_absent (absent : ∀ e ∈ joins, e.field ≠ j.field) :
    putJoin j joins = joins ++ [j] := by
  induction joins with
  | nil => rfl
  | cons e joins ih =>
    obtain ⟨apart, absent⟩ := List.forall_mem_cons.mp absent
    rw [putJoin, if_neg apart, ih absent, List.cons_append]

theorem find?_putJoin_of_ne (different : other ≠ j.field) :
    (putJoin j joins).find? (·.field == other) = joins.find? (·.field == other) := by
  induction joins with
  | nil => simp [putJoin, different.symm]
  | cons e joins ih =>
    rw [putJoin]
    by_cases named : e.field = j.field
    · rw [if_pos named]
      simp [named, different.symm]
    · rw [if_neg named, List.find?_cons, List.find?_cons, ih]

theorem find?_putJoin : (putJoin j joins).find? (·.field == j.field) = some j := by
  induction joins with
  | nil => simp [putJoin]
  | cons e joins ih =>
    rw [putJoin]
    by_cases named : e.field = j.field
    · rw [if_pos named]
      simp
    · rw [if_neg named, List.find?_cons_of_neg (by simpa using named), ih]

theorem put_self (found : q.joinFor? j.field = some j) : q.put j = q := by
  obtain ⟨before, after, split, absent, _⟩ := joinFor?_split found
  rw [put, split, putJoin_over absent rfl, ← split]
  cases q
  rfl

/-- A join that is put has no other place than the one over its field, or the last. -/
theorem heads_put (found : q.joinAt j'.field = .ok j) (same : j'.toField = j.toField) :
    q.heads <+: (q.put j').heads := by
  rw [heads, heads, put]
  rw [joinAt] at found
  split at found
  · next e there =>
    obtain rfl := Except.ok.inj found
    obtain ⟨before, after, split, absent, name⟩ := joinFor?_split there
    have kept : (putJoin j' q.joins).map Join.toField = q.joins.map Join.toField := by
      rw [split, putJoin_over absent name, List.map_append, List.map_append, List.map_cons,
        List.map_cons, same]
    simp only [kept, List.prefix_refl]
  · next missing =>
    rw [putJoin_absent (joinFor?_absent missing), List.map_append]
    exact List.prefix_append _ _

theorem joinAt_eq_ok (h : q.WellFormed) (found : q.joinAt field = .ok j) :
    j.field = field ∧ j.Fits q.root ∧ j.query.WellFormed ∧
      (q.joinFor? field = some j ∨ q.joinFor? field = none ∧ j.query = select j.query.root) := by
  rw [joinAt] at found
  split at found
  · next e there =>
    obtain rfl := Except.ok.inj found
    obtain ⟨mem, name⟩ := joinFor?_eq_some there
    exact ⟨name, h.here.joins_fit e mem, h.joined mem, .inl there⟩
  · next missing =>
    obtain ⟨name, fits, wellFormed⟩ := defaultJoin_eq_ok h.here.built found
    refine ⟨name, fits, wellFormed, .inr ⟨missing, ?_⟩⟩
    simp only [defaultJoin, Outcome.bind_eq_ok, Outcome.pure_eq_ok] at found
    obtain ⟨_, _, _, _, rfl⟩ := found
    rfl

/-- Over a declared relationship there is always a join, and it leads where the relationship
does. -/
theorem WellFormed.exists_joinAt (h : q.WellFormed) (declared : q.root.Declares hop m) :
    ∃ j, q.joinAt hop.field = .ok j ∧ j.hop = hop ∧ j.query.root = m := by
  have found : ∃ j, q.joinAt hop.field = .ok j := by
    rw [joinAt]
    split
    · exact ⟨_, rfl⟩
    · obtain ⟨a, attr, _⟩ := declared.attr
      rw [defaultJoin, declared.related, Outcome.ok_bind, attr, Outcome.ok_bind]
      exact ⟨_, rfl⟩
  obtain ⟨j, found⟩ := found
  obtain ⟨name, fits, _⟩ := joinAt_eq_ok h found
  exact ⟨j, found, fits.declares.unique declared name⟩

/-! ### One edit -/

theorem changeJoin_over (absent : ∀ e ∈ before, e.field ≠ field) (named : j.field = field) :
    changeJoin root field change (before ++ j :: after) =
      change j >>= fun j' => .ok (before ++ j' :: after) := by
  induction before with
  | nil =>
    rw [List.nil_append, changeJoin, if_pos named]
    rfl
  | cons e before ih =>
    obtain ⟨apart, absent⟩ := List.forall_mem_cons.mp absent
    rw [List.cons_append, changeJoin, if_neg apart, ih absent]
    cases change j <;> rfl

theorem changeJoin_absent (absent : ∀ e ∈ joins, e.field ≠ field)
    (fresh : defaultJoin root field = .ok j) :
    changeJoin root field change joins = change j >>= fun j' => .ok (joins ++ [j']) := by
  induction joins with
  | nil =>
    rw [changeJoin, fresh, Outcome.ok_bind]
    rfl
  | cons e joins ih =>
    obtain ⟨apart, absent⟩ := List.forall_mem_cons.mp absent
    rw [changeJoin, if_neg apart, ih absent]
    cases change j <;> rfl

/-- An edit of a join takes up the join over the field and puts what it is changed to. -/
theorem onJoin_ok (found : q.joinAt field = .ok j)
    (same : ∀ j', change j = .ok j' → j'.field = field) :
    q.onJoin field change = change j >>= fun j' => .ok (q.put j') := by
  rw [joinAt] at found
  rw [onJoin]
  split at found
  · next e there =>
    obtain rfl := Except.ok.inj found
    obtain ⟨before, after, split, absent, name⟩ := joinFor?_split there
    rw [split, changeJoin_over absent name]
    cases changed : change e with
    | error _ => rfl
    | ok j' =>
      obtain rfl := same j' changed
      rw [Outcome.ok_bind, Outcome.ok_bind, Outcome.ok_bind, put, split, putJoin_over absent name]
      rfl
  · next missing =>
    have absent := joinFor?_absent missing
    rw [changeJoin_absent absent found]
    cases changed : change j with
    | error _ => rfl
    | ok j' =>
      obtain rfl := same j' changed
      rw [Outcome.ok_bind, Outcome.ok_bind, Outcome.ok_bind, put, putJoin_absent absent]
      rfl

/-! ### Along a path -/

theorem reach?_cons (found : q.joinFor? field = some j) :
    q.reach? (field :: rest) = j.query.reach? rest := by
  rw [reach?, found, Option.bind_some]

theorem reach?_cons_none (missing : q.joinFor? field = none) : q.reach? (field :: rest) = none := by
  rw [reach?, missing, Option.bind_none]

@[simp] theorem reach?_put : (q.put j).reach? (j.field :: rest) = j.query.reach? rest :=
  reach?_cons find?_putJoin

theorem reach?_put_of_ne (different : other ≠ j.field) :
    (q.put j).reach? (other :: rest) = q.reach? (other :: rest) := by
  rw [reach?, reach?, joinFor?, put, find?_putJoin_of_ne different, joinFor?]

/-- A path is joined exactly when it leads to a query. -/
theorem WellFormed.joins_iff (h : q.WellFormed) : q.Joins path ↔ (q.reach? path).isSome = true := by
  induction path generalizing q with
  | nil => simp [Query.reach?]
  | cons field rest ih =>
    rw [Joins]
    constructor
    · rintro ⟨j, mem, rfl, below⟩
      rw [reach?_cons (h.here.joinFor?_field mem)]
      exact (ih (h.joined mem)).mp below
    · intro reached
      cases found : q.joinFor? field with
      | none =>
        rw [reach?_cons_none found] at reached
        cases reached
      | some j =>
        rw [reach?_cons found] at reached
        obtain ⟨mem, name⟩ := joinFor?_eq_some found
        exact ⟨j, mem, name, (ih (h.joined mem)).mpr reached⟩

theorem Joins.of_prefix (h : q.Joins path) (short : rest <+: path) : q.Joins rest := by
  induction rest generalizing q path with
  | nil => exact joins_nil
  | cons field rest ih =>
    obtain ⟨below, rfl⟩ := short
    obtain ⟨j, mem, name, joined⟩ := h
    exact ⟨j, mem, name, ih joined (List.prefix_append _ _)⟩

/-! ### Opened at the end of a path -/

namespace Opened

/-- An edit along a path is an edit of the query at its end. -/
theorem along {edit : Query → Except Error Query} (h : q.Opened fields sub plug)
    (wellFormed : q.WellFormed) :
    along edit fields q = edit sub >>= fun s => .ok (plug s) := by
  induction h with
  | @here q =>
    rw [Query.along]
    cases edit q <;> rfl
  | @inside q sub field rest j plug found inner ih =>
    obtain ⟨name, _, inside, _⟩ := joinAt_eq_ok wellFormed found
    rw [Query.along, onJoin_ok found, ih inside]
    · cases edit sub <;> rfl
    · intro j' changed
      obtain ⟨query, _, changed⟩ := Outcome.bind_eq_ok.mp changed
      obtain rfl := Outcome.pure_eq_ok.mp changed
      exact name

/-- A walk goes on over one more field. -/
theorem snoc (h : q.Opened fields sub plug) (found : sub.joinAt field = .ok j) :
    q.Opened (fields ++ [field]) j.query fun s => plug (sub.put { j with query := s }) := by
  induction h with
  | here => exact .inside found .here
  | inside first _ ih => exact .inside first (ih found)

/-- The query at the end is the one that is reached there, or else a default query. -/
theorem start (h : q.Opened fields sub plug) (wellFormed : q.WellFormed) :
    q.reach? fields = some sub ∨ q.reach? fields = none ∧ sub = select sub.root := by
  induction h with
  | here => exact .inl rfl
  | @inside q sub field rest j plug found inner ih =>
    obtain ⟨_, _, inside, place⟩ := joinAt_eq_ok wellFormed found
    rcases place with there | ⟨missing, default⟩
    · rw [reach?_cons there]
      exact ih inside
    · refine .inr ⟨reach?_cons_none missing, ?_⟩
      rcases ih inside with reached | ⟨_, default⟩
      · rw [default] at reached
        cases rest with
        | nil =>
          obtain rfl := Option.some.inj reached
          rfl
        | cons field rest => cases reached
      · exact default

theorem wellFormed (h : q.Opened fields sub plug) (wellFormed : q.WellFormed) :
    sub.WellFormed := by
  induction h with
  | here => exact wellFormed
  | inside found _ ih => exact ih (joinAt_eq_ok wellFormed found).2.2.1

/-- At and below the end of the path is the query put there. -/
theorem reach? (h : q.Opened fields sub plug) (wellFormed : q.WellFormed) :
    (plug s).reach? (fields ++ below) = s.reach? below := by
  induction h with
  | here => rfl
  | @inside q sub field rest j plug found inner ih =>
    obtain ⟨rfl, _, inside, _⟩ := joinAt_eq_ok wellFormed found
    exact reach?_put.trans (ih inside)

theorem plug_self (h : q.Opened fields sub plug) (wellFormed : q.WellFormed)
    (reached : q.reach? fields = some sub) : plug sub = q := by
  induction h with
  | here => rfl
  | @inside q sub field rest j plug found inner ih =>
    obtain ⟨rfl, _, inside, place⟩ := joinAt_eq_ok wellFormed found
    rcases place with there | ⟨missing, _⟩
    · rw [reach?_cons there] at reached
      change q.put { j with query := plug sub } = q
      rw [ih inside reached]
      exact put_self there
    · rw [reach?_cons_none missing] at reached
      cases reached

/-- A path over declared relationships can be walked to its end. -/
theorem exists_of_leads (leads : q.root.Leads hops m) (wellFormed : q.WellFormed) :
    ∃ sub plug, q.Opened (hops.map Hop.field) sub plug ∧ sub.root = m := by
  generalize start : q.root = root at leads
  induction leads generalizing q with
  | here => exact ⟨q, id, .here, start⟩
  | cross declared _ ih =>
    obtain ⟨j, found, _, arrived⟩ := wellFormed.exists_joinAt (start ▸ declared)
    obtain ⟨sub, plug, inner, ends⟩ := ih (joinAt_eq_ok wellFormed found).2.2.1 arrived
    exact ⟨sub, _, .inside found inner, ends⟩

end Opened

end RecordQuery.Query
