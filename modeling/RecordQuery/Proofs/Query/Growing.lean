import RecordQuery.Proofs.Query.Reaching

/-!
# Growing by joins

Joining along a path adds the joins that are missing on the way and changes nothing else. Every
query inside stays where it was, with its own parts and its joins in order, and every query that is
new is the default query of its model. So joining what is joined already changes nothing, and two
paths can be joined in either order: the results differ at most in the order of joins.
-/

namespace RecordQuery

namespace Query

/-- `next` has the parts of `q` and its joined fields in order, and perhaps more of them at the
end. -/
structure Grows (q next : Query) : Prop where
  parts : next.bare = q.bare
  order : q.heads <+: next.heads

/-- The default query of the model that relationships over the fields of `path` lead to, apart from
its joins. -/
def NewAt (root : Model) (path : List String) (sub : Query) : Prop :=
  sub.bare = select sub.root ∧ ∃ hops, hops.map Hop.field = path ∧ root.Leads hops sub.root

/-- The query that `path` leads to has grown; where it led nowhere, there is a default query if
any. -/
structure GrownAt (q : Query) (path : List String) (next : Query) : Prop where
  kept : ∀ sub, q.reach? path = some sub → ∃ grown, next.reach? path = some grown ∧ sub.Grows grown
  fresh : ∀ sub, q.reach? path = none → next.reach? path = some sub → NewAt q.root path sub

/-- Just the beginnings of `fields` are joined besides what was, and nothing else is changed. -/
structure Extends (q : Query) (fields : List String) (next : Query) : Prop where
  joined : ∀ path, next.Joins path ↔ q.Joins path ∨ path <+: fields
  grown : ∀ path, q.GrownAt path next

/-- Equal up to the order of the joins at every level. -/
inductive Reordered : Query → Query → Prop
  | intro {q r : Query} (parts : q.bare = r.bare) (heads : q.heads.Perm r.heads)
      (below : ∀ j ∈ q.joins, ∀ k ∈ r.joins, j.field = k.field → Reordered j.query k.query) :
      Reordered q r

variable {q r mid next sub s : Query} {m : Model} {field : String} {path fields below : List String}
  {j k : Join Query} {plug : Query → Query} {rel : RelationPath}

/-! ### One node -/

theorem Grows.refl : q.Grows q := ⟨rfl, List.prefix_refl _⟩

theorem Grows.trans (first : q.Grows mid) (second : mid.Grows next) : q.Grows next :=
  ⟨second.parts.trans first.parts, first.order.trans second.order⟩

theorem root_of_bare (same : q.bare = r.bare) : q.root = r.root := by
  have roots : q.bare.root = r.bare.root := by rw [same]
  exact roots

theorem Grows.root (h : q.Grows next) : next.root = q.root := root_of_bare h.parts

theorem NewAt.grows (new : NewAt m path sub) (grows : sub.Grows s) : NewAt m path s := by
  obtain ⟨default, leads⟩ := new
  rw [NewAt, grows.parts, grows.root]
  exact ⟨default, leads⟩

theorem NewAt.unique (new : NewAt m path sub) (new' : NewAt m path s) : sub.bare = s.bare := by
  obtain ⟨default, hops, names, leads⟩ := new
  obtain ⟨default', hops', names', leads'⟩ := new'
  rw [default, default', leads.unique leads' (names.trans names'.symm)]

theorem NewAt.under (fits : j.Fits m) (new : NewAt j.query.root path sub) :
    NewAt m (j.field :: path) sub := by
  obtain ⟨default, hops, rfl, leads⟩ := new
  exact ⟨default, j.hop :: hops, rfl, .cross fits.declares leads⟩

theorem GrownAt.of_same (same : next.reach? path = q.reach? path) : q.GrownAt path next where
  kept sub reached := ⟨sub, same.trans reached, .refl⟩
  fresh sub missing reached := by
    rw [same, missing] at reached
    cases reached

theorem GrownAt.trans (first : q.GrownAt path mid) (second : mid.GrownAt path next)
    (root : mid.root = q.root) : q.GrownAt path next where
  kept sub reached := by
    obtain ⟨grown, reached, grows⟩ := first.kept sub reached
    obtain ⟨last, reached, grows'⟩ := second.kept grown reached
    exact ⟨last, reached, grows.trans grows'⟩
  fresh sub missing reached := by
    cases between : mid.reach? path with
    | none => exact root ▸ second.fresh sub between reached
    | some new =>
      obtain ⟨last, reached', grows⟩ := second.kept new between
      obtain rfl := Option.some.inj (reached.symm.trans reached')
      exact (first.fresh new missing between).grows grows

/-- However a query grows, the parts of what it has in the end are the same. -/
theorem GrownAt.unique (h : q.GrownAt path next) (h' : q.GrownAt path r)
    (reached : next.reach? path = some sub) (reached' : r.reach? path = some s) :
    sub.bare = s.bare := by
  cases old : q.reach? path with
  | some start =>
    obtain ⟨grown, there, grows⟩ := h.kept start old
    obtain ⟨grown', there', grows'⟩ := h'.kept start old
    obtain rfl := Option.some.inj (there.symm.trans reached)
    obtain rfl := Option.some.inj (there'.symm.trans reached')
    exact grows.parts.trans grows'.parts.symm
  | none => exact (h.fresh sub old reached).unique (h'.fresh s old reached')

/-! ### Along a path -/

theorem reach?_select (field : String) : (select m).reach? (field :: path) = none := rfl

/-- A join that grows inside, grows inside the query that has it. -/
theorem GrownAt.under (wellFormed : q.WellFormed) (found : q.joinAt field = .ok j)
    (inner : j.query.GrownAt below s) : q.GrownAt (field :: below) (q.put { j with query := s }) := by
  obtain ⟨rfl, fits, _, place⟩ := joinAt_eq_ok wellFormed found
  have there : (q.put { j with query := s }).reach? (j.field :: below) = s.reach? below := reach?_put
  rcases place with present | ⟨missing, default⟩
  · constructor
    · intro sub reached
      rw [reach?_cons present] at reached
      rw [there]
      exact inner.kept sub reached
    · intro sub nowhere reached
      rw [reach?_cons present] at nowhere
      rw [there] at reached
      exact (inner.fresh sub nowhere reached).under fits
  · constructor
    · intro sub reached
      rw [reach?_cons_none missing] at reached
      cases reached
    · intro sub _ reached
      rw [there] at reached
      apply NewAt.under fits
      -- The new join is a default one: its own query grows, and below that all is new.
      cases below with
      | nil =>
        obtain ⟨grown, here, grows⟩ := inner.kept j.query rfl
        obtain rfl := Option.some.inj (here.symm.trans reached)
        have start : NewAt j.query.root [] j.query := ⟨congrArg bare default, [], rfl, .here⟩
        exact start.grows grows
      | cons field below => exact inner.fresh sub (default ▸ reach?_select field) reached

/-- A join is there or has no joins itself yet. -/
theorem joinAt_joins (wellFormed : q.WellFormed) (found : q.joinAt field = .ok j) :
    (j.query.reach? below).isSome = true ↔
      below = [] ∨ (q.reach? (field :: below)).isSome = true := by
  obtain ⟨_, _, _, present | ⟨missing, default⟩⟩ := joinAt_eq_ok wellFormed found
  · rw [reach?_cons present]
    refine (or_iff_right_of_imp fun empty => ?_).symm
    rw [empty]
    rfl
  · rw [reach?_cons_none missing, default]
    cases below with
    | nil => exact iff_of_true rfl (.inl rfl)
    | cons field below =>
      rw [reach?_select]
      exact (or_iff_right (List.cons_ne_nil _ _)).symm

namespace Opened

/-- What is put at the end of a path touches nothing but what is there. -/
theorem grown (h : q.Opened fields sub plug) (wellFormed : q.WellFormed)
    (ends : ∀ below, path = fields ++ below → sub.GrownAt below s) : q.GrownAt path (plug s) := by
  induction h generalizing path with
  | here => exact ends path rfl
  | @inside q sub field rest j plug found inner ih =>
    obtain ⟨rfl, _, inside, _⟩ := joinAt_eq_ok wellFormed found
    cases path with
    | nil =>
      constructor
      · intro sub reached
        obtain rfl := Option.some.inj reached
        exact ⟨_, rfl, rfl, heads_put found rfl⟩
      · exact nofun
    | cons other below =>
      by_cases same : other = j.field
      · subst same
        refine .under wellFormed found (ih inside fun further split => ends further ?_)
        rw [split, List.cons_append]
      · exact .of_same (reach?_put_of_ne same)

theorem joined_iff (h : q.Opened fields sub plug) (wellFormed : q.WellFormed)
    (ends : ∀ below, path = fields ++ below → (s.reach? below).isSome = (sub.reach? below).isSome) :
    ((plug s).reach? path).isSome = true ↔ (q.reach? path).isSome = true ∨ path <+: fields := by
  induction h generalizing path with
  | here =>
    rw [id, ends path rfl, List.prefix_nil]
    refine (or_iff_left_of_imp fun empty => ?_).symm
    rw [empty]
    rfl
  | @inside q sub field rest j plug found inner ih =>
    obtain ⟨rfl, _, inside, _⟩ := joinAt_eq_ok wellFormed found
    cases path with
    | nil => exact iff_of_true rfl (.inl rfl)
    | cons other below =>
      by_cases same : other = j.field
      · subst same
        have there : (q.put { j with query := plug s }).reach? (j.field :: below) =
            (plug s).reach? below := reach?_put
        have further : ((plug s).reach? below).isSome = true ↔
            (j.query.reach? below).isSome = true ∨ below <+: rest :=
          ih inside fun further split => ends further (by rw [split, List.cons_append])
        rw [there, further, joinAt_joins wellFormed found, List.prefix_cons_inj, or_assoc]
        refine or_iff_right_of_imp fun empty => .inr ?_
        rw [empty]
        exact List.nil_prefix
      · have there : (q.put { j with query := plug s }).reach? (other :: below) =
            q.reach? (other :: below) := reach?_put_of_ne same
        rw [there]
        refine (or_iff_left ?_).symm
        rw [List.cons_prefix_cons]
        exact fun short => same short.1

end Opened

/-! ### Joining -/

theorem Opened.join (h : q.Opened rel.fields sub plug) (wellFormed : q.WellFormed)
    (start : rel.root = q.root) : q.join rel = .ok (plug sub) := by
  rw [Query.join, checkStart, if_pos start, Outcome.ok_bind]
  exact h.along wellFormed

theorem WellFormed.exists_join (h : q.WellFormed) (walked : rel.Walked)
    (start : rel.root = q.root) :
    ∃ next, q.join rel = .ok next ∧ next.WellFormed ∧ q.Extends rel.fields next := by
  obtain ⟨sub, plug, opened, _⟩ := Opened.exists_of_leads (start ▸ walked.leads) h
  have step := opened.join h start
  have wellFormed := join_keeps h step
  refine ⟨plug sub, step, wellFormed, fun path => ?_, fun path => ?_⟩
  · rw [wellFormed.joins_iff, h.joins_iff]
    exact opened.joined_iff h fun _ _ => rfl
  · exact opened.grown h fun _ _ => .of_same rfl

theorem WellFormed.join_joined (h : q.WellFormed) (walked : rel.Walked)
    (start : rel.root = q.root) (joined : q.Joins rel.fields) : q.join rel = .ok q := by
  obtain ⟨sub, plug, opened, _⟩ := Opened.exists_of_leads (start ▸ walked.leads) h
  have reached : q.reach? rel.fields = some sub := by
    refine (opened.start h).resolve_right fun missing => ?_
    rw [h.joins_iff] at joined
    rw [RelationPath.fields, missing.1] at joined
    cases joined
  refine (opened.join h start).trans ?_
  rw [opened.plug_self h reached]

/-! ### In either order -/

theorem WellFormed.reach?_joined (h : q.WellFormed) (mem : j ∈ q.joins) :
    q.reach? (j.field :: path) = j.query.reach? path :=
  reach?_cons (h.here.joinFor?_field mem)

theorem WellFormed.heads_nodup (h : q.WellFormed) : q.heads.Nodup := by
  refine .of_map Field.name ?_
  rw [heads, List.map_map]
  exact h.here.joins_distinct

/-- Where two queries over one model have the same parts along every path, the heads of one are
among those of the other. -/
theorem WellFormed.heads_subset (hq : q.WellFormed) (hr : r.WellFormed)
    (same : ∀ path, (q.reach? path).map bare = (r.reach? path).map bare) : q.heads ⊆ r.heads := by
  have root : q.root = r.root := root_of_bare (Option.some.inj (same []))
  intro f head
  obtain ⟨j, mem, rfl⟩ := List.mem_map.mp head
  have there := same [j.field]
  rw [hq.reach?_joined mem] at there
  cases found : r.joinFor? j.field with
  | none =>
    rw [reach?_cons_none found] at there
    cases there
  | some k =>
    obtain ⟨among, name⟩ := joinFor?_eq_some found
    have declared := (hq.here.joins_fit j mem).declared
    rw [root, ← name, (hr.here.joins_fit k among).declared] at declared
    refine List.mem_map.mpr ⟨k, among, ?_⟩
    rw [Join.toField, Join.toField, name, Except.ok.inj declared]

/-- A well-formed query is determined, up to the order of its joins, by the parts of what each path
leads to. -/
theorem WellFormed.reordered (hq : q.WellFormed) (hr : r.WellFormed)
    (same : ∀ path, (q.reach? path).map bare = (r.reach? path).map bare) : q.Reordered r := by
  induction hq generalizing r with
  | @intro q here below ih =>
    have hq : q.WellFormed := .intro here below
    have forth := hq.heads_subset hr same
    have back := hr.heads_subset hq fun path => (same path).symm
    refine .intro (Option.some.inj (same [])) ?_ fun j mem k mem' name => ?_
    · rw [List.perm_ext_iff_of_nodup hq.heads_nodup hr.heads_nodup]
      exact fun f => ⟨fun mem => forth mem, fun mem => back mem⟩
    · refine ih j mem (hr.joined mem') fun path => ?_
      rw [← hq.reach?_joined mem, ← hr.reach?_joined mem', ← name]
      exact same (j.field :: path)

/-- Where two queries have grown from one and join the same paths, they agree at every path. -/
theorem WellFormed.reordered_of_grown (hq : next.WellFormed) (hr : r.WellFormed)
    (joined : ∀ path, next.Joins path ↔ r.Joins path)
    (grown : ∀ path, q.GrownAt path next) (grown' : ∀ path, q.GrownAt path r) :
    next.Reordered r := by
  refine hq.reordered hr fun path => ?_
  have both := joined path
  rw [hq.joins_iff, hr.joins_iff] at both
  cases found : next.reach? path with
  | none =>
    cases found' : r.reach? path with
    | none => rfl
    | some s =>
      rw [found, found'] at both
      cases both.mpr rfl
  | some sub =>
    cases found' : r.reach? path with
    | none =>
      rw [found, found'] at both
      cases both.mp rfl
    | some s => exact congrArg some ((grown path).unique (grown' path) found found')

theorem Extends.root (h : q.Extends fields next) : next.root = q.root := by
  obtain ⟨grown, reached, grows⟩ := (h.grown []).kept q rfl
  obtain rfl := Option.some.inj reached
  exact grows.root

/-- Joining along a path of the root of a query always succeeds. It adds just the beginnings of the
path, and once more it adds nothing; the order in which two paths are joined shows in the order of
joins only. A path of another root is refused. -/
theorem join_extends (reachable : q.Reachable) (walked : rel.Walked) :
    (rel.root ≠ q.root →
      q.join rel = .error (.invalidJoin q.root.name rel.last.field .otherRoot)) ∧
    (rel.root = q.root →
      (∃ next, q.join rel = .ok next ∧ q.Extends rel.fields next ∧ next.join rel = .ok next) ∧
      (∀ path, q.Joins path → rel.fields <+: path → q.join rel = .ok q) ∧
      ∀ other : RelationPath, other.Walked → other.root = q.root →
        ∃ a b, (q.join rel >>= fun next => next.join other) = .ok a ∧
          (q.join other >>= fun next => next.join rel) = .ok b ∧ a.Reordered b) := by
  have h := reachable.wellFormed
  constructor
  · intro elsewhere
    rw [join, checkStart, if_neg elsewhere]
    rfl
  intro start
  obtain ⟨next, step, wellFormed, adds⟩ := h.exists_join walked start
  refine ⟨⟨next, step, adds, ?_⟩, fun path joined short => ?_, fun other walked' start' => ?_⟩
  · apply wellFormed.join_joined walked (start.trans adds.root.symm)
    exact (adds.joined _).mpr (.inr (List.prefix_refl _))
  · exact h.join_joined walked start (joined.of_prefix short)
  · obtain ⟨mid, step', wellFormed', adds'⟩ := h.exists_join walked' start'
    obtain ⟨a, last, wellFormed_a, adds_a⟩ :=
      wellFormed.exists_join walked' (start'.trans adds.root.symm)
    obtain ⟨b, last', wellFormed_b, adds_b⟩ :=
      wellFormed'.exists_join walked (start.trans adds'.root.symm)
    refine ⟨a, b, by rw [step, Outcome.ok_bind, last], by rw [step', Outcome.ok_bind, last'], ?_⟩
    refine wellFormed_a.reordered_of_grown wellFormed_b (fun path => ?_)
      (fun path => (adds.grown path).trans (adds_a.grown path) adds.root)
      (fun path => (adds'.grown path).trans (adds_b.grown path) adds'.root)
    rw [adds_a.joined, adds.joined, adds_b.joined, adds'.joined, or_right_comm]

end Query

namespace Sample

def accountOwner : RelationPath := ⟨account, [], ⟨"owner", "Owner", false⟩, user⟩

theorem accountOwner_walked : accountOwner.Walked := by
  have step : account.relationAt "owner" = .ok accountOwner := rfl
  exact .start registry_built step

/-- The account of each user is joined below the users that are joined already, and the owner
before or after it. -/
theorem accountsListingUsers_extends :
    accountsListingUsers.Reachable ∧ userAccount.Walked ∧ accountOwner.Walked ∧
      (∃ next, accountsListingUsers.join userAccount = .ok next ∧
        accountsListingUsers.Extends ["users", "account"] next ∧
        next.join userAccount = .ok next) ∧
      ∃ a b, (accountsListingUsers.join userAccount >>= fun next => next.join accountOwner) =
          .ok a ∧
        (accountsListingUsers.join accountOwner >>= fun next => next.join userAccount) = .ok b ∧
        a.Reordered b := by
  have reachable := accountsListingUsers_reachable
  obtain ⟨extended, _, orders⟩ := (Query.join_extends reachable userAccount_walked).2 rfl
  exact ⟨reachable, userAccount_walked, accountOwner_walked, extended,
    orders accountOwner accountOwner_walked rfl⟩

end Sample

end RecordQuery
