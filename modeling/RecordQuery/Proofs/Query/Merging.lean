import RecordQuery.Proofs.Query.Joining

/-!
# Joined paths

The relationships that a query joins form a tree, and a path of field names is joined when it leads
down this tree. Joining with a query of its own hangs the tree of that query under the path. The
older joins there are kept where the query has none over the same relationship, and nothing changes
anywhere else.
-/

namespace RecordQuery

namespace Query

/-- The relationships of these fields are joined, each under the one before. -/
def Joins : Query → List String → Prop
  | _, [] => True
  | q, field :: rest => ∃ j ∈ q.joins, j.field = field ∧ Joins j.query rest

instance decidableJoins : (q : Query) → (fields : List String) → Decidable (q.Joins fields)
  | _, [] => isTrue trivial
  | q, field :: rest =>
    have (j : Join Query) : Decidable (j.query.Joins rest) := decidableJoins j.query rest
    inferInstanceAs (Decidable (∃ j ∈ q.joins, j.field = field ∧ j.query.Joins rest))

/-- The result of putting `sub` at the end of `fields`: the fields themselves are joined, under them
what `sub` joins, and what `q` joins unless it leads on over a relationship that `sub` joins. -/
def MergedAt (q sub : Query) (fields : List String) (next : Query) : Prop :=
  ∀ path, next.Joins path ↔ path <+: fields ∨ (∃ below, path = fields ++ below ∧ sub.Joins below) ∨
    q.Joins path ∧ ∀ field below, path = fields ++ field :: below → ¬ sub.Joins [field]

variable {q next sub : Query} {field : String} {path rest : List String} {j j' : Join Query}
  {before after : List (Join Query)} {change : Join Query → Except Error (Join Query)}

@[simp] theorem joins_nil : q.Joins [] := trivial

theorem joins_single : q.Joins [field] ↔ ∃ j ∈ q.joins, j.field = field := by
  simp [Joins]

theorem joins_split (split : q.joins = before ++ j :: after) : q.Joins (field :: rest) ↔
    j.field = field ∧ j.query.Joins rest ∨
      ∃ e ∈ before ++ after, e.field = field ∧ e.query.Joins rest := by
  simp only [Joins, split, List.mem_append, List.mem_cons, or_and_right, exists_or,
    exists_eq_left]
  exact or_left_comm

/-! ### One edit -/

/-- An edit of the join over `field`, seen from the paths that are joined. A join that is added on
the way has no joins itself. -/
structure Edited (q : Query) (field : String) (j j' : Join Query) (next : Query) : Prop where
  wellFormed : j.query.WellFormed
  old : ∀ rest, j.query.Joins rest ↔ rest = [] ∨ q.Joins (field :: rest)
  new : ∀ rest, next.Joins (field :: rest) ↔ j'.query.Joins rest
  elsewhere : ∀ other rest, other ≠ field → (next.Joins (other :: rest) ↔ q.Joins (other :: rest))

theorem defaultJoin_joins {root : Model} (fresh : defaultJoin root field = .ok j) :
    j.query.Joins rest ↔ rest = [] := by
  simp only [defaultJoin, Outcome.bind_eq_ok, Outcome.pure_eq_ok] at fresh
  obtain ⟨target, _, attr, _, rfl⟩ := fresh
  cases rest <;> simp [Joins, select]

theorem onJoin_edited (h : q.WellFormed) (same : ∀ j j', change j = .ok j' → j'.field = j.field)
    (step : q.onJoin field change = .ok next) :
    ∃ j j', change j = .ok j' ∧ q.Edited field j j' next := by
  rw [onJoin, Outcome.bind_eq_ok] at step
  obtain ⟨joins, changed, step⟩ := step
  obtain rfl := Outcome.pure_eq_ok.mp step
  obtain ⟨before, j, j', after, edited, rfl, absent, place⟩ := changeJoin_eq_ok changed
  have result (other : String) (rest : List String) :
      Joins { q with joins := before ++ j' :: after } (other :: rest) ↔
        j'.field = other ∧ j'.query.Joins rest ∨
          ∃ e ∈ before ++ after, e.field = other ∧ e.query.Joins rest := joins_split rfl
  refine ⟨j, j', edited, ?_⟩
  rcases place with ⟨split, rfl⟩ | ⟨split, rfl, fresh⟩
  · have others e (mem : e ∈ before ++ after) : e.field ≠ j.field := by
      rcases List.mem_append.mp mem with mem | mem
      · exact absent e mem
      · have distinct := h.here.joins_distinct
        rw [split, List.map_append, List.map_cons] at distinct
        have apart := (List.nodup_cons.mp (List.nodup_append.mp distinct).2.1).1
        exact fun same => apart (List.mem_map.mpr ⟨e, mem, same⟩)
    have none rest : ¬ ∃ e ∈ before ++ after, e.field = j.field ∧ e.query.Joins rest := by
      rintro ⟨e, mem, name, _⟩
      exact others e mem name
    refine ⟨h.joined (split ▸ List.mem_append_right _ List.mem_cons_self), fun rest => ?_,
      fun rest => ?_, fun other rest different => ?_⟩
    · rw [joins_split split]
      simp only [true_and, none rest, or_false]
      refine ⟨.inr, fun h => h.elim (fun nil => ?_) id⟩
      rw [nil]
      exact joins_nil
    · rw [result, same j j' edited]
      simp only [true_and, none rest, or_false]
    · rw [result, joins_split split, same j j' edited]
      simp only [different.symm, false_and, false_or]
  · obtain ⟨name, _, wellFormed⟩ := defaultJoin_eq_ok h.here.built fresh
    have none rest : ¬ q.Joins (field :: rest) := by
      rintro ⟨e, mem, name, _⟩
      exact absent e (split ▸ mem) name
    refine ⟨wellFormed, fun rest => ?_, fun rest => ?_, fun other rest different => ?_⟩
    · rw [defaultJoin_joins fresh]
      simp only [none rest, or_false]
    · rw [result, same j j' edited, name]
      simp only [true_and, List.append_nil]
      refine or_iff_left ?_
      rintro ⟨e, mem, name, _⟩
      exact absent e mem name
    · rw [result, same j j' edited, name]
      simp only [different.symm, false_and, false_or, List.append_nil, Joins, split]

/-! ### Along a path -/

theorem replaceJoined_joins {parent : Model} (step : replaceJoined parent sub j = .ok j') :
    j'.field = j.field ∧ ∀ path, j'.query.Joins path ↔ sub.Joins path ∨
      j.query.Joins path ∧ ∀ field below, path = field :: below → ¬ sub.Joins [field] := by
  obtain ⟨_, _, _, kept, rfl, rfl⟩ := replaceJoined_eq_ok step
  refine ⟨rfl, fun path => ?_⟩
  cases path with
  | nil => simp
  | cons field below =>
    have missing (old : Join Query) : (sub.joinFor? old.field).isNone = true ↔
        ¬ sub.Joins [old.field] := by
      simp [joins_single, joinFor?]
    simp only [Joins, List.mem_append, List.mem_filter, missing, or_and_right, exists_or,
      List.cons.injEq]
    refine or_congr_right ⟨?_, ?_⟩
    · rintro ⟨old, ⟨mem, lacking⟩, rfl, inside⟩
      refine ⟨⟨old, mem, rfl, inside⟩, ?_⟩
      rintro _ _ ⟨rfl, rfl⟩
      exact lacking
    · rintro ⟨⟨old, mem, rfl, inside⟩, lacking⟩
      exact ⟨old, ⟨mem, lacking _ _ ⟨rfl, rfl⟩⟩, rfl, inside⟩

theorem replaced_merged (h : q.WellFormed)
    (step : q.onJoin field (replaceJoined q.root sub) = .ok next) :
    q.MergedAt sub [field] next := by
  obtain ⟨j, j', replaced, edited⟩ :=
    onJoin_edited h (fun _ _ step => (replaceJoined_joins step).1) step
  rintro (_ | ⟨other, rest⟩)
  · simp
  · by_cases same : other = field
    · subst same
      rw [edited.new, (replaceJoined_joins replaced).2, edited.old]
      cases rest with
      | nil => simp
      | cons f below => simp
    · rw [edited.elsewhere other rest same]
      simp [same]

theorem along_merged (parents : List String) : ∀ q next : Query, q.WellFormed →
    along (fun parent => parent.onJoin field (replaceJoined parent.root sub)) parents q =
      .ok next → q.MergedAt sub (parents ++ [field]) next := by
  -- Each parent is an edit of one join, and the rest of the way is an edit inside that join.
  induction parents with
  | nil => exact fun q next h step => replaced_merged h step
  | cons first parents ih =>
    intro q next h step
    obtain ⟨j, j', changed, edited⟩ := onJoin_edited h (fun j j' changed => by
      obtain ⟨query, _, changed⟩ := Outcome.bind_eq_ok.mp changed
      obtain rfl := Outcome.pure_eq_ok.mp changed
      rfl) step
    obtain ⟨query, inner, changed⟩ := Outcome.bind_eq_ok.mp changed
    obtain rfl := Outcome.pure_eq_ok.mp changed
    have merged := ih j.query query edited.wellFormed inner
    rintro (_ | ⟨other, rest⟩)
    · simp
    · by_cases same : other = first
      · subst same
        rw [edited.new, merged rest, edited.old]
        cases rest with
        | nil => simp
        | cons f below => simp
      · rw [edited.elsewhere other rest same]
        simp [same]

/-- A path that was joined stays so, unless it leads on over a relationship that the new query joins
itself: from there on the joins of the new query stand alone. -/
theorem joinWith_joins {rel : RelationPath} (reachable : q.Reachable)
    (step : q.joinWith rel sub = .ok next) : q.MergedAt sub rel.fields next ∧
      ∀ path, q.Joins path → (next.Joins path ↔ ∀ field below,
        path = rel.fields ++ field :: below → sub.Joins [field] → sub.Joins (field :: below)) := by
  obtain ⟨_, _, step⟩ := Outcome.bind_eq_ok.mp step
  have fields : rel.parents.map Hop.field ++ [rel.last.field] = rel.fields := by
    rw [RelationPath.fields, RelationPath.hops, List.map_append, List.map_singleton]
  have merged : q.MergedAt sub rel.fields next := by
    rw [← fields]
    exact along_merged _ q next reachable.wellFormed step
  refine ⟨merged, fun path old => ?_⟩
  rw [merged path]
  constructor
  · rintro kept field below rfl own
    rcases kept with short | ⟨below', same, joined⟩ | ⟨_, lacking⟩
    · exact absurd short.length_le (by simp)
    · rw [List.append_cancel_left same]
      exact joined
    · exact absurd own (lacking field below rfl)
  · intro kept
    by_cases lacking : ∀ field below, path = rel.fields ++ field :: below → ¬ sub.Joins [field]
    · exact .inr (.inr ⟨old, lacking⟩)
    · push Not at lacking
      obtain ⟨field, below, split, own⟩ := lacking
      exact .inr (.inl ⟨field :: below, split, kept field below split own⟩)

end Query

/-! ### At the sample -/

namespace Sample

def accountsWithUserAccounts : Query :=
  { Query.select account with
    joins := [usersOfAccount { Query.select user with joins := [accountOfUser] }] }

theorem accountsWithUserAccounts_reachable : accountsWithUserAccounts.Reachable := by
  have step : (Query.select account).join userAccount = .ok accountsWithUserAccounts := rfl
  exact .join (.select registry_built) userAccount_walked step

theorem accountsWithUsers_joins : accountsWithUserAccounts.Reachable ∧
    accountsWithUserAccounts.joinWith accountUsers firstUsers = .ok accountsWithUsers ∧
    accountsWithUserAccounts.Joins ["users", "account"] ∧
    accountsWithUsers.Joins ["users", "account"] := by
  have reachable := accountsWithUserAccounts_reachable
  have step : accountsWithUserAccounts.joinWith accountUsers firstUsers =
    .ok accountsWithUsers := rfl
  have old : accountsWithUserAccounts.Joins ["users", "account"] := by decide
  refine ⟨reachable, step, old, ?_⟩
  refine ((Query.joinWith_joins reachable step).2 _ old).mpr fun field below split own => ?_
  obtain ⟨rfl, rfl⟩ : "account" = field ∧ [] = below := by
    simpa [accountUsers, RelationPath.fields, RelationPath.hops] using split
  exact absurd own (by decide)

def userAccountOwner : RelationPath :=
  ⟨account, userAccount.hops, ⟨"owner", "Owner", false⟩, user⟩

theorem userAccountOwner_walked : userAccountOwner.Walked := by
  have step : userAccount.relationAt "owner" = .ok userAccountOwner := rfl
  exact .onward userAccount_walked step

def ownerOfAccount : Join Query :=
  ⟨"owner", ⟨"Owner", true, .relation "User" false⟩, Query.select user⟩

def accountsWithOwners : Query :=
  { Query.select account with
    joins := [usersOfAccount { Query.select user with
      joins := [{ accountOfUser with
        query := { Query.select account with joins := [ownerOfAccount] } }] }] }

theorem accountsWithOwners_reachable : accountsWithOwners.Reachable := by
  have step : (Query.select account).join userAccountOwner = .ok accountsWithOwners := rfl
  exact .join (.select registry_built) userAccountOwner_walked step

def userAccounts : RelationPath := ⟨user, [], ⟨"account", "Account", false⟩, account⟩

def usersWithAccount : Query := { Query.select user with joins := [accountOfUser] }

theorem usersWithAccount_reachable : usersWithAccount.Reachable := by
  have walked : user.relationAt "account" = .ok userAccounts := rfl
  have step : (Query.select user).join userAccounts = .ok usersWithAccount := rfl
  exact .join (.select registry_built) (.start registry_built walked) step

/-- The new query joins the account of a user itself, so the owner that was joined under it is
lost. -/
theorem accountsWithOwners_lost : accountsWithOwners.Reachable ∧ accountUsers.Walked ∧
    usersWithAccount.Reachable ∧
    accountsWithOwners.joinWith accountUsers usersWithAccount = .ok accountsWithUserAccounts ∧
    accountsWithOwners.Joins ["users", "account", "owner"] ∧
    ¬ accountsWithUserAccounts.Joins ["users", "account", "owner"] :=
  ⟨accountsWithOwners_reachable, accountUsers_walked, usersWithAccount_reachable, rfl, by decide,
    by decide⟩

end Sample

end RecordQuery
