import Mathlib.Data.List.Induction
import RecordQuery.Proofs.Path.Along
import RecordQuery.Proofs.Query.Joining
import RecordQuery.Proofs.Query.Walk

/-!
# Select lists

A select list is the image of the walk through its statement. Each column is written as the
attribute path along the same fields from the root, and each subselect reads from the relationship
path along them. Every query inside another belongs to one statement, in which the walk meets it
once.
-/

namespace RecordQuery

theorem Attribute.exists_kind {a : Attribute} (scalar : a.isRelation = false) :
    ∃ k, a.content = .scalar k := by
  rw [isRelation, target?] at scalar
  split at scalar
  · next k content => exact ⟨k, content⟩
  · cases scalar

/-- The hop that a join goes over. -/
def Join.hop (j : Join Query) : Hop := ⟨j.field, j.attr.externalName, j.attr.isMany⟩

theorem Join.Fits.declares {j : Join Query} {root : Model} (fits : j.Fits root) :
    root.Declares j.hop j.query.root where
  attr := ⟨j.attr, fits.declared, fits.relation, rfl⟩
  related := fits.resolved

namespace Visit

/-- The visit seen from further up, over joins that lead to where it starts. -/
def behind (outer : List (Join Query)) (v : Visit) : Visit := outer.foldr Visit.under v

/-- The item is written as the path along the same fields from the model. -/
def Shown (m : Model) : Visit → Fragment → Prop
  | column path f, item =>
    ∃ p, m.attributeAlong (path.map Join.field) f.name = .ok p ∧ item = p.fragment
  | source path j, item =>
    ∃ p, m.relationAlong (path.map Join.field) j.field = .ok p ∧ p.target = j.query.root ∧
      item = (Query.statementFrom p.fragment j.query).parens

variable {q : Query} {v w : Visit} {outer inner : List (Join Query)}

theorem path_behind : (v.behind outer).path = outer ++ v.path := by
  induction outer with
  | nil => rfl
  | cons j outer ih => rw [behind, List.foldr_cons, path_under, ← behind, ih, List.cons_append]

theorem belongsTo_behind : (v.behind outer).BelongsTo q ↔ v.BelongsTo q := by
  induction outer with
  | nil => rfl
  | cons j outer ih => rw [behind, List.foldr_cons, belongsTo_under, ← behind, ih]

theorem behind_inj (same : v.behind outer = w.behind outer) : v = w := by
  induction outer with
  | nil => exact same
  | cons j outer ih => exact ih (under_inj same).1

theorem exists_behind (along : v.path = outer ++ inner) :
    ∃ w : Visit, v = w.behind outer ∧ w.path = inner := by
  induction outer generalizing v with
  | nil => exact ⟨v, rfl, along⟩
  | cons j outer ih =>
    obtain ⟨u, rfl, rest⟩ := exists_under along
    obtain ⟨w, rfl, inner⟩ := ih rest
    exact ⟨w, rfl, inner⟩

end Visit

namespace Query

/-- The statement lists what the walk meets, the columns first, and each once. -/
structure Listed (s : Query) : Prop where
  items : ∃ items, List.Forall₂ (Visit.Shown s.root)
      (s.walk.filter Visit.isColumn ++ s.walk.filter (!·.isColumn)) items ∧
    ∀ source, statementFrom source s = .keyword .SELECT :: Fragment.separated .comma items ++
      .keyword .FROM :: source ++ clauses s.filter s.order s.limit s.offset
  once : (s.walk.map Visit.place).Nodup
  met : ∀ v : Visit, v ∈ s.walk ↔ ∃ sub, s.At v.path sub ∧ Stays v.path ∧ v.BelongsTo sub

variable {q s sub : Query} {j : Join Query} {f : Field} {v : Visit}
  {path rest inner outer : List (Join Query)}

/-! ### Along joins -/

theorem WellFormed.reached (h : q.WellFormed) (reached : q.At path sub) :
    sub.WellFormed ∧ q.root.Leads (path.map Join.hop) sub.root := by
  induction path generalizing q with
  | nil =>
    obtain rfl := reached
    exact ⟨h, .here⟩
  | cons j path ih =>
    obtain ⟨mem, below⟩ := reached
    obtain ⟨wellFormed, leads⟩ := ih (h.joined mem) below
    exact ⟨wellFormed, .cross (h.here.joins_fit j mem).declares leads⟩

theorem at_append : q.At (outer ++ inner) sub ↔ ∃ s, q.At outer s ∧ s.At inner sub := by
  induction outer generalizing q with
  | nil => simp [At]
  | cons j outer ih => simp [At, ih, and_assoc]

theorem WellFormed.listing_at (h : q.WellFormed) (listing : q.count = false)
    (reached : q.At path sub) : sub.count = false := by
  induction path generalizing q with
  | nil =>
    obtain rfl := reached
    exact listing
  | cons j path ih => exact ih (h.joined reached.1) (h.here.joins_fit j reached.1).listed reached.2

/-! ### One statement -/

theorem fields_hops (path : List (Join Query)) :
    (path.map Join.hop).map Hop.field = path.map Join.field := by
  rw [List.map_map]
  rfl

theorem names_hops (path : List (Join Query)) :
    (path.map Join.hop).map Hop.externalName = path.map (·.attr.externalName) := by
  rw [List.map_map]
  rfl

theorem WellFormed.column_path (h : q.WellFormed) (reached : q.At path sub)
    (mem : f ∈ sub.selected) : ∃ p, q.root.attributeAlong (path.map Join.field) f.name = .ok p ∧
      p.segments =
        q.root.objectName :: path.map (·.attr.externalName) ++ [f.attr.externalName] := by
  obtain ⟨wellFormed, leads⟩ := h.reached reached
  obtain ⟨declared, scalar⟩ := wellFormed.here.selected_scalar mem
  obtain ⟨k, content⟩ := Attribute.exists_kind scalar
  have attr : sub.root.attr f.name = .ok f.attr :=
    (wellFormed.here.built.valid _ sub.root.mem).attr_name declared
  refine ⟨⟨q.root, path.map Join.hop, sub.root, f.name, f.attr.externalName, f.attr.nullable, k⟩,
    ?_, ?_⟩
  · rw [← fields_hops, leads.attributeAlong, AttributePath.through, attr, Outcome.ok_bind, content]
    rfl
  · rw [AttributePath.segments, names_hops]

theorem WellFormed.source_path (h : q.WellFormed) (reached : q.At path sub) (mem : j ∈ sub.joins) :
    ∃ p, q.root.relationAlong (path.map Join.field) j.field = .ok p ∧ p.target = j.query.root ∧
      p.segments =
        q.root.objectName :: path.map (·.attr.externalName) ++ [j.attr.externalName] := by
  obtain ⟨wellFormed, leads⟩ := h.reached reached
  have declared := (wellFormed.here.joins_fit j mem).declares
  refine ⟨⟨q.root, path.map Join.hop, j.hop, j.query.root⟩, ?_, rfl, ?_⟩
  · rw [← fields_hops, leads.relationAlong]
    exact declared.through
  · rw [RelationPath.segments, RelationPath.hops, List.map_append, names_hops]
    rfl

theorem WellFormed.shown (h : q.WellFormed) (met : v ∈ q.walk) :
    v.Shown q.root (v.item [q.root.objectName]) := by
  obtain ⟨sub, reached, _, belongs⟩ := mem_walk_iff.mp met
  cases v with
  | column path f =>
    obtain ⟨p, along, segments⟩ := h.column_path reached belongs
    refine ⟨p, along, ?_⟩
    rw [AttributePath.fragment, segments]
    rfl
  | source path j =>
    obtain ⟨p, along, target, segments⟩ := h.source_path reached belongs.1
    refine ⟨p, along, target, ?_⟩
    rw [RelationPath.fragment, segments]
    rfl

theorem WellFormed.isListed (h : q.WellFormed) (listing : q.count = false) : q.Listed where
  items := by
    refine ⟨(q.walk.filter Visit.isColumn ++ q.walk.filter (!·.isColumn)).map
      (Visit.item [q.root.objectName]), ?_, fun source => ?_⟩
    · rw [List.forall₂_map_right_iff, List.forall₂_same]
      intro v mem
      refine h.shown ?_
      rcases List.mem_append.mp mem with mem | mem
      · exact List.mem_of_mem_filter mem
      · exact List.mem_of_mem_filter mem
    · rw [statementFrom_eq listing, h.project_walk, Projection.fragment, List.map_append]
  once := h.places_nodup
  met := fun _ => mem_walk_iff

/-! ### The statements of a tree -/

/-- The joins on the way to a query are split where its statement begins. -/
theorem exists_split (path : List (Join Query)) :
    ∃ outer inner, outer ++ inner = path ∧ Opens outer ∧ Stays inner := by
  -- The last one-to-many join decides, so the path is taken from its end.
  induction path using List.reverseRecOn with
  | nil => exact ⟨[], [], rfl, by simp [Opens], List.forall_mem_nil _⟩
  | append_singleton path j ih =>
    cases arity : j.attr.isMany with
    | true =>
      refine ⟨path ++ [j], [], List.append_nil _, ?_, List.forall_mem_nil _⟩
      simpa [Opens] using arity
    | false =>
      obtain ⟨outer, inner, rfl, opens, stays⟩ := ih
      refine ⟨outer, inner ++ [j], (List.append_assoc ..).symm, opens, ?_⟩
      rintro k mem
      rcases List.mem_append.mp mem with mem | mem
      · exact stays k mem
      · rw [List.mem_singleton.mp mem, arity]

/-- A way that goes on from where a statement begins and stays in it leads to no other beginning. -/
theorem Opens.eq_nil (opens : Opens (outer ++ rest)) (stays : Stays (rest ++ inner)) :
    rest = [] := by
  rcases List.eq_nil_or_concat rest with none | ⟨before, j, rfl⟩
  · exact none
  · have many := opens j (by simp)
    have single := stays j (by simp)
    rw [many] at single
    cases single

theorem split_unique {outer' inner' : List (Join Query)} (opens : Opens outer) (stays : Stays inner)
    (opens' : Opens outer') (stays' : Stays inner') (same : outer ++ inner = outer' ++ inner') :
    outer = outer' := by
  rcases List.append_eq_append_iff.mp same with ⟨rest, rfl, rfl⟩ | ⟨rest, rfl, rfl⟩
  · rw [opens'.eq_nil stays, List.append_nil]
  · rw [opens.eq_nil stays', List.append_nil]

/-- Every query inside another lists exactly what the walk through it meets. Every selected column
and every one-to-many join of the tree is met in exactly one of the statements. -/
theorem listed_of_reachable (reachable : q.Reachable) (listing : q.count = false) :
    (∀ path sub, q.At path sub → sub.Listed) ∧
      ∀ v sub, q.At v.path sub → v.BelongsTo sub →
        ∃! split : List (Join Query) × Visit, split.2.behind split.1 = v ∧ Opens split.1 ∧
          ∃ s, q.At split.1 s ∧ split.2 ∈ s.walk := by
  have wellFormed := reachable.wellFormed
  refine ⟨fun path sub reached => ?_, fun v sub reached belongs => ?_⟩
  · exact (wellFormed.reached reached).1.isListed (wellFormed.listing_at listing reached)
  · obtain ⟨outer, inner, along, opens, stays⟩ := exists_split v.path
    obtain ⟨w, rfl, rfl⟩ := Visit.exists_behind along.symm
    rw [← along] at reached
    obtain ⟨s, start, inside⟩ := at_append.mp reached
    refine ⟨(outer, w), ⟨rfl, opens, s, start, ?_⟩, ?_⟩
    · exact mem_walk_iff.mpr ⟨sub, inside, stays, Visit.belongsTo_behind.mp belongs⟩
    · rintro ⟨outer', w'⟩ ⟨same, opens', s', _, met⟩
      obtain ⟨_, _, stays', _⟩ := mem_walk_iff.mp met
      have paths : outer' ++ w'.path = outer ++ w.path := by
        rw [← Visit.path_behind, same, Visit.path_behind]
      obtain rfl := split_unique opens' stays' opens stays paths
      exact Prod.ext rfl (Visit.behind_inj same)

end Query

/-! ### At the sample -/

namespace Sample

/-- The name of the account of a user in an account. -/
def accountIdColumn : Visit :=
  .column [usersOfAccount joinedUsers, accountOfUser] ⟨"id", ⟨"Id", false, .scalar .string⟩⟩

/-- The users in an account stand in a statement of their own, and the account of each in theirs. -/
theorem accountsWithUsers_listed : accountsWithUsers.Reachable ∧ accountsWithUsers.count = false ∧
    joinedUsers.Listed ∧ accountIdColumn.BelongsTo (Query.select account) ∧
      ∃! split : List (Join Query) × Visit, split.2.behind split.1 = accountIdColumn ∧
        Query.Opens split.1 ∧ ∃ s, accountsWithUsers.At split.1 s ∧ split.2 ∈ s.walk := by
  have reachable := accountsWithUsers_reachable
  have users : accountsWithUsers.At [usersOfAccount joinedUsers] joinedUsers :=
    ⟨List.mem_cons_self, rfl⟩
  have accounts : accountsWithUsers.At accountIdColumn.path (Query.select account) :=
    ⟨List.mem_cons_self, List.mem_cons_self, rfl⟩
  have column : accountIdColumn.BelongsTo (Query.select account) := List.mem_cons_self
  obtain ⟨listed, once⟩ := Query.listed_of_reachable reachable rfl
  exact ⟨reachable, rfl, listed _ _ users, column, once _ _ accounts column⟩

end Sample

end RecordQuery
