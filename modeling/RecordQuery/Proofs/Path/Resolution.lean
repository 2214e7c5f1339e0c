import RecordQuery.Condition.Written
import RecordQuery.Proofs.Fragment.Balanced
import RecordQuery.Proofs.Path.Along
import RecordQuery.Proofs.Sample
import RecordQuery.Proofs.Schema.Resolved

/-!
# Resolved paths

Field names that are followed from a model go through the registry as its schemas declare it: each
has to be a relationship of the model that the names before it lead to. The path that is made holds
what was declared along the way, and can be ended at a scalar field of the model that it leads to.
Where no path is made, the error is about the first name that is not followed and the model that was
reached there.
-/

namespace RecordQuery

namespace Model

variable {m next owner target : Model} {hop : Hop} {hops : List Hop} {field : String}
  {fields names : List String} {p : RelationPath} {a : AttributePath} {e : Error}

/-! ### The graph of relationships -/

/-- The model declares a relationship with the names and the arity of the hop, and the target is the
model of its registry that the declaration names. -/
structure Relates (m : Model) (hop : Hop) (target : Model) : Prop where
  declared : ∃ nullable,
    ⟨hop.field, ⟨hop.externalName, nullable, .relation target.name hop.many⟩⟩ ∈ m.schema.fields
  registered : target ∈ m.registry.models

/-- Relationships one after another, each of the model that the one before it leads to. -/
inductive Route : Model → List Hop → Model → Prop
  | here {m : Model} : Route m [] m
  | cross {m next target : Model} {hop : Hop} {hops : List Hop} (first : m.Relates hop next)
      (onward : Route next hops target) : Route m (hop :: hops) target

/-- Why a field is not followed as a relationship. -/
inductive RefusesRelation (m : Model) (field : String) : Error → Prop
  | undeclared (absent : field ∉ m.schema.fields.map Field.name) :
      RefusesRelation m field (.unknownField m.name field)
  | scalar {a : Attribute} {kind : Kind} (declared : ⟨field, a⟩ ∈ m.schema.fields)
      (content : a.content = .scalar kind) :
      RefusesRelation m field (.invalidJoin m.name field .notRelation)

/-- Why a path to an attribute does not end at a field. -/
inductive RefusesAttribute (m : Model) (field : String) : Error → Prop
  | undeclared (absent : field ∉ m.schema.fields.map Field.name) :
      RefusesAttribute m field (.unknownField m.name field)
  | relation {a : Attribute} {target : String} {many : Bool}
      (declared : ⟨field, a⟩ ∈ m.schema.fields) (content : a.content = .relation target many) :
      RefusesAttribute m field (.invalidColumn m.name field .isRelation)

/-- The first of the names that does not follow a relationship, and the error it gives. -/
inductive Stops : Model → List String → Error → Prop
  | here {m : Model} {field : String} {rest : List String} {e : Error}
      (refused : m.RefusesRelation field e) : Stops m (field :: rest) e
  | later {m next : Model} {hop : Hop} {rest : List String} {e : Error}
      (first : m.Relates hop next) (onward : Stops next rest e) : Stops m (hop.field :: rest) e

theorem attr_eq_ok_iff (built : m.registry.Built) {a : Attribute} :
    m.attr field = .ok a ↔ ⟨field, a⟩ ∈ m.schema.fields :=
  ⟨Schema.attr_eq_ok, fun mem => (built.valid _ m.mem).attr_name mem⟩

theorem Relates.built (h : m.Relates hop next) (built : m.registry.Built) :
    next.registry.Built := by
  rwa [Registry.mem_models.mp h.registered]

theorem Route.built (h : m.Route hops target) (built : m.registry.Built) :
    target.registry.Built := by
  induction h with
  | here => exact built
  | cross first _ ih => exact ih (first.built built)

/-- The relationships that are followed are those of the registry. -/
theorem relates_iff (built : m.registry.Built) : m.Relates hop target ↔ m.Declares hop target := by
  constructor
  · rintro ⟨⟨nullable, declared⟩, registered⟩
    have same : target.registry = m.registry := Registry.mem_models.mp registered
    refine ⟨⟨_, (attr_eq_ok_iff built).mpr declared, rfl, rfl⟩, ?_⟩
    rw [related_name built declared rfl, ← same]
    exact Registry.Built.model_name (same ▸ built)
  · rintro ⟨⟨⟨externalName, nullable, content⟩, declared, relation, names⟩, related⟩
    have mem := Schema.attr_eq_ok declared
    cases content with
    | scalar kind => cases relation
    | relation name many =>
      rw [related_name built mem rfl, Registry.model_eq_ok,
        Registry.findModel?_iff built.names_nodup.1] at related
      obtain ⟨registered, rfl⟩ := related
      rw [names]
      exact ⟨⟨nullable, mem⟩, registered⟩

theorem route_iff (built : m.registry.Built) : m.Route hops target ↔ m.Leads hops target := by
  constructor
  · intro route
    induction route with
    | here => exact .here
    | cross first _ ih => exact .cross ((relates_iff built).mp first) (ih (first.built built))
  · intro leads
    induction leads with
    | here => exact .here
    | cross declared _ ih =>
      have first := (relates_iff built).mpr declared
      exact .cross first (ih (first.built built))

/-! ### One step -/

/-- What begins with a declared field fails if there is none, or with what is done next. -/
theorem attr_bind_eq_error (built : m.registry.Built) {α : Type} {next : Attribute → Except Error α} :
    m.attr field >>= next = .error e ↔
      (field ∉ m.schema.fields.map Field.name ∧ e = .unknownField m.name field) ∨
        ∃ a, ⟨field, a⟩ ∈ m.schema.fields ∧ next a = .error e := by
  rw [Outcome.bind_eq_error, attr, Schema.attr_eq_error]
  exact or_congr_right (exists_congr fun a => and_congr_left' (attr_eq_ok_iff built))

theorem refusesRelation_iff (built : m.registry.Built) {root : Model} {parents : List Hop} :
    RelationPath.through root parents m field = .error e ↔ m.RefusesRelation field e := by
  rw [RelationPath.through, attr_bind_eq_error built]
  constructor
  · rintro (⟨absent, rfl⟩ | ⟨a, declared, failed⟩)
    · exact .undeclared absent
    · cases content : a.content with
      | scalar kind =>
        rw [Attribute.isRelation_eq_false content] at failed
        cases failed
        exact .scalar declared content
      | relation name many =>
        -- The target of a declared relationship is registered, so nothing is left to fail.
        have leads : a.target? = some name := by rw [Attribute.target?, content]
        have relation : a.isRelation = true := Attribute.isRelation_of_target leads
        obtain ⟨target, followed⟩ := related_ok built declared relation
        rw [relation, followed] at failed
        cases failed
  · rintro (absent | ⟨declared, content⟩)
    · exact .inl ⟨absent, rfl⟩
    · refine .inr ⟨_, declared, ?_⟩
      rw [Attribute.isRelation_eq_false content]
      rfl

theorem refusesAttribute_iff (built : m.registry.Built) {root : Model} {hops : List Hop} :
    AttributePath.through root hops m field = .error e ↔ m.RefusesAttribute field e := by
  rw [AttributePath.through, attr_bind_eq_error built]
  constructor
  · rintro (⟨absent, rfl⟩ | ⟨a, declared, failed⟩)
    · exact .undeclared absent
    · cases content : a.content with
      | scalar kind =>
        rw [content] at failed
        cases failed
      | relation target many =>
        rw [content] at failed
        cases failed
        exact .relation declared content
  · rintro (absent | ⟨declared, content⟩)
    · exact .inl ⟨absent, rfl⟩
    · refine .inr ⟨_, declared, ?_⟩
      rw [content]
      rfl

/-! ### One step after another -/

/-- Names either follow relationships to the last of them or stop at one of them. -/
theorem route_or_stops (built : m.registry.Built) (names : List String) :
    (∃ hops target, m.Route hops target ∧ hops.map Hop.field = names) ∨ ∃ e, m.Stops names e := by
  induction names generalizing m with
  | nil => exact .inl ⟨[], m, .here, rfl⟩
  | cons field rest ih =>
    cases step : m.relationAt field with
    | error e => exact .inr ⟨e, .here ((refusesRelation_iff built).mp step)⟩
    | ok p =>
      obtain ⟨_, _, rfl, declared⟩ := RelationPath.through_eq_ok.mp step
      have first := (relates_iff built).mpr declared
      rcases ih (first.built built) with ⟨hops, target, onward, rfl⟩ | ⟨e, onward⟩
      · exact .inl ⟨p.last :: hops, target, .cross first onward, rfl⟩
      · exact .inr ⟨e, .later first onward⟩

theorem relationAlong_eq {first : String} {rest : List String}
    (names : fields ++ [field] = first :: rest) : m.relationAlong fields field =
      m.relationAt first >>= fun p => rest.foldlM RelationPath.relationAt p := by
  cases fields with
  | nil =>
    obtain ⟨rfl, rfl⟩ := List.cons.inj names
    exact (bind_pure _).symm
  | cons f fs =>
    obtain ⟨rfl, rfl⟩ := List.cons.inj names
    simp [relationAlong, List.foldlM_append]

theorem Route.relationAlong (route : m.Route hops target) (built : m.registry.Built)
    (names : hops.map Hop.field = fields ++ [field]) :
    ∃ p, m.relationAlong fields field = .ok p ∧ p.root = m ∧ p.hops = hops ∧
      p.target = target := by
  cases (route_iff built).mp route with
  | here => exact absurd names.symm (List.append_ne_nil_of_right_ne_nil _ (List.cons_ne_nil _ _))
  | @cross _ next _ hop hops declared onward =>
    obtain ⟨p, run, root, inner, reached⟩ := onward.foldlM (p := ⟨m, [], hop, next⟩)
    refine ⟨p, ?_, root, inner, reached⟩
    rw [relationAlong_eq names.symm, relationAt, declared.through, Outcome.ok_bind, run]

theorem Stops.foldlM (stops : p.target.Stops names e) (built : p.target.registry.Built) :
    names.foldlM RelationPath.relationAt p = .error e := by
  generalize start : p.target = m at stops built
  induction stops generalizing p with
  | here refused =>
    rw [List.foldlM_cons, RelationPath.relationAt, start, (refusesRelation_iff built).mpr refused]
    rfl
  | @later m next hop _ _ first _ ih =>
    rw [List.foldlM_cons, RelationPath.relationAt, start, ((relates_iff built).mp first).through,
      Outcome.ok_bind]
    exact ih rfl (first.built built)

theorem Stops.relationAlong (stops : m.Stops (fields ++ [field]) e) (built : m.registry.Built) :
    m.relationAlong fields field = .error e := by
  generalize names : fields ++ [field] = all at stops
  cases stops with
  | here refused =>
    rw [relationAlong_eq names, relationAt, (refusesRelation_iff built).mpr refused]
    rfl
  | later first onward =>
    rw [relationAlong_eq names, relationAt, ((relates_iff built).mp first).through,
      Outcome.ok_bind]
    exact onward.foldlM (first.built built)

/-- No name stops because a model is missing. -/
theorem Stops.resolved (stops : m.Stops names e) (name : String) : e ≠ .unknownModel name := by
  induction stops with
  | here refused => cases refused <;> exact nofun
  | later _ _ ih => exact ih

theorem relationAlong_eq_ok (built : m.registry.Built) : m.relationAlong fields field = .ok p ↔
    p.root = m ∧ p.fields = fields ++ [field] ∧ m.Route p.hops p.target := by
  constructor
  · intro run
    rcases route_or_stops built (fields ++ [field]) with ⟨hops, target, route, names⟩ | ⟨e, stops⟩
    · obtain ⟨q, made, root, inner, reached⟩ := route.relationAlong built names
      obtain rfl := Except.ok.inj (made.symm.trans run)
      refine ⟨root, ?_, ?_⟩
      · rw [RelationPath.fields, inner, names]
      · rwa [inner, reached]
    · cases (stops.relationAlong built).symm.trans run
  · rintro ⟨root, names, route⟩
    obtain ⟨q, made, start, inner, reached⟩ := route.relationAlong built names
    rw [made, RelationPath.eq_of_hops (start.trans root.symm) inner reached]

theorem relationAlong_eq_error (built : m.registry.Built) :
    m.relationAlong fields field = .error e ↔ m.Stops (fields ++ [field]) e := by
  constructor
  · intro failed
    rcases route_or_stops built (fields ++ [field]) with ⟨hops, target, route, names⟩ | ⟨cause, stops⟩
    · obtain ⟨q, made, _⟩ := route.relationAlong built names
      cases made.symm.trans failed
    · cases (stops.relationAlong built).symm.trans failed
      exact stops
  · exact fun stops => stops.relationAlong built

end Model

/-! ### Ending at an attribute -/

/-- A path over the hops from the root to a scalar field that the owner declares. -/
structure AttributePath.EndsAt (a : AttributePath) (root : Model) (hops : List Hop) (owner : Model)
    (field : String) : Prop where
  start : a.root = root
  way : a.hops = hops
  reached : a.owner = owner
  named : a.field = field
  /-- The names outside, whether it may be null and the kind are those of the declaration. -/
  declared : ⟨field, a.toAttribute⟩ ∈ owner.schema.fields
  many : a.crossesMany = true ↔ ∃ hop ∈ hops, hop.many = true
  direct : a.isDirect = true ↔ hops = []
  text : a.fragment.write = ".".intercalate
    (root.objectName :: hops.map Hop.externalName ++ [a.externalName])

/-- What comes of ending a path over the hops from the root at a field of the owner. -/
structure Model.Ends (root : Model) (hops : List Hop) (owner : Model) (field : String)
    (outcome : Except Error AttributePath) : Prop where
  made : ∀ a, outcome = .ok a ↔ a.EndsAt root hops owner field
  scalar : (∃ a, outcome = .ok a) ↔
    ∃ a kind, ⟨field, a⟩ ∈ owner.schema.fields ∧ a.content = .scalar kind
  refused : ∀ e, outcome = .error e ↔ owner.RefusesAttribute field e

/-- What comes of following fields from a model, and of ending a path there. -/
structure Model.Follows (m : Model) (fields : List String) (field : String) : Prop where
  made : ∀ p, m.relationAlong fields field = .ok p ↔
    p.root = m ∧ p.fields = fields ++ [field] ∧ m.Route p.hops p.target
  followed : (∃ p, m.relationAlong fields field = .ok p) ↔
    ∃ hops target, m.Route hops target ∧ hops.map Hop.field = fields ++ [field]
  last : ∀ p, m.relationAlong fields field = .ok p → p.hops.getLast? = some p.last
  refused : ∀ e, m.relationAlong fields field = .error e ↔ m.Stops (fields ++ [field]) e
  resolved : ∀ name, m.relationAlong fields field ≠ .error (.unknownModel name)
  ends : ∀ p, m.relationAlong fields field = .ok p →
    ∀ scalar, m.Ends p.hops p.target scalar (p.attributeAt scalar)

namespace Model

variable {m root owner : Model} {hops : List Hop} {field : String} {a : AttributePath}

theorem endsAt_iff (built : owner.registry.Built) :
    AttributePath.through root hops owner field = .ok a ↔ a.EndsAt root hops owner field := by
  rw [AttributePath.through_eq_ok]
  constructor
  · rintro ⟨rfl, rfl, rfl, rfl, declared⟩
    refine ⟨rfl, rfl, rfl, rfl, Schema.attr_eq_ok declared, ?_, ?_, ?_⟩
    · rw [AttributePath.crossesMany, List.any_eq_true]
    · rw [AttributePath.isDirect, List.isEmpty_iff]
    · rw [AttributePath.fragment, Fragment.write_path, AttributePath.segments]
  · intro h
    exact ⟨h.start, h.way, h.reached, h.named, (attr_eq_ok_iff built).mpr h.declared⟩

theorem ends_through (built : owner.registry.Built) (root : Model) (hops : List Hop)
    (field : String) :
    root.Ends hops owner field (AttributePath.through root hops owner field) where
  made _ := endsAt_iff built
  scalar := by
    constructor
    · rintro ⟨a, made⟩
      exact ⟨a.toAttribute, a.kind, ((endsAt_iff built).mp made).declared, rfl⟩
    · rintro ⟨a, kind, declared, content⟩
      rw [AttributePath.through, (attr_eq_ok_iff built).mpr declared, Outcome.ok_bind, content]
      exact ⟨_, rfl⟩
  refused _ := refusesAttribute_iff built

/-- Following fields of a model makes a path exactly when each is a relationship of the model that
those before it lead to. The path starts at the model, has a hop for each field as it is declared
there, and leads to the model reached. If no path is made, the error says why the first field that
is not followed is none, and it is never that a model is missing. A path made so, and a path with no
hop at all, can be ended exactly at the scalar fields of the model it leads to. -/
theorem relationships_followed {m : Model} (built : m.registry.Built) :
    (∀ fields field, m.Follows fields field) ∧
      ∀ scalar, m.Ends [] m scalar (m.attributeAt scalar) := by
  refine ⟨fun fields field => ?_, fun scalar => ends_through built m [] scalar⟩
  refine
    { made := fun _ => relationAlong_eq_ok built
      followed := ⟨?_, ?_⟩
      last := fun p _ => List.getLast?_concat
      refused := fun _ => relationAlong_eq_error built
      resolved := fun name failed =>
        ((relationAlong_eq_error built).mp failed).resolved name rfl
      ends := ?_ }
  · rintro ⟨p, made⟩
    obtain ⟨rfl, names, route⟩ := (relationAlong_eq_ok built).mp made
    exact ⟨p.hops, p.target, route, names⟩
  · rintro ⟨hops, target, route, names⟩
    obtain ⟨p, made, _⟩ := route.relationAlong built names
    exact ⟨p, made⟩
  · intro p made scalar
    obtain ⟨rfl, _, route⟩ := (relationAlong_eq_ok built).mp made
    exact ends_through (route.built built) p.root p.hops scalar

end Model

namespace Sample

/-- From an account there is a way over its users and the account of each, but none over the day
since when a user has been there. -/
theorem userAccount_followed : account.registry.Built ∧
    account.relationAlong ["users"] "account" = .ok userAccount ∧
    account.Route userAccount.hops account ∧
    account.Stops ["users", "since"] (.invalidJoin "User" "since" .notRelation) ∧
    ∃ a, userAccount.attributeAt "id" = .ok a ∧ a.EndsAt account userAccount.hops account "id" ∧
      a.fragment.write = "Account.Users.Account.Id" := by
  obtain ⟨follows, _⟩ := Model.relationships_followed (m := account) registry_built
  have made : account.relationAlong ["users"] "account" = .ok userAccount := rfl
  have stopped : account.relationAlong ["users"] "since" =
    .error (.invalidJoin "User" "since" .notRelation) := rfl
  have ended := ((follows ["users"] "account").ends userAccount made "id").made
  refine ⟨registry_built, made, (((follows ["users"] "account").made _).mp made).2.2,
    ((follows ["users"] "since").refused _).mp stopped, _, rfl, (ended _).mp rfl, ?_⟩
  exact ((ended _).mp rfl).text

end Sample

end RecordQuery
