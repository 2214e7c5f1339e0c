import RecordQuery.Proofs.Sample
import RecordQuery.Proofs.Schema.Resolved

/-!
# Registration

What is registered is found: the lookups of a registry reach every model, invert each other, and
follow every relationship, in whatever order the declarations stand.
-/

namespace RecordQuery

namespace Registry

/-- What is found in a registry made from declarations. -/
structure Indexes (r : Registry) (ds : List Declaration) : Prop where
  listed : r.models.map Model.schema = ds.map Declaration.schema
  /-- In particular each model is found under its own name. -/
  model : ∀ name m, r.model name = .ok m ↔ m ∈ r.models ∧ m.name = name
  modelNames : ∀ name, (∃ m, r.model name = .ok m) ↔ name ∈ ds.map Declaration.name
  object : ∀ name m, r.byObjectName name = .ok m ↔ m ∈ r.models ∧ m.objectName = name
  objectNames : ∀ name, (∃ m, r.byObjectName name = .ok m) ↔
    name ∈ ds.map fun d => d.objectName.getD d.name
  /-- A field stands at its position and nowhere else. -/
  position : ∀ m ∈ r.models, ∀ field i,
    m.schema.position? field = some i ↔ (m.schema.fields[i]?).map Field.name = some field
  related : ∀ m ∈ r.models, ∀ f ∈ m.schema.fields, ∀ target, f.attr.target? = some target →
    ∃ t ∈ r.models, m.related f.name = .ok t ∧ t.name = target
  resolved : ∀ m ∈ r.models, ∀ field name, m.related field ≠ .error (.unknownModel name)

variable {r : Registry} {m : Model} {name : String}

theorem map_schema_models (r : Registry) : r.models.map Model.schema = r.schemas := by
  rw [models, List.map_map]
  exact List.attach_map_subtype_val _

theorem exists_model_iff {key : Schema → String} :
    (∃ m ∈ r.models, key m.schema = name) ↔ name ∈ r.schemas.map key := by
  rw [← map_schema_models, List.map_map, List.mem_map]
  rfl

end Registry

/-- A field stands at its position and nowhere else. -/
theorem Schema.Valid.position?_iff {s : Schema} (valid : s.Valid) {field : String} {i : Nat} :
    s.position? field = some i ↔ (s.fields[i]?).map Field.name = some field := by
  rw [Schema.position?, List.findIdx?_eq_some_iff_getElem, Option.map_eq_some_iff]
  constructor
  · rintro ⟨inside, same, _⟩
    exact ⟨_, List.getElem?_eq_getElem inside, beq_iff_eq.mp same⟩
  · rintro ⟨f, found, rfl⟩
    obtain ⟨inside, rfl⟩ := List.getElem?_eq_some_iff.mp found
    refine ⟨inside, beq_self_eq_true _, fun j before same => ?_⟩
    have apart := List.pairwise_iff_getElem.mp valid j i (Nat.lt_trans before inside) inside before
    exact apart.1 (beq_iff_eq.mp same)

/-- A field leads to no model that is missing: it is no relationship, or its target is there. -/
theorem Model.related_resolved {m : Model} (built : m.registry.Built) (field name : String) :
    m.related field ≠ .error (.unknownModel name) := by
  intro failed
  rw [related, Outcome.bind_eq_error] at failed
  rcases failed with undeclared | ⟨a, declared, failed⟩
  · rw [attr, Schema.attr] at undeclared
    split at undeclared
    · cases undeclared
    · cases undeclared
  · have mem : ⟨field, a⟩ ∈ m.schema.fields := Schema.attr_eq_ok declared
    cases leads : a.target? with
    | none =>
      rw [leads] at failed
      cases failed
    | some target =>
      obtain ⟨t, found⟩ := related_ok built mem (Attribute.isRelation_of_target leads)
      rw [related_name built mem leads] at found
      simp only [leads, found] at failed
      cases failed

theorem Registry.indexes {id : Nat} {ds : List Declaration} {r : Registry}
    (run : Registry.build id ds = .ok r) : r.Indexes ds := by
  have built : r.Built := ⟨id, ds, run⟩
  obtain ⟨_, schemas⟩ := Registry.build_iff.mp run
  have names : r.schemas.map Schema.name = ds.map Declaration.name := by
    rw [schemas]
    exact List.map_map ..
  have objectNames : r.schemas.map Schema.objectName =
      ds.map fun d => d.objectName.getD d.name := by
    rw [schemas]
    exact List.map_map ..
  have model (name : String) (m : Model) : r.model name = .ok m ↔ m ∈ r.models ∧ m.name = name := by
    rw [Registry.model_eq_ok, Registry.findModel?_iff built.names_nodup.1]
    rfl
  have object (name : String) (m : Model) :
      r.byObjectName name = .ok m ↔ m ∈ r.models ∧ m.objectName = name := by
    rw [Registry.byObjectName_eq_ok, Registry.findModel?_iff built.names_nodup.2]
    rfl
  exact
    { listed := by rw [Registry.map_schema_models, schemas]
      model
      modelNames := fun name => by
        simp only [model, ← names]
        exact Registry.exists_model_iff
      object
      objectNames := fun name => by
        simp only [object, ← objectNames]
        exact Registry.exists_model_iff
      position := fun m mem field i =>
        (built.valid _ (Registry.mem_models.mp mem ▸ m.mem)).position?_iff
      related := fun m mem f declared target leads => by
        obtain rfl := Registry.mem_models.mp mem
        have relation := Attribute.isRelation_of_target leads
        obtain ⟨t, found⟩ := Model.related_ok built declared relation
        have lookup := found
        rw [Model.related_name built declared leads] at lookup
        obtain ⟨listed, name⟩ := (model target t).mp lookup
        exact ⟨t, listed, found, name⟩
      resolved := fun m mem field name => by
        obtain rfl := Registry.mem_models.mp mem
        exact Model.related_resolved built field name }

/-- Declarations are registered exactly when they are consistent, as their schemas in the same
order; and in what is registered every lookup by a name finds the one model of that name, positions
are those of the fields, and every relationship leads to a model. -/
theorem Registry.registration (id : Nat) (ds : List Declaration) :
    (∀ r, Registry.build id ds = .ok r ↔
      Registry.Consistent ds ∧ r = ⟨id, ds.map Declaration.schema⟩) ∧
    ∀ r, Registry.build id ds = .ok r → r.Indexes ds :=
  ⟨fun _ => Registry.build_iff, fun _ run => Registry.indexes run⟩

theorem Sample.registry_registration : Registry.build 0 declarations = .ok registry ∧
    Registry.Consistent declarations ∧ registry.Indexes declarations := by
  have whole := Registry.registration 0 declarations
  have run : Registry.build 0 declarations = .ok registry := rfl
  exact ⟨run, ((whole.1 registry).mp run).1, whole.2 registry run⟩

end RecordQuery
