import RecordQuery.Proofs.Schema.Built

/-!
# Lookups in built registries

Registration keeps model names apart, and object names, and resolves every relationship. A model of
a built registry is therefore found under both of its names, and every relationship leads to one.
-/

namespace RecordQuery

namespace Registry

variable {r : Registry} {m : Model} {name : String} {s : Schema}

/-! ### What registration checks -/

theorem Built.names_nodup (built : r.Built) :
    (r.schemas.map Schema.name).Nodup ∧ (r.schemas.map Schema.objectName).Nodup := by
  obtain ⟨ds, consistent, schemas⟩ := built.consistent
  rw [schemas, List.map_map, List.map_map]
  exact ⟨consistent.names, consistent.objectNames⟩

theorem Built.target_declared (built : r.Built) (mem : s ∈ r.schemas) {f : Field}
    (declared : f ∈ s.fields) {target : String} (leads : f.attr.target? = some target) :
    ∃ t ∈ r.schemas, t.name = target := by
  obtain ⟨ds, consistent, schemas⟩ := built.consistent
  rw [schemas] at mem ⊢
  obtain ⟨d, listed, rfl⟩ := List.mem_map.mp mem
  have there := consistent.targets d listed f declared target leads
  obtain ⟨t, among, named⟩ := List.mem_map.mp there
  exact ⟨t.schema, List.mem_map_of_mem among, named⟩

/-! ### What is found -/

theorem findModel?_isSome {test : Schema → Bool} (mem : s ∈ r.schemas) (passes : test s = true) :
    ∃ m, r.findModel? test = some m := by
  unfold findModel?
  split
  · exact ⟨_, rfl⟩
  · next absent => exact absurd passes (List.find?_eq_none.mp absent s mem)

/-- A model whose schema alone passes the test is the one that is found. -/
theorem findModel?_alone {test : Schema → Bool} (passes : test m.schema = true)
    (alone : ∀ s ∈ m.registry.schemas, test s = true → s = m.schema) :
    m.registry.findModel? test = some m := by
  obtain ⟨found, search⟩ := findModel?_isSome m.mem passes
  obtain ⟨registry, test_found⟩ := findModel?_eq_some search
  have schema := alone found.schema (registry ▸ found.mem) test_found
  rw [search]
  obtain ⟨_, _, _⟩ := m
  obtain ⟨_, _, _⟩ := found
  obtain rfl := registry
  obtain rfl := schema
  rfl

theorem mem_models : m ∈ r.models ↔ m.registry = r := by
  rw [models, List.mem_map]
  constructor
  · rintro ⟨s, _, rfl⟩
    rfl
  · rintro rfl
    exact ⟨⟨m.schema, m.mem⟩, List.mem_attach _ _, rfl⟩

/-- Where a name belongs to one schema only, a search by that name finds the model of that
schema. -/
theorem findModel?_iff {key : Schema → String} (distinct : (r.schemas.map key).Nodup) :
    r.findModel? (key · == name) = some m ↔ m ∈ r.models ∧ key m.schema = name := by
  rw [mem_models]
  constructor
  · intro found
    obtain ⟨registry, same⟩ := findModel?_eq_some found
    exact ⟨registry, beq_iff_eq.mp same⟩
  · rintro ⟨rfl, rfl⟩
    refine findModel?_alone (beq_self_eq_true _) fun s mem same => ?_
    exact List.inj_on_of_nodup_map distinct mem m.mem (beq_iff_eq.mp same)

theorem model_eq_ok : r.model name = .ok m ↔ r.findModel? (·.name == name) = some m := by
  rw [model]
  cases r.findModel? (·.name == name) <;> simp

theorem byObjectName_eq_ok :
    r.byObjectName name = .ok m ↔ r.findModel? (·.objectName == name) = some m := by
  rw [byObjectName]
  cases r.findModel? (·.objectName == name) <;> simp

theorem Built.model_name (built : m.registry.Built) : m.registry.model m.name = .ok m :=
  model_eq_ok.mpr ((findModel?_iff built.names_nodup.1).mpr ⟨mem_models.mpr rfl, rfl⟩)

theorem Built.byObjectName_objectName (built : m.registry.Built) :
    m.registry.byObjectName m.objectName = .ok m :=
  byObjectName_eq_ok.mpr ((findModel?_iff built.names_nodup.2).mpr ⟨mem_models.mpr rfl, rfl⟩)

theorem registry_of_model (h : r.model name = .ok m) : m.registry = r :=
  (findModel?_eq_some (model_eq_ok.mp h)).1

theorem registry_of_byObjectName (h : r.byObjectName name = .ok m) : m.registry = r :=
  (findModel?_eq_some (byObjectName_eq_ok.mp h)).1

end Registry

namespace Model

variable {m : Model} {f : Field}

/-- A field that leads to a model is a declared relationship, and stays in the registry. -/
theorem related_eq_ok {target : Model} {field : String} (h : m.related field = .ok target) :
    ∃ a, m.attr field = .ok a ∧ a.isRelation = true ∧ target.registry = m.registry := by
  rw [related, Outcome.bind_eq_ok] at h
  obtain ⟨a, declared, h⟩ := h
  refine ⟨a, declared, ?_⟩
  rw [Attribute.isRelation]
  cases leads : a.target? with
  | some name =>
    rw [leads] at h
    exact ⟨rfl, Registry.registry_of_model h⟩
  | none =>
    rw [leads] at h
    exact absurd h Outcome.throw_ne_ok

/-- A relationship leads where its attribute says. -/
theorem related_name (built : m.registry.Built) (mem : f ∈ m.schema.fields) {target : String}
    (leads : f.attr.target? = some target) : m.related f.name = m.registry.model target := by
  rw [related, attr, (built.valid _ m.mem).attr_name mem, Outcome.ok_bind, leads]

theorem related_ok (built : m.registry.Built) (mem : f ∈ m.schema.fields)
    (relation : f.attr.isRelation = true) : ∃ target, m.related f.name = .ok target := by
  obtain ⟨target, leads⟩ := Option.isSome_iff_exists.mp relation
  obtain ⟨t, declared, name⟩ := built.target_declared m.mem mem leads
  have passes : (t.name == target) = true := by simpa using name
  obtain ⟨found, search⟩ : ∃ found, m.registry.findModel? (·.name == target) = some found :=
    Registry.findModel?_isSome declared passes
  refine ⟨found, ?_⟩
  rw [related_name built mem leads, Registry.model, search]

end Model

end RecordQuery
