import RecordQuery.Proofs.Outcome
import RecordQuery.Schema.Registry
import Mathlib.Data.List.Nodup

/-!
# Built registries

Declarations are registered exactly when they are consistent: no field name is declared twice, no
two scalar fields of a schema have one external name, no two models share a name, and every
relationship leads to a model. What holds of the schemas of a registry follows from that.
-/

namespace RecordQuery

/-- Two fields that may stand in one schema. -/
def Field.Apart (e f : Field) : Prop :=
  e.name ≠ f.name ∧
    (e.attr.isRelation = false → f.attr.isRelation = false →
      e.attr.externalName ≠ f.attr.externalName)

def Schema.Valid (s : Schema) : Prop := s.fields.Pairwise Field.Apart

theorem Attribute.isRelation_of_target {a : Attribute} {target : String}
    (leads : a.target? = some target) : a.isRelation = true := by
  rw [isRelation, leads]
  rfl

namespace Declaration

/-- A check passes exactly when every field is apart from those before it. -/
theorem check_eq_ok {schema : String} {earlier fields : List Field} :
    check schema earlier fields = .ok () ↔
      (∀ e ∈ earlier, ∀ f ∈ fields, e.Apart f) ∧ fields.Pairwise Field.Apart := by
  induction fields generalizing earlier with
  | nil => simp [check]
  | cons f rest ih =>
    have apart : (∀ e ∈ earlier, e.Apart f) ↔
        earlier.any (·.name == f.name) = false ∧
          (!f.attr.isRelation && earlier.any (fun e =>
            !e.attr.isRelation && e.attr.externalName == f.attr.externalName)) = false := by
      simp only [Field.Apart, List.any_eq_false, Bool.and_eq_false_iff, beq_iff_eq,
        Bool.not_eq_false', Bool.and_eq_true, Bool.not_eq_true']
      cases f.attr.isRelation with
      | true => simp
      | false =>
        simp only [forall_const, Bool.false_eq_true, false_or, not_and]
        exact ⟨fun h => ⟨fun e he => (h e he).1, fun e he => (h e he).2⟩,
          fun h e he => ⟨h.1 e he, h.2 e he⟩⟩
    rw [check]
    by_cases h : ∀ e ∈ earlier, e.Apart f
    · obtain ⟨names, externals⟩ := apart.mp h
      rw [names, externals, if_neg Bool.false_ne_true, if_neg Bool.false_ne_true, ih]
      simp only [List.mem_append, List.mem_cons, List.pairwise_cons, List.not_mem_nil, or_false]
      constructor
      · intro h
        obtain ⟨before, after⟩ := h
        refine ⟨?_, fun g hg => before f (.inr rfl) g hg, after⟩
        rintro e he g (rfl | hg)
        · exact h e he
        · exact before e (.inl he) g hg
      · intro h
        obtain ⟨before, first, after⟩ := h
        refine ⟨?_, after⟩
        rintro e (he | rfl) g hg
        · exact before e he g (.inr hg)
        · exact first g hg
    · have conflict : ¬ ∀ e ∈ earlier, ∀ g ∈ f :: rest, e.Apart g :=
        fun all => h fun e he => all e he f List.mem_cons_self
      simp only [conflict, false_and, iff_false]
      rw [apart] at h
      split
      · exact fun e => nomatch e
      · split
        · exact fun e => nomatch e
        · simp_all

/-- The schema that is registered for a declaration. -/
def schema (d : Declaration) : Schema := ⟨d.name, d.objectName.getD d.name, d.fields⟩

/-- No field name twice, and no external name of a scalar twice. -/
structure Consistent (d : Declaration) : Prop where
  names : (d.fields.map Field.name).Nodup
  externalNames : (d.schema.columns.map fun f => f.attr.externalName).Nodup

theorem consistent_iff {d : Declaration} : d.Consistent ↔ d.schema.Valid := by
  have columns : (d.schema.columns.map fun f => f.attr.externalName).Nodup ↔
      d.fields.Pairwise fun e f => e.attr.isRelation = false → f.attr.isRelation = false →
        e.attr.externalName ≠ f.attr.externalName := by
    rw [List.Nodup, List.pairwise_map, Schema.columns, List.pairwise_filter]
    simp [schema]
  have valid : d.schema.Valid ↔ (d.fields.map Field.name).Nodup ∧
      (d.schema.columns.map fun f => f.attr.externalName).Nodup := by
    rw [columns, List.Nodup, List.pairwise_map, ← List.pairwise_and_iff]
    rfl
  exact ⟨fun h => valid.mpr ⟨h.names, h.externalNames⟩, fun h => ⟨(valid.mp h).1, (valid.mp h).2⟩⟩

theorem build_iff {d : Declaration} {s : Schema} :
    d.build = .ok s ↔ d.Consistent ∧ s = d.schema := by
  have checked : check d.name [] d.fields = .ok () ↔ d.Consistent := by
    rw [check_eq_ok, consistent_iff]
    simp [Schema.Valid, schema]
  rw [← checked, build]
  split
  · next passed => simp [passed, schema, eq_comm]
  · next e failed => simp [failed]

end Declaration

namespace Registry

/-- A registry that came from declarations. -/
def Built (r : Registry) : Prop := ∃ id declarations, build id declarations = .ok r

/-- Declarations that can be registered together. -/
structure Consistent (ds : List Declaration) : Prop where
  each : ∀ d ∈ ds, d.Consistent
  names : (ds.map Declaration.name).Nodup
  objectNames : (ds.map fun d => d.objectName.getD d.name).Nodup
  /-- Where a relationship leads, there is a model. -/
  targets : ∀ d ∈ ds, ∀ f ∈ d.fields, ∀ target, f.attr.target? = some target →
    target ∈ ds.map Declaration.name

variable {schemas schemas' before : List Schema} {d : Declaration} {ds : List Declaration}

/-- No two schemas have the same name, inside or outside. -/
def Distinct (schemas : List Schema) : Prop :=
  (schemas.map Schema.name).Nodup ∧ (schemas.map Schema.objectName).Nodup

theorem add_iff (distinct : Distinct schemas) : add schemas d = .ok schemas' ↔
    d.Consistent ∧ Distinct (schemas ++ [d.schema]) ∧ schemas' = schemas ++ [d.schema] := by
  have fresh : Distinct (schemas ++ [d.schema]) ↔ d.schema.name ∉ schemas.map Schema.name ∧
      d.schema.objectName ∉ schemas.map Schema.objectName := by
    rw [Distinct, List.map_append, List.map_append, List.map_singleton, List.map_singleton,
      ← List.concat_eq_append, ← List.concat_eq_append, List.nodup_concat, List.nodup_concat,
      and_iff_left distinct.1, and_iff_left distinct.2]
  rw [fresh]
  simp only [add, Outcome.bind_eq_ok, Outcome.check_eq_ok, Outcome.pure_eq_ok,
    Declaration.build_iff]
  constructor
  · rintro ⟨_, ⟨consistent, rfl⟩, name, objectName, rfl⟩
    exact ⟨consistent, ⟨by simpa using name, by simpa using objectName⟩, rfl⟩
  · rintro ⟨consistent, ⟨name, objectName⟩, rfl⟩
    exact ⟨_, ⟨consistent, rfl⟩, by simpa using name, by simpa using objectName, rfl⟩

/-- The schemas of the declarations are added one after another, as long as the names stay
distinct. -/
theorem addAll_iff (distinct : Distinct before) : ds.foldlM add before = .ok schemas ↔
    (∀ d ∈ ds, d.Consistent) ∧ Distinct (before ++ ds.map Declaration.schema) ∧
      schemas = before ++ ds.map Declaration.schema := by
  induction ds generalizing before with
  | nil =>
    rw [List.foldlM_nil, Outcome.pure_eq_ok]
    simp [distinct, eq_comm]
  | cons d rest ih =>
    have whole : before ++ (d :: rest).map Declaration.schema =
        before ++ [d.schema] ++ rest.map Declaration.schema := by simp
    rw [List.foldlM_cons, Outcome.bind_eq_ok, List.forall_mem_cons, whole]
    constructor
    · rintro ⟨_, first, others⟩
      obtain ⟨consistent, distinct, rfl⟩ := (add_iff distinct).mp first
      obtain ⟨all, distinct, rfl⟩ := (ih distinct).mp others
      exact ⟨⟨consistent, all⟩, distinct, rfl⟩
    · rintro ⟨⟨consistent, all⟩, apart, rfl⟩
      have here : Distinct (before ++ [d.schema]) :=
        apart.imp (fun h => h.sublist ((List.sublist_append_left _ _).map _))
          fun h => h.sublist ((List.sublist_append_left _ _).map _)
      exact ⟨_, (add_iff distinct).mpr ⟨consistent, here, rfl⟩, (ih here).mpr ⟨all, apart, rfl⟩⟩

theorem checkTarget_iff {s : Schema} {f : Field} : checkTarget schemas s f = .ok () ↔
    ∀ target, f.attr.target? = some target → target ∈ schemas.map Schema.name := by
  rw [checkTarget]
  cases f.attr.target? with
  | none => simp
  | some target => simp

/-- Only relationships have targets, so checking them checks every field. -/
theorem checkTargets_iff :
    (schemas.forM fun s => s.relations.forM (checkTarget schemas s)) = .ok ⟨⟩ ↔
    ∀ s ∈ schemas, ∀ f ∈ s.fields, ∀ target, f.attr.target? = some target →
      target ∈ schemas.map Schema.name := by
  simp only [Outcome.forM_eq_ok, Schema.relations, List.mem_filter, checkTarget_iff]
  constructor
  · intro all s hs f hf target leads
    exact all s hs f ⟨hf, Attribute.isRelation_of_target leads⟩ target leads
  · intro all s hs f hf
    exact all s hs f hf.1

theorem build_iff {id : Nat} {r : Registry} :
    build id ds = .ok r ↔ Consistent ds ∧ r = ⟨id, ds.map Declaration.schema⟩ := by
  have added (schemas : List Schema) : ds.foldlM add [] = .ok schemas ↔
      (∀ d ∈ ds, d.Consistent) ∧ Distinct (ds.map Declaration.schema) ∧
        schemas = ds.map Declaration.schema := addAll_iff ⟨.nil, .nil⟩
  have names : (ds.map Declaration.schema).map Schema.name = ds.map Declaration.name :=
    List.map_map ..
  have objectNames : (ds.map Declaration.schema).map Schema.objectName =
      ds.map fun d => d.objectName.getD d.name := List.map_map ..
  simp only [build, Outcome.bind_eq_ok, Outcome.pure_eq_ok, added]
  constructor
  · rintro ⟨_, ⟨each, distinct, rfl⟩, _, checked, rfl⟩
    have targets := checkTargets_iff.mp checked
    rw [Distinct, names, objectNames] at distinct
    rw [names, List.forall_mem_map] at targets
    exact ⟨⟨each, distinct.1, distinct.2, targets⟩, rfl⟩
  · rintro ⟨consistent, rfl⟩
    have distinct : Distinct (ds.map Declaration.schema) := by
      rw [Distinct, names, objectNames]
      exact ⟨consistent.names, consistent.objectNames⟩
    refine ⟨_, ⟨consistent.each, distinct, rfl⟩, ⟨⟩, checkTargets_iff.mpr ?_, rfl⟩
    rw [names, List.forall_mem_map]
    exact consistent.targets

theorem Built.consistent {r : Registry} (built : r.Built) :
    ∃ ds, Consistent ds ∧ r.schemas = ds.map Declaration.schema := by
  obtain ⟨id, ds, run⟩ := built
  obtain ⟨consistent, rfl⟩ := build_iff.mp run
  exact ⟨ds, consistent, rfl⟩

theorem Built.valid {r : Registry} (h : r.Built) : ∀ s ∈ r.schemas, s.Valid := by
  obtain ⟨ds, consistent, schemas⟩ := h.consistent
  rw [schemas, List.forall_mem_map]
  exact fun d mem => Declaration.consistent_iff.mp (consistent.each d mem)

end Registry

namespace Schema

variable {s : Schema} {f : Field}

theorem Valid.names_nodup (valid : s.Valid) : (s.fields.map Field.name).Nodup := by
  rw [List.Nodup, List.pairwise_map]
  exact valid.imp fun apart => apart.1

theorem find?_eq_some {name : String} (h : s.find? name = some f) :
    f ∈ s.fields ∧ f.name = name := by
  refine ⟨List.mem_of_find?_eq_some h, ?_⟩
  simpa using List.find?_some h

/-- Fields of a valid schema are told apart by their names. -/
theorem Valid.eq_of_name (valid : s.Valid) {g : Field} (hf : f ∈ s.fields) (hg : g ∈ s.fields)
    (same : f.name = g.name) : f = g :=
  List.inj_on_of_nodup_map valid.names_nodup hf hg same

theorem Valid.fields_nodup (valid : s.Valid) : s.fields.Nodup := valid.names_nodup.of_map

theorem Valid.externalNames_nodup (valid : s.Valid) :
    (s.columns.map fun f => f.attr.externalName).Nodup := by
  rw [List.Nodup, List.pairwise_map, columns, List.pairwise_filter]
  exact valid.imp fun apart he hf => apart.2 (by simpa using he) (by simpa using hf)

theorem mem_columns : f ∈ s.columns ↔ f ∈ s.fields ∧ f.attr.isRelation = false := by
  simp [columns]

/-- Scalar fields are told apart by their external names too. -/
theorem Valid.eq_of_externalName (valid : s.Valid) {g : Field} (hf : f ∈ s.columns)
    (hg : g ∈ s.columns) (same : f.attr.externalName = g.attr.externalName) : f = g :=
  List.inj_on_of_nodup_map valid.externalNames_nodup hf hg same

theorem Valid.find?_name (valid : s.Valid) (hf : f ∈ s.fields) : s.find? f.name = some f := by
  cases found : s.find? f.name with
  | none =>
    have absent := List.find?_eq_none.mp found f hf
    simp at absent
  | some g =>
    obtain ⟨hg, same⟩ := find?_eq_some found
    rw [valid.eq_of_name hg hf same]

theorem attr_eq_ok {name : String} {a : Attribute} (h : s.attr name = .ok a) :
    ⟨name, a⟩ ∈ s.fields := by
  unfold attr attr? at h
  split at h
  · next declared =>
    cases h
    obtain ⟨f, found, rfl⟩ := Option.map_eq_some_iff.mp declared
    obtain ⟨hf, rfl⟩ := find?_eq_some found
    exact hf
  · cases h

theorem find?_eq_none {name : String} :
    s.find? name = none ↔ name ∉ s.fields.map Field.name := by
  simp [find?]

/-- The only error of a lookup says that the name is not declared. -/
theorem attr_eq_error {name : String} {e : Error} :
    s.attr name = .error e ↔ name ∉ s.fields.map Field.name ∧ e = .unknownField s.name name := by
  rw [← find?_eq_none, attr, attr?]
  cases s.find? name <;> simp [eq_comm]

theorem Valid.attr_name (valid : s.Valid) (hf : f ∈ s.fields) : s.attr f.name = .ok f.attr := by
  rw [attr, attr?, valid.find?_name hf]
  rfl

end Schema

end RecordQuery
