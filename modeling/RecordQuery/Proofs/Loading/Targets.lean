import RecordQuery.Proofs.Instance.WriteBack
import RecordQuery.Proofs.Loading.ByType
import RecordQuery.Proofs.Sample

/-!
# Targets of nested records

A nested record that names its type is loaded by that type, whatever its relationship leads to. The
related instances of what was loaded are therefore on target exactly when the nested records name
the types that the relationships lead to, where they name one.
-/

namespace RecordQuery

/-- A record that names its type names the given one. -/
def Payload.Names (q : Payload) (target : Model) : Prop :=
  ∀ name, q.recordType? = some name → name = target.objectName

namespace Model

/-- The record is nested in `p` under a relationship of the model. -/
inductive Carries (m : Model) (f : Field) (p q : Payload) : Prop
  | one (mem : f ∈ m.schema.fields) (relation : f.attr.isRelation = true)
      (single : f.attr.isMany = false) (found : p.get? f.attr.externalName = some q)
      (present : q ≠ .null)
  | many {raw : Payload} {items : List Payload} (mem : f ∈ m.schema.fields)
      (relation : f.attr.isRelation = true) (many : f.attr.isMany = true)
      (found : p.get? f.attr.externalName = some raw)
      (read : raw.records m.name f.name = .ok items) (listed : q ∈ items)

variable {m : Model} {f : Field} {p q : Payload}

theorem Carries.mem (h : m.Carries f p q) : f ∈ m.schema.fields := by
  cases h <;> assumption

theorem Carries.relation (h : m.Carries f p q) : f.attr.isRelation = true := by
  cases h <;> assumption

theorem Carries.entry (h : m.Carries f p q) : ∃ raw, p.get? f.attr.externalName = some raw := by
  cases h <;> exact ⟨_, ‹_›⟩

end Model

namespace Registry

/-- The record is nested in `p` at some depth, under a relationship that leads to `target`. -/
inductive Nests (r : Registry) : Model → Payload → Model → Payload → Prop
  | here {m target : Model} {p q : Payload} {f : Field} (carried : m.Carries f p q)
      (leads : m.related f.name = .ok target) : Nests r m p target q
  | onward {m target model inner : Model} {p q record : Payload} {f : Field}
      (carried : m.Carries f p q) (leads : m.related f.name = .ok target)
      (chosen : r.modelOf target q = .ok model) (nested : Nests r model q inner record) :
      Nests r m p inner record

/-- The slot holds what was loaded from the records that are nested under the field. -/
structure Holds (r : Registry) (m : Model) (p : Payload) (f : Field) (s : Slot Instance) :
    Prop where
  carried : ∀ z ∈ s.related, ∃ q target, m.Carries f p q ∧ m.related f.name = .ok target ∧
    r.loadRelated target q = .ok z
  loaded : ∀ q target, m.Carries f p q → m.related f.name = .ok target →
    ∃ z ∈ s.related, r.loadRelated target q = .ok z

variable {r : Registry} {m target : Model} {f : Field} {p q : Payload} {x y z : Instance}
  {s : Slot Instance} {entries : Payload.Entries}

/-! ### One record -/

theorem exists_target (relation : f.attr.isRelation = true) (run : r.loadEntry m f p = .ok s) :
    ∃ target, m.related f.name = .ok target := by
  cases leads : m.related f.name with
  | error e => simp [loadEntry, relation, leads, Outcome.bind_eq_ok] at run
  | ok target => exact ⟨target, rfl⟩

theorem holds_entry (mem : f ∈ m.schema.fields) (relation : f.attr.isRelation = true)
    (found : entries.lookup f.attr.externalName = some p) (run : r.loadEntry m f p = .ok s) :
    r.Holds m (.mapping entries) f s := by
  obtain ⟨target, leads⟩ := exists_target relation run
  have entry q (same : (Payload.mapping entries).get? f.attr.externalName = some q) : q = p :=
    Option.some.inj (same.symm.trans found)
  cases arity : f.attr.isMany with
  | true =>
    obtain ⟨items, xs, read, loaded, rfl⟩ := (loadEntry_many relation arity leads).mp run
    refine ⟨fun z related => ?_, fun q target' carried leads' => ?_⟩
    · obtain ⟨q, listed, step⟩ := Outcome.mem_of_mapM loaded related
      exact ⟨q, target, .many mem relation arity found read listed, leads, step⟩
    · cases leads.symm.trans leads'
      rcases carried with ⟨_, _, single, _, _⟩ | ⟨_, _, _, found', read', listed⟩
      · rw [arity] at single
        cases single
      · obtain rfl := entry _ found'
        cases read.symm.trans read'
        exact Outcome.exists_of_mapM loaded listed
  | false =>
    by_cases null : p = .null
    · subst null
      obtain ⟨_, rfl⟩ := (loadEntry_null relation arity leads).mp run
      refine ⟨nofun, fun q _ carried _ => ?_⟩
      rcases carried with ⟨_, _, _, found', present⟩ | ⟨_, _, many, _, _, _⟩
      · exact absurd (entry _ found') present
      · rw [arity] at many
        cases many
    · obtain ⟨x, loaded, rfl⟩ := (loadEntry_one relation arity leads null).mp run
      refine ⟨fun z related => ?_, fun q target' carried leads' => ?_⟩
      · obtain rfl := List.mem_singleton.mp related
        exact ⟨p, target, .one mem relation arity found null, leads, loaded⟩
      · cases leads.symm.trans leads'
        rcases carried with ⟨_, _, _, found', _⟩ | ⟨_, _, many, _, _, _⟩
        · obtain rfl := entry _ found'
          exact ⟨x, List.mem_singleton.mpr rfl, loaded⟩
        · rw [arity] at many
          cases many

theorem holds_slot (mem : f ∈ m.schema.fields) (run : loadSlot r entries m f = .ok s) :
    r.Holds m (.mapping entries) f s := by
  rw [loadSlot_eq] at run
  split at run
  · next p found =>
    cases relation : f.attr.isRelation with
    | true => exact holds_entry mem relation found run
    | false =>
      obtain ⟨v, _, rfl⟩ := (loadEntry_scalar relation).mp run
      refine ⟨nofun, fun q _ carried _ => ?_⟩
      rw [carried.relation] at relation
      cases relation
  · next missing =>
    have unset : s = .unset := by
      split at run
      · exact (Except.ok.inj run).symm
      · cases run
    rw [unset]
    refine ⟨nofun, fun q _ carried _ => ?_⟩
    obtain ⟨raw, found⟩ := carried.entry
    cases missing.symm.trans found

theorem model_of_loadAs (run : r.loadAs p m = .ok x) : x.model = m := by
  obtain ⟨_, _, _, _, rfl⟩ := loadAs_eq_ok.mp run
  rfl

/-- Every slot of a loaded instance holds what was loaded for its field. -/
theorem holds_cell (run : r.loadAs p m = .ok x) (cell : (f, s) ∈ x.cells) : r.Holds m p f s := by
  obtain ⟨entries, slots, rfl, walked, rfl⟩ := loadAs_eq_ok.mp run
  have step : loadSlot r entries m f = .ok s :=
    (List.forall₂_iff_zip.mp (Outcome.mapM_eq_ok.mp walked)).2 cell
  exact holds_slot (Instance.mem_fields_of_mem_cells cell) step

theorem exists_cell (run : r.loadAs p m = .ok x) (mem : f ∈ m.schema.fields) :
    ∃ s, (f, s) ∈ x.cells := by
  obtain ⟨entries, slots, rfl, walked, rfl⟩ := loadAs_eq_ok.mp run
  have width : slots.length = m.schema.fields.length :=
    (Outcome.mapM_eq_ok.mp walked).length_eq.symm
  have fields := Instance.map_fst_cells (x := ⟨m, slots, m.schema.fields.map fun _ => false⟩) width
  rw [← fields] at mem
  obtain ⟨⟨_, s⟩, cell, rfl⟩ := List.mem_map.mp mem
  exact ⟨s, cell⟩

/-! ### The type of a nested record -/

theorem objectName_of_byObjectName {name : String} (h : r.byObjectName name = .ok m) :
    m.objectName = name := by
  unfold byObjectName at h
  split at h
  · next found =>
    cases h
    exact beq_iff_eq.mp (findModel?_eq_some found).2
  · cases h

/-- A nested record is loaded by the target exactly when it does not name another type. -/
theorem modelOf_target (built : r.Built) (own : target.registry = r)
    (chosen : r.modelOf target q = .ok m) : m = target ↔ q.Names target := by
  subst own
  rw [Payload.Names]
  rw [modelOf] at chosen
  cases named : q.recordType? with
  | none =>
    rw [named] at chosen
    exact ⟨fun _ => nofun, fun _ => (Except.ok.inj chosen).symm⟩
  | some name =>
    rw [named] at chosen
    constructor
    · rintro rfl _ ⟨⟩
      exact (objectName_of_byObjectName chosen).symm
    · intro same
      obtain rfl := same name rfl
      exact Except.ok.inj (chosen.symm.trans built.byObjectName_objectName)

theorem loadRelated_target (built : r.Built) (own : m.registry = r)
    (leads : m.related f.name = .ok target) (run : r.loadRelated target q = .ok z) :
    m.related f.name = .ok z.model ↔ q.Names target := by
  obtain ⟨model, chosen, loaded⟩ := Outcome.bind_eq_ok.mp run
  obtain ⟨_, _, _, kept⟩ := Model.related_eq_ok leads
  rw [← modelOf_target built (kept.trans own) chosen, leads, model_of_loadAs loaded]
  exact ⟨fun same => (Except.ok.inj same).symm, fun same => congrArg _ same.symm⟩

/-! ### Records at any depth -/

/-- Whatever is inside a loaded instance was loaded from a payload of its own. -/
theorem within_loadAs (own : m.registry = r) (run : r.loadAs p m = .ok x) (inside : y.Within x) :
    y.model.registry = r ∧ ∃ q, r.loadAs q y.model = .ok y ∧
      ∀ target record, r.Nests y.model q target record → r.Nests m p target record := by
  induction inside generalizing p m with
  | refl =>
    obtain rfl := model_of_loadAs run
    exact ⟨own, p, run, fun _ _ nested => nested⟩
  | related cell mem _ ih =>
    obtain ⟨q, target, carried, leads, loaded⟩ := (holds_cell run cell).carried _ mem
    obtain ⟨model, chosen, loaded⟩ := Outcome.bind_eq_ok.mp loaded
    obtain ⟨_, _, _, kept⟩ := Model.related_eq_ok leads
    obtain ⟨registry, inner, step, nests⟩ :=
      ih (modelOf_registry (kept.trans own) chosen) loaded
    refine ⟨registry, inner, step, fun t record nested => ?_⟩
    exact .onward carried leads chosen (nests t record nested)

theorem onTarget_of_names (built : r.Built) (own : m.registry = r) (run : r.loadAs p m = .ok x)
    (names : ∀ target q, r.Nests m p target q → q.Names target) : x.OnTarget := by
  intro f s cell z mem
  obtain ⟨q, target, carried, leads, loaded⟩ := (holds_cell run cell).carried z mem
  rw [model_of_loadAs run, loadRelated_target built own leads loaded]
  exact names target q (.here carried leads)

theorem names_of_onTarget (built : r.Built) {record : Payload} (nested : r.Nests m p target record)
    (own : m.registry = r) (run : r.loadAs p m = .ok x)
    (onTarget : ∀ y : Instance, y.Within x → y.OnTarget) : record.Names target := by
  induction nested generalizing x with
  | here carried leads =>
    -- The load went through, so the record has become an instance with a model to look at.
    obtain ⟨s, cell⟩ := exists_cell run carried.mem
    obtain ⟨z, mem, loaded⟩ := (holds_cell run cell).loaded _ _ carried leads
    rw [← loadRelated_target built own leads loaded, ← model_of_loadAs run]
    exact onTarget x .refl _ s cell z mem
  | onward carried leads chosen _ ih =>
    obtain ⟨s, cell⟩ := exists_cell run carried.mem
    obtain ⟨z, mem, loaded⟩ := (holds_cell run cell).loaded _ _ carried leads
    obtain ⟨model, chosen', loaded⟩ := Outcome.bind_eq_ok.mp loaded
    cases chosen.symm.trans chosen'
    obtain ⟨_, _, _, kept⟩ := Model.related_eq_ok leads
    refine ih (modelOf_registry (kept.trans own) chosen) loaded fun y inside => ?_
    exact onTarget y (.related cell mem inside)

/-- What a record loads to holds related instances of the right models, at every depth, exactly when
no nested record names another type than its relationship leads to. Only then can all of them be
assigned again where they were read. -/
theorem loadRecord_onTarget (built : r.Built) (run : r.loadRecord p = .ok x) :
    ((∀ y : Instance, y.Within x → y.OnTarget) ↔
      ∀ target q, r.Nests x.model p target q → q.Names target) ∧
    ∀ y : Instance, y.Within x → (y.OnTarget ↔ y.WritesBack) := by
  have formed := loadRecord_formed built run
  obtain ⟨name, m, _, found, loaded⟩ := loadRecord_eq_ok.mp run
  obtain rfl := model_of_loadAs loaded
  have own := registry_of_byObjectName found
  refine ⟨⟨fun onTarget target q nested => ?_, fun names y inside => ?_⟩, fun y inside => ?_⟩
  · exact names_of_onTarget built nested own loaded onTarget
  · obtain ⟨registry, q, step, nests⟩ := within_loadAs own loaded inside
    exact onTarget_of_names built registry step fun t record nested =>
      names t record (nests t record nested)
  · exact (formed.within inside).here.onTarget_iff

end Registry

/-! ### At the sample -/

namespace Sample

/-- A record with the fields of accounts and of users that names its type. -/
def recordNaming (type : String) : Payload :=
  .mapping [("Id", .string "u1"), ("Since", .string "2024-03-01"), ("Size", .null),
    ("attributes", .mapping [("type", .string type)])]

/-- An account with one record among its users. -/
def accountHolding (record : Payload) : Payload :=
  .mapping [("Id", .string "a1"), ("Size", .null), ("Users", .list [record]),
    ("attributes", .mapping [("type", .string "Account")])]

def readAccountHolding (related : Instance) : Instance :=
  ⟨account, [.value (.string "a1"), .value .null, .unset, .many [related]],
    [false, false, false, false]⟩

def userRead : Instance :=
  ⟨user, [.value (.string "u1"), .value (.date ⟨2024, 3, 1, by decide⟩), .unset],
    [false, false, false]⟩

def accountRead : Instance :=
  ⟨account, [.value (.string "u1"), .value .null, .unset, .unset], [false, false, false, false]⟩

theorem carried_accountHolding {f : Field} {record q : Payload}
    (carried : account.Carries f (accountHolding record) q) :
    f = ⟨"users", ⟨"Users", false, .relation "User" true⟩⟩ ∧ q = record := by
  have mem : f ∈ accountFields := carried.mem
  simp only [accountFields, List.mem_cons, List.not_mem_nil, or_false] at mem
  obtain ⟨_, entry⟩ := carried.entry
  rcases mem with rfl | rfl | rfl | rfl
  · cases carried.relation
  · cases carried.relation
  · cases entry
  · rcases carried with ⟨_, _, single, _, _⟩ | ⟨_, _, _, found, read, listed⟩
    · cases single
    · cases found
      cases read
      exact ⟨rfl, List.mem_singleton.mp listed⟩

theorem not_carried_recordNaming {f : Field} {q : Payload} (type : String) :
    ¬ user.Carries f (recordNaming type) q := by
  intro carried
  have mem : f ∈ userFields := carried.mem
  simp only [userFields, List.mem_cons, List.not_mem_nil, or_false] at mem
  obtain ⟨_, entry⟩ := carried.entry
  rcases mem with rfl | rfl | rfl
  · cases carried.relation
  · cases carried.relation
  · cases entry

theorem accountHolding_names {target : Model} {q : Payload}
    (nested : registry.Nests account (accountHolding (recordNaming "User")) target q) :
    q.Names target := by
  rcases nested with ⟨carried, leads⟩ | ⟨carried, leads, chosen, nested⟩
  · obtain ⟨rfl, rfl⟩ := carried_accountHolding carried
    cases leads
    rintro _ ⟨⟩
    rfl
  · obtain ⟨rfl, rfl⟩ := carried_accountHolding carried
    cases chosen
    rcases nested with ⟨carried, _⟩ | ⟨carried, _, _, _⟩
    · exact absurd carried (not_carried_recordNaming _)
    · exact absurd carried (not_carried_recordNaming _)

theorem accountHolding_writesBack : registry.Built ∧
    registry.loadRecord (accountHolding (recordNaming "User")) =
      .ok (readAccountHolding userRead) ∧
    ∀ y : Instance, y.Within (readAccountHolding userRead) → y.WritesBack := by
  have loaded : registry.loadRecord (accountHolding (recordNaming "User")) =
      .ok (readAccountHolding userRead) := rfl
  obtain ⟨onTarget, writesBack⟩ := Registry.loadRecord_onTarget registry_built loaded
  refine ⟨registry_built, loaded, fun y inside => (writesBack y inside).mp ?_⟩
  exact onTarget.mpr (fun _ _ nested => accountHolding_names nested) y inside

/-- An account among the users of an account is loaded, but cannot be assigned there again. -/
theorem accountRead_offTarget : registry.Built ∧
    registry.loadRecord (accountHolding (recordNaming "Account")) =
      .ok (readAccountHolding accountRead) ∧
    (readAccountHolding accountRead).many "users" = .ok [accountRead] ∧
    (readAccountHolding accountRead).setMany "users" [accountRead] =
      .error (.invalidJoin "Account" "users" .foreignInstance) :=
  ⟨registry_built, rfl, rfl, rfl⟩

end Sample

end RecordQuery
