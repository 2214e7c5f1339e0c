import RecordQuery.Proofs.Schema.Built

/-!
# Inherited fields

A model may take on the fields of a base before, between or after the declarations of its own
fields. What the base brings is laid under what is there: a field has the place that the base gives
it and the definition that the model gives it, if it does. Where in the chain of calls the base is
taken on makes no difference.
-/

namespace RecordQuery

/-- What stands in the place of a field once another definition of its name was given. -/
def Field.redefinedBy (g f : Field) : Field := if g.name = f.name then f else g

@[simp] theorem Field.redefinedBy_name (g f : Field) : (g.redefinedBy f).name = g.name := by
  unfold redefinedBy
  split
  · next same => exact same.symm
  · rfl

namespace Declaration

variable {d e base : Declaration} {f : Field} {xs own given declared : List Field} {name : String}

/-! ### Redefining a field -/

/-- A new definition goes to the first field of its name. -/
theorem redefine?_eq_some {ys : List Field} (step : redefine? f xs = some ys) :
    ∃ before g after, xs = before ++ g :: after ∧ g.name = f.name ∧ ys = before ++ f :: after := by
  induction xs generalizing ys with
  | nil => cases step
  | cons g rest ih =>
    rw [redefine?] at step
    split at step
    · next same =>
      cases step
      exact ⟨[], g, rest, rfl, same, rfl⟩
    · obtain ⟨zs, found, rfl⟩ := Option.map_eq_some_iff.mp step
      obtain ⟨before, h, after, rfl, same, rfl⟩ := ih found
      exact ⟨g :: before, h, after, rfl, same, rfl⟩

theorem redefine?_eq_none : redefine? f xs = none ↔ f.name ∉ xs.map Field.name := by
  induction xs with
  | nil => simp [redefine?]
  | cons g rest ih =>
    rw [redefine?]
    by_cases same : g.name = f.name
    · simp [same]
    · rw [if_neg same, Option.map_eq_none_iff, ih, List.map_cons, List.mem_cons, not_or,
        and_iff_right (Ne.symm same)]

theorem redefinedBy_absent (absent : f.name ∉ xs.map Field.name) :
    xs.map (·.redefinedBy f) = xs := by
  refine (List.map_congr_left fun g mem => ?_).trans (List.map_id _)
  refine if_neg fun same => absent ?_
  exact same ▸ List.mem_map_of_mem mem

theorem redefine?_present (distinct : (xs.map Field.name).Nodup)
    (mem : f.name ∈ xs.map Field.name) : redefine? f xs = some (xs.map (·.redefinedBy f)) := by
  cases found : redefine? f xs with
  | none => exact absurd mem (redefine?_eq_none.mp found)
  | some ys =>
    obtain ⟨before, g, after, rfl, same, rfl⟩ := redefine?_eq_some found
    rw [List.map_append, List.map_cons, same] at distinct
    obtain ⟨_, later, apart⟩ := List.nodup_append.mp distinct
    have earlier : f.name ∉ before.map Field.name := fun h => apart _ h _ List.mem_cons_self rfl
    rw [List.map_append, List.map_cons, redefinedBy_absent earlier,
      redefinedBy_absent (List.nodup_cons.mp later).1, Field.redefinedBy, if_pos same]

/-- A field that the base has is redefined in place. -/
theorem declare_present (distinct : (d.inherited.map Field.name).Nodup)
    (mem : f.name ∈ d.inherited.map Field.name) :
    d.declare f = { d with inherited := d.inherited.map (·.redefinedBy f) } := by
  rw [declare, redefine?_present distinct mem]

/-- Any other field is added. -/
theorem declare_absent (absent : f.name ∉ d.inherited.map Field.name) :
    d.declare f = { d with own := d.own ++ [f] } := by
  rw [declare, redefine?_eq_none.mpr absent]

/-! ### Laying a base under declared fields -/

/-- The declared definition of a field, where there is one. -/
def preferring (declared : List Field) (f : Field) : Field :=
  (declared.find? (·.name == f.name)).getD f

theorem preferring_name (declared : List Field) (f : Field) :
    (preferring declared f).name = f.name := by
  unfold preferring
  cases found : declared.find? (·.name == f.name) with
  | none => rfl
  | some g => simpa using List.find?_some found

theorem preferring_names (given declared : List Field) :
    (given.map (preferring declared)).map Field.name = given.map Field.name := by
  rw [List.map_map]
  exact List.map_congr_left fun f _ => preferring_name declared f

theorem takeOut?_eq (name : String) (xs : List Field) : takeOut? name xs =
    (xs.find? (·.name == name)).map fun f => (f, xs.eraseP (·.name == name)) := by
  induction xs with
  | nil => rfl
  | cons f rest ih =>
    rw [takeOut?, List.find?_cons, List.eraseP_cons]
    by_cases same : f.name = name
    · simp [same]
    · have differs : (f.name == name) = false := beq_false_of_ne same
      rw [if_neg same, ih, differs, Option.map_map]
      rfl

theorem overlay_cons (f : Field) (given declared : List Field) :
    overlay (f :: given) declared =
      (preferring declared f :: (overlay given (declared.eraseP (·.name == f.name))).1,
        (overlay given (declared.eraseP (·.name == f.name))).2) := by
  rw [overlay, takeOut?_eq, preferring]
  cases found : declared.find? (·.name == f.name) with
  | none =>
    have kept : declared.eraseP (·.name == f.name) = declared :=
      List.eraseP_of_forall_not (List.find?_eq_none.mp found)
    rw [kept]
    rfl
  | some g => rfl

/-- A field of another name may be taken out first. -/
theorem find?_eraseP_of_ne {other : String} (differs : other ≠ name) (xs : List Field) :
    (xs.eraseP (·.name == name)).find? (·.name == other) = xs.find? (·.name == other) := by
  induction xs with
  | nil => rfl
  | cons g rest ih =>
    rw [List.eraseP_cons]
    by_cases same : g.name = name
    · have passed : (g.name == other) = false := beq_false_of_ne fun h => differs (h ▸ same)
      rw [beq_iff_eq.mpr same, cond_true, List.find?_cons, passed]
    · rw [beq_false_of_ne same, cond_false, List.find?_cons, List.find?_cons, ih]

/-- Every field of a base gets the definition that was declared for it, if one was. -/
theorem overlay_merged (distinct : (given.map Field.name).Nodup) :
    (overlay given declared).1 = given.map (preferring declared) := by
  induction given generalizing declared with
  | nil => rfl
  | cons f rest ih =>
    obtain ⟨first, others⟩ := List.nodup_cons.mp distinct
    rw [overlay_cons, List.map_cons, ih others]
    refine congrArg (preferring declared f :: ·) (List.map_congr_left fun g mem => ?_)
    have differs : g.name ≠ f.name := fun same => first (same ▸ List.mem_map_of_mem mem)
    rw [preferring, find?_eraseP_of_ne differs, preferring]

theorem eraseP_eq_filter (distinct : (xs.map Field.name).Nodup) :
    xs.eraseP (·.name == name) = xs.filter (·.name != name) := by
  induction xs with
  | nil => rfl
  | cons g rest ih =>
    obtain ⟨first, others⟩ := List.nodup_cons.mp distinct
    rw [List.eraseP_cons, List.filter_cons]
    by_cases same : g.name = name
    · have kept : rest.filter (·.name != name) = rest := by
        refine List.filter_eq_self.mpr fun h mem => bne_iff_ne.mpr fun named => first ?_
        rw [same, ← named]
        exact List.mem_map_of_mem mem
      rw [beq_iff_eq.mpr same, cond_true, if_neg (by simp [same]), kept]
    · rw [beq_false_of_ne same, cond_false, if_pos (bne_iff_ne.mpr same), ih others]

/-- What the base does not have is left, in the order in which it was declared. -/
theorem overlay_left (distinct : (declared.map Field.name).Nodup) :
    (overlay given declared).2 = declared.filter fun g => g.name ∉ given.map Field.name := by
  induction given generalizing declared with
  | nil => simp [overlay]
  | cons f rest ih =>
    have still : ((declared.eraseP (·.name == f.name)).map Field.name).Nodup :=
      distinct.sublist (List.eraseP_sublist.map _)
    rw [overlay_cons, ih still, eraseP_eq_filter distinct, List.filter_filter]
    refine List.filter_congr fun g _ => ?_
    by_cases same : g.name = f.name <;> simp [same]

/-! ### Chains of calls -/

/-- A call while a model is declared. -/
inductive Call where
  | withObjectName (objectName : String)
  | declare (field : Field)
  | inherit (base : Declaration)

namespace Call

def apply (d : Declaration) : Call → Declaration
  | withObjectName objectName => d.withObjectName objectName
  | declare field => d.declare field
  | inherit base => d.inherit base

/-- The field that a call declares for the model itself. -/
def field? : Call → Option Field
  | declare field => some field
  | _ => none

/-- The base that a call takes on. -/
def base? : Call → Option Declaration
  | inherit base => some base
  | _ => none

end Call

variable {calls before after : List Call}

def run (d : Declaration) (calls : List Call) : Declaration := calls.foldl Call.apply d

/-- The fields that calls declare for the model itself, in order. -/
def ownFields (calls : List Call) : List Field := calls.filterMap Call.field?

/-- The bases that calls take on, in order. -/
def bases (calls : List Call) : List Declaration := calls.filterMap Call.base?

theorem run_append (d : Declaration) (before after : List Call) :
    d.run (before ++ after) = (d.run before).run after := List.foldl_append

theorem run_snoc (d : Declaration) (calls : List Call) (c : Call) :
    d.run (calls ++ [c]) = c.apply (d.run calls) := List.foldl_concat ..

theorem ownFields_append (before after : List Call) :
    ownFields (before ++ after) = ownFields before ++ ownFields after := List.filterMap_append

theorem bases_append (before after : List Call) :
    bases (before ++ after) = bases before ++ bases after := List.filterMap_append

/-! ### Names of the declaration itself -/

/-- Two declarations of one model under one object name. -/
structure SameHeading (d e : Declaration) : Prop where
  name : d.name = e.name
  objectName : d.objectName = e.objectName

theorem declare_heading (d : Declaration) (f : Field) : SameHeading (d.declare f) d := by
  rw [declare]
  split <;> exact ⟨rfl, rfl⟩

theorem inherit_heading (d base : Declaration) : SameHeading (d.inherit base) d := ⟨rfl, rfl⟩

theorem SameHeading.run (h : SameHeading d e) (calls : List Call) :
    SameHeading (d.run calls) (e.run calls) := by
  induction calls generalizing d e with
  | nil => exact h
  | cons c rest ih =>
    cases c with
    | withObjectName objectName => exact ih ⟨h.name, rfl⟩
    | declare f =>
      have left := declare_heading d f
      have right := declare_heading e f
      refine ih ⟨?_, ?_⟩
      · exact left.name.trans (h.name.trans right.name.symm)
      · exact left.objectName.trans (h.objectName.trans right.objectName.symm)
    | inherit base => exact ih ⟨h.name, h.objectName⟩

theorem SameHeading.build (h : SameHeading d e) (fields : d.fields = e.fields) :
    d.build = e.build := by
  rw [Declaration.build, Declaration.build, h.name, h.objectName, fields]

/-! ### One base among own fields -/

/-- The fields of a base, each with its own definition where there is one, and then the other own
fields. -/
def combined (given own : List Field) : List Field :=
  given.map (preferring own) ++ own.filter fun g => g.name ∉ given.map Field.name

/-- A declaration has taken on the given fields and has the own fields besides. -/
structure Combines (d : Declaration) (given own : List Field) : Prop where
  inherited : d.inherited = given.map (preferring own)
  own : d.own = own.filter fun g => g.name ∉ given.map Field.name

theorem Combines.fields (h : Combines d given own) : d.fields = combined given own := by
  rw [Declaration.fields, h.inherited, h.own, combined]

/-- Before there is a base all fields are own ones. -/
theorem run_fields (bare : d.inherited = []) (none : bases calls = []) :
    (d.run calls).fields = d.fields ++ ownFields calls := by
  induction calls generalizing d with
  | nil => exact (List.append_nil _).symm
  | cons c rest ih =>
    cases c with
    | withObjectName objectName => exact ih (d := d.withObjectName objectName) bare none
    | declare f =>
      have absent : f.name ∉ d.inherited.map Field.name := by simp [bare]
      have added : d.declare f = { d with own := d.own ++ [f] } := declare_absent absent
      have later := ih (d := d.declare f) (added ▸ bare) none
      rw [run, List.foldl_cons, Call.apply, ← run, later, added]
      simp [Declaration.fields, ownFields, Call.field?]
    | inherit base => cases none

theorem inherit_combines (distinct : (base.fields.map Field.name).Nodup)
    (ownDistinct : (d.fields.map Field.name).Nodup) :
    Combines (d.inherit base) base.fields d.fields where
  inherited := overlay_merged distinct
  own := overlay_left ownDistinct

/-- A new definition of a name goes before the base's and changes nothing else. -/
theorem preferring_append (fresh : f.name ∉ own.map Field.name) (g : Field) :
    preferring (own ++ [f]) g = (preferring own g).redefinedBy f := by
  rw [Field.redefinedBy, preferring_name, preferring, List.find?_append]
  by_cases same : g.name = f.name
  · have unseen : own.find? (·.name == g.name) = none := by
      refine List.find?_eq_none.mpr fun h mem named => fresh ?_
      rw [← same, ← beq_iff_eq.mp named]
      exact List.mem_map_of_mem mem
    simp [same ▸ unseen, same]
  · have other : [f].find? (·.name == g.name) = none := by simp [Ne.symm same]
    rw [if_neg same, other, Option.or_none, preferring]

theorem Combines.declare (h : Combines d given own) (distinct : (given.map Field.name).Nodup)
    (fresh : f.name ∉ own.map Field.name) : Combines (d.declare f) given (own ++ [f]) := by
  have names : d.inherited.map Field.name = given.map Field.name := by
    rw [h.inherited, preferring_names]
  by_cases mem : f.name ∈ given.map Field.name
  · rw [declare_present (names ▸ distinct) (names ▸ mem)]
    refine ⟨?_, ?_⟩
    · rw [h.inherited, List.map_map]
      exact List.map_congr_left fun g _ => (preferring_append fresh g).symm
    · rw [h.own, List.filter_append, List.filter_cons_of_neg (by simpa using mem),
        List.filter_nil, List.append_nil]
  · rw [declare_absent (names ▸ mem)]
    refine ⟨?_, ?_⟩
    · refine h.inherited.trans (List.map_congr_left fun g hg => ?_)
      have differs : g.name ≠ f.name := fun same => mem (same ▸ List.mem_map_of_mem hg)
      rw [preferring_append fresh, Field.redefinedBy, preferring_name, if_neg differs]
    · rw [h.own, List.filter_append, List.filter_cons_of_pos (by simpa using mem), List.filter_nil]

/-- Own fields that are declared after the base go where they belong one by one. -/
theorem Combines.run (h : Combines d given own) (distinct : (given.map Field.name).Nodup)
    (fresh : ((own ++ ownFields calls).map Field.name).Nodup) (none : bases calls = []) :
    Combines (d.run calls) given (own ++ ownFields calls) := by
  induction calls generalizing d own with
  | nil => exact (List.append_nil own).symm ▸ h
  | cons c rest ih =>
    cases c with
    | withObjectName objectName =>
      exact ih (d := d.withObjectName objectName) ⟨h.inherited, h.own⟩ fresh none
    | declare f =>
      have order : own ++ ownFields (.declare f :: rest) = own ++ [f] ++ ownFields rest := by
        simp [ownFields, Call.field?]
      rw [order] at fresh ⊢
      have first : f.name ∉ own.map Field.name := by
        have earlier := fresh
        rw [List.map_append, List.map_append] at earlier
        have apart := (List.nodup_append.mp (List.nodup_append.mp earlier).1).2.2
        exact fun mem => apart _ mem _ List.mem_cons_self rfl
      exact ih (h.declare distinct first) fresh none
    | inherit base => cases none

/-- Wherever a base is taken on among the calls that declare a model, the model gets the same
fields: those of the base in the order of the base, with its own definitions in their places, and
after them its other own fields in the order in which they were declared. What comes of building it
is the same as if the base had been taken on first. -/
theorem inherit_anywhere {name : String} {base : Declaration} {calls before after : List Call}
    (distinct : (base.fields.map Field.name).Nodup)
    (ownDistinct : ((ownFields calls).map Field.name).Nodup) (none : bases calls = [])
    (place : calls = before ++ after) :
    ((new name).run (before ++ .inherit base :: after)).fields =
        combined base.fields (ownFields calls) ∧
      ((new name).run (before ++ .inherit base :: after)).build =
        ((new name).run (.inherit base :: calls)).build := by
  subst place
  have parts : ownFields (before ++ after) = ownFields before ++ ownFields after :=
    List.filterMap_append
  have bare : bases before = [] ∧ bases after = [] := by
    rw [bases, List.filterMap_append] at none
    exact List.append_eq_nil_iff.mp none
  have earlier : ((ownFields before).map Field.name).Nodup := by
    rw [parts, List.map_append] at ownDistinct
    exact (List.nodup_append.mp ownDistinct).1
  -- The fields at the place of the call, and at the front.
  have there : Combines (((new name).run before).inherit base) base.fields (ownFields before) := by
    have fields : ((new name).run before).fields = ownFields before := run_fields rfl bare.1
    have met := inherit_combines (d := (new name).run before) distinct (fields ▸ earlier)
    rwa [fields] at met
  have front : Combines ((new name).inherit base) base.fields [] := inherit_combines distinct .nil
  have combines := there.run distinct (parts ▸ ownDistinct) bare.2
  have first := front.run distinct ownDistinct none
  rw [← parts] at combines
  rw [run_append]
  refine ⟨combines.fields, SameHeading.build ?_ (combines.fields.trans first.fields.symm)⟩
  have left := (inherit_heading ((new name).run before) base).run after
  have right := (inherit_heading (new name) base).run (before ++ after)
  rw [run_append (new name)] at right
  exact ⟨left.name.trans right.name.symm, left.objectName.trans right.objectName.symm⟩

end Declaration

namespace Sample

open Declaration

def createdField : Field := ⟨"created", ⟨"CreatedDate", false, .scalar .datetime⟩⟩

def audited : Declaration :=
  ⟨"Audited", none, [], [⟨"id", ⟨"Id", false, .scalar .string⟩⟩, createdField]⟩

def leadId : Field := ⟨"id", ⟨"LeadId", false, .scalar .string⟩⟩

def leadName : Field := ⟨"name", ⟨"Name", true, .scalar .string⟩⟩

def leadCalls : List Call := [.declare leadName, .withObjectName "Lead__c", .declare leadId]

/-- The base comes between the two own fields, the second of which it has too. -/
theorem audited_anywhere :
    (audited.fields.map Field.name).Nodup ∧ ((ownFields leadCalls).map Field.name).Nodup ∧
    bases leadCalls = [] ∧
    ((new "Lead").run ([.declare leadName] ++ .inherit audited ::
      [.withObjectName "Lead__c", .declare leadId])).fields =
        combined audited.fields (ownFields leadCalls) ∧
    ((new "Lead").run ([.declare leadName] ++ .inherit audited ::
      [.withObjectName "Lead__c", .declare leadId])).build =
        ((new "Lead").run (.inherit audited :: leadCalls)).build ∧
    combined audited.fields (ownFields leadCalls) = [leadId, createdField, leadName] := by
  have distinct : (audited.fields.map Field.name).Nodup := by decide
  have ownDistinct : ((ownFields leadCalls).map Field.name).Nodup := by decide
  have place : leadCalls = [.declare leadName] ++
    [.withObjectName "Lead__c", .declare leadId] := rfl
  obtain ⟨fields, build⟩ := inherit_anywhere distinct ownDistinct rfl place
  exact ⟨distinct, ownDistinct, rfl, fields, build, rfl⟩

end Sample

end RecordQuery
