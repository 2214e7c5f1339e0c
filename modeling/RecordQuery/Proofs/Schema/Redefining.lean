import Mathlib.Data.List.Count
import RecordQuery.Proofs.Schema.Inheriting

/-!
# Redefined fields

A field that was taken on from a base may be declared by the model as well. Its definition is
replaced in place if the field came with the base that was taken on last. A field of an earlier base
is no longer known as inherited, so it is added once more, and the model cannot be registered.
-/

namespace RecordQuery

namespace Declaration

variable {d base : Declaration} {f : Field} {xs ys earlier : List Field} {calls : List Call}
  {name schema other : String}

/-- How often a name is declared. -/
def occurrences (d : Declaration) (name : String) : Nat := (d.fields.map Field.name).count name

/-! ### One call -/

theorem redefine?_names (step : redefine? f xs = some ys) :
    ys.map Field.name = xs.map Field.name := by
  obtain ⟨before, g, after, rfl, same, rfl⟩ := redefine?_eq_some step
  rw [List.map_append, List.map_append, List.map_cons, List.map_cons, same]

/-- A declared field is redefined or added: no other name is touched. -/
theorem declare_names (d : Declaration) (f : Field) :
    (d.declare f).inherited.map Field.name = d.inherited.map Field.name ∧
      ((d.declare f).own = d.own ∨ (d.declare f).own = d.own ++ [f]) := by
  rw [declare]
  split
  · next found => exact ⟨redefine?_names found, .inl rfl⟩
  · exact ⟨rfl, .inr rfl⟩

theorem occurrences_eq (d : Declaration) (name : String) : d.occurrences name =
    (d.inherited.map Field.name).count name + (d.own.map Field.name).count name := by
  rw [occurrences, fields, List.map_append, List.count_append]

theorem occurrences_declare (d : Declaration) (f : Field) (name : String) :
    d.occurrences name ≤ (d.declare f).occurrences name := by
  obtain ⟨names, own⟩ := declare_names d f
  rw [occurrences_eq, occurrences_eq, names]
  rcases own with own | own
  · exact Nat.le_of_eq (by rw [own])
  · rw [own, List.map_append, List.count_append]
    omega

theorem occurrences_declare_other (differs : f.name ≠ name) :
    (d.declare f).occurrences name = d.occurrences name := by
  obtain ⟨names, own⟩ := declare_names d f
  rw [occurrences_eq, occurrences_eq, names]
  rcases own with own | own
  · rw [own]
  · have unseen : ([f].map Field.name).count name = 0 := by simp [differs]
    rw [own, List.map_append, List.count_append, unseen, Nat.add_zero]

theorem overlay_merged_names (given declared : List Field) :
    (overlay given declared).1.map Field.name = given.map Field.name := by
  induction given generalizing declared with
  | nil => rfl
  | cons f rest ih => rw [overlay_cons, List.map_cons, List.map_cons, preferring_name, ih]

/-- A base takes each of its names away from what was declared, once for each time it has it. -/
theorem overlay_left_names (given declared : List Field) :
    (overlay given declared).2.map Field.name =
      (declared.map Field.name).diff (given.map Field.name) := by
  induction given generalizing declared with
  | nil => rfl
  | cons f rest ih =>
    rw [overlay_cons, ih, List.map_cons, List.diff_cons, List.erase_eq_eraseP', List.eraseP_map]
    rfl

/-- Taking on a base does not declare anything twice that was declared once. -/
theorem occurrences_inherit (d base : Declaration) (name : String) :
    (d.inherit base).occurrences name = max (d.occurrences name) (base.occurrences name) := by
  have merged : (d.inherit base).inherited.map Field.name = base.fields.map Field.name :=
    overlay_merged_names base.fields d.fields
  have left : (d.inherit base).own.map Field.name =
      (d.fields.map Field.name).diff (base.fields.map Field.name) :=
    overlay_left_names base.fields d.fields
  rw [occurrences_eq, merged, left, List.count_diff, occurrences, occurrences]
  omega

/-! ### Chains of calls -/

theorem occurrences_le_run (d : Declaration) (calls : List Call) (name : String) :
    d.occurrences name ≤ (d.run calls).occurrences name := by
  induction calls generalizing d with
  | nil => exact Nat.le_refl _
  | cons c rest ih =>
    refine Nat.le_trans ?_ (ih (c.apply d))
    cases c with
    | withObjectName objectName => exact Nat.le_refl _
    | declare f => exact occurrences_declare d f name
    | inherit base =>
      rw [Call.apply, occurrences_inherit]
      exact Nat.le_max_left ..

/-- What a base declares stays declared. -/
theorem occurrences_base_le_run (mem : base ∈ bases calls) (d : Declaration) (name : String) :
    base.occurrences name ≤ (d.run calls).occurrences name := by
  induction calls generalizing d with
  | nil => cases mem
  | cons c rest ih =>
    cases c with
    | withObjectName objectName => exact ih mem _
    | declare f => exact ih mem _
    | inherit first =>
      rcases List.mem_cons.mp mem with rfl | mem
      · refine Nat.le_trans ?_ (occurrences_le_run (d.inherit base) rest name)
        rw [occurrences_inherit]
        exact Nat.le_max_right ..
      · exact ih mem _

/-- A name that the model does not declare itself is declared once at most. -/
theorem occurrences_run_le_one (start : d.occurrences name ≤ 1)
    (distinct : ∀ b ∈ bases calls, (b.fields.map Field.name).Nodup)
    (undeclared : name ∉ (ownFields calls).map Field.name) :
    (d.run calls).occurrences name ≤ 1 := by
  induction calls generalizing d with
  | nil => exact start
  | cons c rest ih =>
    cases c with
    | withObjectName objectName => exact ih start distinct undeclared
    | declare f =>
      have named : f.name ≠ name ∧ name ∉ (ownFields rest).map Field.name := by
        simpa [ownFields, Call.field?, eq_comm] using undeclared
      exact ih (Nat.le_trans (Nat.le_of_eq (occurrences_declare_other named.1)) start) distinct named.2
    | inherit base =>
      obtain ⟨first, others⟩ := List.forall_mem_cons.mp distinct
      refine ih ?_ others undeclared
      rw [Call.apply, occurrences_inherit]
      exact Nat.max_le.mpr ⟨start, List.nodup_iff_count_le_one.mp first name⟩

/-- The base that was taken on last. -/
def lastBase? (calls : List Call) : Option Declaration := (bases calls).getLast?

/-- What counts as inherited is what the last base has. -/
theorem run_inherited (d : Declaration) (calls : List Call) :
    (d.run calls).inherited.map Field.name =
      ((lastBase? calls).map fun b => b.fields.map Field.name).getD
        (d.inherited.map Field.name) := by
  induction calls generalizing d with
  | nil => rfl
  | cons c rest ih =>
    rw [run, List.foldl_cons, ← run, ih]
    cases c with
    | withObjectName objectName => rfl
    | declare f => exact congrArg _ (declare_names d f).1
    | inherit base =>
      have last : lastBase? (.inherit base :: rest) = some ((lastBase? rest).getD base) :=
        List.getLast?_cons
      rw [last]
      cases lastBase? rest with
      | none => exact overlay_merged_names base.fields d.fields
      | some b => rfl

/-! ### Building -/

/-- A check fails at the first field that is not apart from all fields before it. -/
theorem check_eq_error {e : Error} (failed : check schema earlier xs = .error e) :
    ∃ before f after, xs = before ++ f :: after ∧ ∃ g ∈ earlier ++ before, ¬ g.Apart f ∧
      (e = .duplicateField schema f.name ∧ g.name = f.name ∨
        e = .duplicateExternalName schema f.attr.externalName ∧
          ∀ h ∈ earlier ++ before, h.name ≠ f.name) := by
  induction xs generalizing earlier with
  | nil => cases failed
  | cons f rest ih =>
    rw [check] at failed
    split at failed
    · next repeated =>
      cases failed
      obtain ⟨g, mem, same⟩ := List.any_eq_true.mp repeated
      have named : g.name = f.name := beq_iff_eq.mp same
      exact ⟨[], f, rest, rfl, g, by simpa using mem, fun apart => apart.1 named, .inl ⟨rfl, named⟩⟩
    · next fresh =>
      split at failed
      · next shared =>
        cases failed
        simp only [Bool.and_eq_true, Bool.not_eq_true', List.any_eq_true, beq_iff_eq] at shared
        obtain ⟨scalar, g, mem, other, same⟩ := shared
        have unseen : ∀ h ∈ earlier ++ [], h.name ≠ f.name := by simpa using fresh
        exact ⟨[], f, rest, rfl, g, by simpa using mem, fun apart => apart.2 other scalar same,
          .inr ⟨rfl, unseen⟩⟩
      · obtain ⟨before, g, after, rfl, found⟩ := ih failed
        refine ⟨f :: before, g, after, rfl, ?_⟩
        rwa [List.append_assoc] at found

theorem check_duplicate (failed : check schema earlier xs = .error (.duplicateField other name)) :
    2 ≤ ((earlier ++ xs).map Field.name).count name := by
  obtain ⟨before, f, after, rfl, g, mem, _, ⟨cause, same⟩ | ⟨cause, _⟩⟩ := check_eq_error failed
  · cases cause
    have first : 0 < ((earlier ++ before).map Field.name).count f.name :=
      List.count_pos_iff.mpr (same ▸ List.mem_map_of_mem mem)
    rw [← List.append_assoc, List.map_append, List.count_append, List.map_cons,
      List.count_cons_self]
    omega
  · cases cause

/-- A name is reported as declared twice only if it is. -/
theorem build_duplicate (failed : d.build = .error (.duplicateField other name)) :
    2 ≤ d.occurrences name := by
  rw [build] at failed
  split at failed
  · cases failed
  · next refused =>
    cases failed
    have counted := check_duplicate refused
    exact counted

theorem check_append (ys : List Field) (passed : check schema earlier xs = .ok ()) :
    check schema earlier (xs ++ ys) = check schema (earlier ++ xs) ys := by
  induction xs generalizing earlier with
  | nil => rw [List.nil_append, List.append_nil]
  | cons f rest ih =>
    rw [check] at passed
    split at passed
    · cases passed
    · next fresh =>
      split at passed
      · cases passed
      · next apart =>
        rw [List.cons_append, check, if_neg fresh, if_neg apart, ih passed, List.append_assoc]
        rfl

/-- A field that is added under a name that is there already is refused, and nothing before it is. -/
theorem build_added {s : Schema} (built : d.build = .ok s)
    (absent : f.name ∉ d.inherited.map Field.name) (mem : f.name ∈ d.fields.map Field.name) :
    (d.declare f).build = .error (.duplicateField d.name f.name) := by
  have passed : check d.name [] d.fields = .ok () := by
    rw [build] at built
    split at built
    · assumption
    · cases built
  have repeated : d.fields.any (·.name == f.name) = true := by simpa using mem
  have refused : check d.name [] (d.fields ++ [f]) = .error (.duplicateField d.name f.name) := by
    rw [check_append [f] passed, List.nil_append, check, if_pos repeated]
  have fields : (d.declare f).fields = d.fields ++ [f] := by
    rw [declare_absent absent]
    exact (List.append_assoc ..).symm
  rw [build, fields, (declare_heading d f).name, refused]

/-! ### Redefining after any calls -/

/-- A declared field takes the place of the one that was there. -/
structure RedefinesInPlace (d : Declaration) (f : Field) : Prop where
  fields : (d.declare f).fields = d.fields.map (·.redefinedBy f)
  names : (d.declare f).fields.map Field.name = d.fields.map Field.name
  /-- Only a name that was declared twice before is refused. -/
  built : ∀ schema name, (d.declare f).build = .error (.duplicateField schema name) →
    2 ≤ d.occurrences name

/-- A declared field is added although one of its name is there, and the model is refused. -/
structure RepeatsName (d : Declaration) (f : Field) : Prop where
  fields : (d.declare f).fields = d.fields ++ [f]
  present : f.name ∈ d.fields.map Field.name
  refused : ∀ schema, (d.declare f).build ≠ .ok schema
  /-- The name is what is wrong if nothing else is. -/
  cause : ∀ schema, d.build = .ok schema →
    (d.declare f).build = .error (.duplicateField d.name f.name)

theorem redefinesInPlace (once : d.occurrences f.name ≤ 1)
    (distinct : (d.inherited.map Field.name).Nodup)
    (mem : f.name ∈ d.inherited.map Field.name) : RedefinesInPlace d f := by
  have inside : 0 < (d.inherited.map Field.name).count f.name := List.count_pos_iff.mpr mem
  rw [occurrences_eq] at once
  have outside : f.name ∉ d.own.map Field.name := by
    rw [← List.count_eq_zero]
    omega
  have fields : (d.declare f).fields = d.fields.map (·.redefinedBy f) := by
    rw [declare_present distinct mem, Declaration.fields, Declaration.fields, List.map_append,
      redefinedBy_absent outside]
  have names : (d.declare f).fields.map Field.name = d.fields.map Field.name := by
    rw [fields, List.map_map]
    exact List.map_congr_left fun g _ => g.redefinedBy_name f
  refine ⟨fields, names, fun schema name failed => ?_⟩
  have repeated := build_duplicate failed
  rwa [occurrences, names] at repeated

theorem repeatsName (absent : f.name ∉ d.inherited.map Field.name)
    (present : f.name ∈ d.fields.map Field.name) : RepeatsName d f := by
  have fields : (d.declare f).fields = d.fields ++ [f] := by
    rw [declare_absent absent]
    exact (List.append_assoc ..).symm
  refine ⟨fields, present, fun schema built => ?_, fun _ built => build_added built absent present⟩
  have names := (build_iff.mp built).1.names
  rw [fields, List.map_append] at names
  exact (List.nodup_append.mp names).2.2 _ present _ List.mem_cons_self rfl

/-- After any calls that declare a model and take on bases, a field that some base brought and the
model did not declare itself is redefined in place exactly when the base that was taken on last has
it. Otherwise it is declared a second time, and the model is refused. -/
theorem redefinesInPlace_iff {name : String} {calls : List Call} {f : Field}
    (distinct : ∀ b ∈ bases calls, (b.fields.map Field.name).Nodup)
    (brought : ∃ b ∈ bases calls, f.name ∈ b.fields.map Field.name)
    (undeclared : f.name ∉ (ownFields calls).map Field.name) :
    (RedefinesInPlace ((new name).run calls) f ↔
      ∃ b ∈ lastBase? calls, f.name ∈ b.fields.map Field.name) ∧
    ((∀ b ∈ lastBase? calls, f.name ∉ b.fields.map Field.name) →
      RepeatsName ((new name).run calls) f) := by
  have once : ((new name).run calls).occurrences f.name ≤ 1 :=
    occurrences_run_le_one (Nat.zero_le 1) distinct undeclared
  have present : f.name ∈ ((new name).run calls).fields.map Field.name := by
    obtain ⟨b, mem, has⟩ := brought
    have counted : 0 < b.occurrences f.name := List.count_pos_iff.mpr has
    exact List.count_pos_iff.mp (Nat.lt_of_lt_of_le counted (occurrences_base_le_run mem _ _))
  have inherited := run_inherited (new name) calls
  cases last : lastBase? calls with
  | none =>
    obtain ⟨b, mem, _⟩ := brought
    have bare : bases calls = [] := List.getLast?_eq_none_iff.mp last
    rw [bare] at mem
    cases mem
  | some b =>
    have mem : b ∈ bases calls := List.mem_of_getLast? last
    rw [last] at inherited
    have names : ((new name).run calls).inherited.map Field.name = b.fields.map Field.name := inherited
    have beside (absent : f.name ∉ b.fields.map Field.name) :
        RepeatsName ((new name).run calls) f := repeatsName (names ▸ absent) present
    simp only [Option.mem_some_iff, exists_eq_left', forall_eq']
    refine ⟨⟨fun inPlace => ?_, fun has => ?_⟩, beside⟩
    · by_contra absent
      have longer := congrArg List.length (beside absent).fields
      rw [inPlace.fields, List.length_map, List.length_append] at longer
      exact absurd longer (by simp)
    · exact redefinesInPlace once (names ▸ distinct b mem) (names ▸ has)

end Declaration

namespace Sample

open Declaration

/-- Another base, which also has an id. -/
def owned : Declaration :=
  ⟨"Owned", none, [], [⟨"id", ⟨"Id", false, .scalar .string⟩⟩,
    ⟨"owner", ⟨"Owner", false, .scalar .string⟩⟩]⟩

def ownedCalls : List Call := [.inherit audited, .declare leadName, .inherit owned]

/-- The id is in both bases, and so it is redefined in place. -/
theorem leadId_inPlace : (∀ b ∈ bases ownedCalls, (b.fields.map Field.name).Nodup) ∧
    (∃ b ∈ bases ownedCalls, leadId.name ∈ b.fields.map Field.name) ∧
    leadId.name ∉ (ownFields ownedCalls).map Field.name ∧
    RedefinesInPlace ((new "Lead").run ownedCalls) leadId := by
  have distinct : ∀ b ∈ bases ownedCalls, (b.fields.map Field.name).Nodup := by decide
  have brought : ∃ b ∈ bases ownedCalls, leadId.name ∈ b.fields.map Field.name := by decide
  have undeclared : leadId.name ∉ (ownFields ownedCalls).map Field.name := by decide
  have last : ∃ b ∈ lastBase? ownedCalls, leadId.name ∈ b.fields.map Field.name :=
    ⟨owned, rfl, by decide⟩
  exact ⟨distinct, brought, undeclared,
    (redefinesInPlace_iff distinct brought undeclared).1.mpr last⟩

def optionalCreated : Field := ⟨"created", ⟨"CreatedDate", true, .scalar .datetime⟩⟩

/-- The time of creation is in the first base only. A valid declaration is none any more when a new
definition of it is given. -/
theorem optionalCreated_repeated :
    (∀ b ∈ bases ownedCalls, (b.fields.map Field.name).Nodup) ∧
    optionalCreated.name ∈ audited.fields.map Field.name ∧
    optionalCreated.name ∉ (ownFields ownedCalls).map Field.name ∧
    ((new "Lead").run ownedCalls).fields.map Field.name = ["id", "owner", "created", "name"] ∧
    (∃ s, ((new "Lead").run ownedCalls).build = .ok s) ∧
    (((new "Lead").run ownedCalls).declare optionalCreated).fields.map Field.name =
      ["id", "owner", "created", "name", "created"] ∧
    (((new "Lead").run ownedCalls).declare optionalCreated).build =
      .error (.duplicateField "Lead" "created") :=
  ⟨by decide, by decide, by decide, rfl, ⟨_, rfl⟩, rfl, rfl⟩

end Sample

end RecordQuery
