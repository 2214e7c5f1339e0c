import Mathlib.Data.List.Induction
import Mathlib.Order.MinMax
import RecordQuery.Proofs.Schema.Redefining

/-!
# Repeated fields

A model that declares a field of its own twice is refused if the second declaration is added to the
first. It is not added if the base that was taken on last has the field: then it replaces what
stands there, even a definition that the model gave itself. The model keeps the last definition, and
the earlier ones are gone without an error.
-/

namespace RecordQuery

namespace Declaration

variable {d base : Declaration} {f g : Field} {given declared : List Field}
  {calls before after : List Call} {c : Call} {name model : String}

/-! ### Declared names -/

/-- The model declares the name, or a base that it has taken on does. -/
def Known (calls : List Call) (name : String) : Prop :=
  name ∈ (ownFields calls).map Field.name ∨ ∃ b ∈ bases calls, name ∈ b.fields.map Field.name

/-- The base that was taken on last declares the name. -/
def Inherits (calls : List Call) (name : String) : Prop :=
  ∃ b ∈ lastBase? calls, name ∈ b.fields.map Field.name

/-- A name is declared twice by a base, or by a call that adds a field although its name is known. -/
def Repeats (calls : List Call) (name : String) : Prop :=
  (∃ b ∈ bases calls, 2 ≤ b.occurrences name) ∨
    ∃ before f after, calls = before ++ .declare f :: after ∧ f.name = name ∧
      Known before name ∧ ¬ Inherits before name

theorem inherits_iff :
    name ∈ ((new model).run calls).inherited.map Field.name ↔ Inherits calls name := by
  rw [run_inherited, Inherits]
  cases lastBase? calls <;> simp [new]

theorem Repeats.snoc (h : Repeats calls name) (c : Call) : Repeats (calls ++ [c]) name := by
  rcases h with ⟨b, mem, twice⟩ | ⟨before, f, after, rfl, named, known, outside⟩
  · rw [Repeats, bases_append]
    exact .inl ⟨b, List.mem_append_left _ mem, twice⟩
  · exact .inr ⟨before, f, after ++ [c], by simp, named, known, outside⟩

/-! ### Counting declarations -/

/-- A field that replaces another one leaves all names as they are. -/
theorem occurrences_declare_present (mem : f.name ∈ d.inherited.map Field.name) :
    (d.declare f).occurrences name = d.occurrences name := by
  cases found : redefine? f d.inherited with
  | none => exact absurd mem (redefine?_eq_none.mp found)
  | some ys => rw [declare, found, occurrences_eq, occurrences_eq, redefine?_names found]

theorem occurrences_declare_absent (absent : f.name ∉ d.inherited.map Field.name) :
    (d.declare f).occurrences f.name = d.occurrences f.name + 1 := by
  rw [declare_absent absent, occurrences_eq, occurrences_eq, List.map_append, List.count_append,
    List.map_singleton, List.count_singleton_self, Nat.add_assoc]

theorem known_snoc : Known (calls ++ [c]) name ↔
    Known calls name ∨ (∃ f ∈ c.field?, f.name = name) ∨
      ∃ b ∈ c.base?, name ∈ b.fields.map Field.name := by
  have own : ownFields [c] = c.field?.toList := by cases c <;> rfl
  have taken : bases [c] = c.base?.toList := by cases c <;> rfl
  rw [Known, Known, ownFields_append, bases_append, own, taken]
  simp only [List.map_append, List.mem_append, List.mem_map, Option.mem_toList, or_and_right,
    exists_or]
  exact or_or_or_comm

/-- A name is there once it was declared. -/
theorem known_iff : 0 < ((new model).run calls).occurrences name ↔ Known calls name := by
  induction calls using List.reverseRecOn with
  | nil => simp [Known, ownFields, bases, occurrences, run, new, fields]
  | append_singleton calls c ih =>
    rw [run_snoc, known_snoc, ← ih]
    cases c with
    | withObjectName objectName =>
      have same : (Call.apply ((new model).run calls) (.withObjectName objectName)).occurrences
          name = ((new model).run calls).occurrences name := rfl
      simp [same, Call.field?, Call.base?]
    | declare f =>
      by_cases same : f.name = name
      · subst same
        have there : 0 < (((new model).run calls).declare f).occurrences f.name := by
          by_cases mem : f.name ∈ ((new model).run calls).inherited.map Field.name
          · rw [occurrences_declare_present mem, occurrences_eq]
            exact Nat.add_pos_left (List.count_pos_iff.mpr mem) _
          · rw [occurrences_declare_absent mem]
            exact Nat.succ_pos _
        simp [Call.apply, Call.field?, there]
      · rw [Call.apply, occurrences_declare_other same]
        simp [Call.field?, Call.base?, same]
    | inherit base =>
      have brought : 0 < base.occurrences name ↔ name ∈ base.fields.map Field.name :=
        List.count_pos_iff
      rw [Call.apply, occurrences_inherit, lt_max_iff, brought]
      simp [Call.field?, Call.base?]

theorem twice_of_added (named : f.name = name) (known : Known before name)
    (outside : ¬ Inherits before name) :
    2 ≤ ((new model).run (before ++ .declare f :: after)).occurrences name := by
  subst named
  have there : 0 < ((new model).run before).occurrences f.name := known_iff.mpr known
  have absent : f.name ∉ ((new model).run before).inherited.map Field.name :=
    fun mem => outside (inherits_iff.mp mem)
  have added := occurrences_declare_absent absent
  rw [run_append]
  exact Nat.le_trans (by omega) (occurrences_le_run (((new model).run before).declare f) after _)

/-- A name is declared twice exactly when a base or a call repeats it. -/
theorem twice_iff : 2 ≤ ((new model).run calls).occurrences name ↔ Repeats calls name := by
  constructor
  · intro twice
    induction calls using List.reverseRecOn with
    | nil => simp [occurrences, run, new, fields] at twice
    | append_singleton calls c ih =>
      rw [run_snoc] at twice
      cases c with
      | withObjectName objectName => exact (ih twice).snoc _
      | declare f =>
        rw [Call.apply] at twice
        by_cases mem : f.name ∈ ((new model).run calls).inherited.map Field.name
        · rw [occurrences_declare_present mem] at twice
          exact (ih twice).snoc _
        · by_cases same : f.name = name
          · subst same
            rw [occurrences_declare_absent mem] at twice
            have known : Known calls f.name := known_iff.mp (Nat.lt_of_succ_lt_succ twice)
            exact .inr ⟨calls, f, [], rfl, rfl, known, fun h => mem (inherits_iff.mpr h)⟩
          · rw [occurrences_declare_other same] at twice
            exact (ih twice).snoc _
      | inherit base =>
        rw [Call.apply, occurrences_inherit] at twice
        rcases le_max_iff.mp twice with twice | twice
        · exact (ih twice).snoc _
        · have mem : base ∈ bases (calls ++ [.inherit base]) := by simp [bases, Call.base?]
          exact .inl ⟨base, mem, twice⟩
  · rintro (⟨b, mem, twice⟩ | ⟨before, f, after, rfl, named, known, outside⟩)
    · exact Nat.le_trans twice (occurrences_base_le_run mem _ _)
    · exact twice_of_added named known outside

/-! ### The last definition -/

theorem mem_declare (d : Declaration) (f : Field) : f ∈ (d.declare f).fields := by
  rw [declare]
  split
  · next found =>
    obtain ⟨before, g, after, _, _, rfl⟩ := redefine?_eq_some found
    simp [fields]
  · simp [fields]

theorem mem_declare_other (differs : g.name ≠ f.name) (mem : f ∈ d.fields) :
    f ∈ (d.declare g).fields := by
  rw [declare]
  split
  · next found =>
    obtain ⟨before, h, after, split, same, rfl⟩ := redefine?_eq_some found
    have kept : f ≠ h := fun replaced => differs (same.symm.trans (replaced ▸ rfl))
    rw [fields, split] at mem
    simp only [List.mem_append, List.mem_cons, kept, false_or] at mem
    simp only [fields, List.mem_append, List.mem_cons]
    exact mem.imp_left fun inside => inside.imp_right .inr
  · rw [fields, ← List.append_assoc]
    exact List.mem_append_left _ mem

/-- Nothing that was declared is lost when it is laid over a base. -/
theorem mem_overlay (mem : f ∈ declared) :
    f ∈ (overlay given declared).1 ∨ f ∈ (overlay given declared).2 := by
  induction given generalizing declared with
  | nil => exact .inr mem
  | cons g rest ih =>
    rw [overlay_cons]
    rcases List.exists_or_eq_self_of_eraseP (·.name == g.name) declared with
      kept | ⟨h, first, others, unnamed, named, rfl, left⟩
    · rw [kept]
      exact (ih mem).imp (List.mem_cons_of_mem _) id
    · rw [left]
      have found : preferring (first ++ h :: others) g = h := by
        have passed : first.find? (·.name == g.name) = none := List.find?_eq_none.mpr unnamed
        rw [preferring, List.find?_append, passed, Option.none_or, List.find?_cons, named]
        rfl
      rw [found]
      by_cases same : f = h
      · exact .inl (List.mem_cons.mpr (.inl same))
      · have other : f ∈ first ++ others := by simpa [same] using mem
        exact (ih other).imp (List.mem_cons_of_mem _) id

theorem mem_inherit (base : Declaration) (mem : f ∈ d.fields) : f ∈ (d.inherit base).fields :=
  List.mem_append.mpr (mem_overlay mem)

/-- A field keeps its definition until the model declares it again. -/
theorem mem_run (mem : f ∈ d.fields) (last : f.name ∉ (ownFields calls).map Field.name) :
    f ∈ (d.run calls).fields := by
  induction calls generalizing d with
  | nil => exact mem
  | cons c rest ih =>
    cases c with
    | withObjectName objectName => exact ih (d := d.withObjectName objectName) mem last
    | declare g =>
      have named : f.name ≠ g.name ∧ f.name ∉ (ownFields rest).map Field.name := by
        simpa [ownFields, Call.field?] using last
      exact ih (mem_declare_other (Ne.symm named.1) mem) named.2
    | inherit base => exact ih (mem_inherit base mem) last

/-! ### Building and registering -/

/-- Nothing is wrong with the fields but perhaps that a name is declared more than once. -/
def ConsistentBut (d : Declaration) (name : String) : Prop :=
  d.fields.Pairwise fun e f => e.Apart f ∨ (e.name = name ∧ f.name = name)

/-- A model is not registered because of a name. -/
structure Refused (d : Declaration) (name : String) : Prop where
  unregistered : ∀ id ds r, d ∈ ds → Registry.build id ds ≠ .ok r
  /-- The name is what is reported if nothing else is wrong with the declaration or before it. -/
  cause : d.ConsistentBut name → ∀ id earlier later schemas,
    earlier.foldlM Registry.add [] = .ok schemas →
      Registry.build id (earlier ++ d :: later) = .error (.duplicateField d.name name)

/-- A model has one field of a name, and is not refused for it. -/
structure Keeps (d : Declaration) (f : Field) : Prop where
  mem : f ∈ d.fields
  once : d.occurrences f.name = 1
  unreported : ∀ schema, d.build ≠ .error (.duplicateField schema f.name)
  built : d.ConsistentBut f.name → d.build = .ok d.schema

theorem ConsistentBut.consistent (h : d.ConsistentBut name) (once : d.occurrences name ≤ 1) :
    d.Consistent := by
  refine consistent_iff.mpr (List.pairwise_iff_forall_sublist.mpr fun {e f} inside => ?_)
  rcases List.pairwise_iff_forall_sublist.mp h inside with apart | ⟨first, second⟩
  · exact apart
  · have counted := (inside.map Field.name).count_le name
    rw [List.map_cons, List.map_singleton, first, second, List.count_cons_self,
      List.count_singleton_self] at counted
    exact absurd (Nat.le_trans counted once) (by decide)

/-- What is reported is the name if all other fields are apart. -/
theorem ConsistentBut.build_eq_error (h : d.ConsistentBut name) {e : Error}
    (failed : d.build = .error e) : e = .duplicateField d.name name := by
  rw [build] at failed
  split at failed
  · cases failed
  · next refused =>
    cases failed
    obtain ⟨before, f, after, split, g, mem, conflict, cause⟩ := check_eq_error refused
    rw [ConsistentBut, split] at h
    obtain ⟨first, second⟩ :=
      ((List.pairwise_append.mp h).2.2 g mem f List.mem_cons_self).resolve_left conflict
    rcases cause with ⟨rfl, _⟩ | ⟨_, unseen⟩
    · rw [second]
    · exact absurd (first.trans second.symm) (unseen g mem)

theorem refused (twice : 2 ≤ d.occurrences name) : Refused d name := by
  have inconsistent : ¬ d.Consistent := fun consistent => by
    have once := List.nodup_iff_count_le_one.mp consistent.names name
    exact absurd (Nat.le_trans twice once) (by decide)
  refine ⟨fun id ds r mem run => ?_, fun but id earlier later schemas added => ?_⟩
  · exact inconsistent ((Registry.build_iff.mp run).1.each d mem)
  · have failed : d.build = .error (.duplicateField d.name name) := by
      cases built : d.build with
      | ok s => exact absurd (build_iff.mp built).1 inconsistent
      | error e => rw [but.build_eq_error built]
    have stopped : Registry.add schemas d = .error (.duplicateField d.name name) := by
      rw [Registry.add, failed]
      rfl
    rw [Registry.build, List.foldlM_append, added, Outcome.ok_bind, List.foldlM_cons, stopped]
    rfl

theorem keeps (mem : f ∈ d.fields) (once : d.occurrences f.name ≤ 1) : Keeps d f where
  mem := mem
  once := Nat.le_antisymm once (List.count_pos_iff.mpr (List.mem_map_of_mem mem))
  unreported := fun _ failed => absurd (Nat.le_trans (build_duplicate failed) once) (by decide)
  built := fun but => build_iff.mpr ⟨but.consistent once, rfl⟩

/-- Let `f` be the last of two or more declarations that a model makes of one field. If the base that
was taken on last before it does not have the field, or there is no base, the model is refused. In
general it is refused if a base repeats the name, or if some declaration of it, maybe an earlier one,
was added when the name was known already. Otherwise the model has the field once, as `f` declares
it, and the earlier declarations are not noticed. -/
theorem refused_or_keeps {name : String} {calls before after : List Call} {f : Field}
    (split : calls = before ++ .declare f :: after)
    (again : f.name ∈ (ownFields before).map Field.name)
    (last : f.name ∉ (ownFields after).map Field.name) :
    (¬ Inherits before f.name → Refused ((new name).run calls) f.name) ∧
    (Repeats calls f.name → Refused ((new name).run calls) f.name) ∧
    (¬ Repeats calls f.name → Keeps ((new name).run calls) f) := by
  have repeated (h : Repeats calls f.name) : Refused ((new name).run calls) f.name :=
    refused (twice_iff.mpr h)
  have mem : f ∈ ((new name).run calls).fields := by
    rw [split, run_append]
    exact mem_run (d := ((new name).run before).declare f) (mem_declare _ f) last
  refine ⟨fun outside => repeated ?_, repeated, fun unique => keeps mem ?_⟩
  · exact .inr ⟨before, f, after, split, rfl, .inl again, outside⟩
  · exact Nat.le_of_not_lt fun twice => unique (twice_iff.mp twice)

end Declaration

namespace Sample

open Declaration

def requiredName : Field := ⟨"name", ⟨"Name", false, .scalar .string⟩⟩

def namedCalls : List Call := [.declare leadName, .inherit audited, .declare requiredName]

def createdOn : Field := ⟨"created", ⟨"CreatedOn__c", true, .scalar .date⟩⟩

def createdCalls : List Call := [.declare createdOn, .inherit audited, .declare optionalCreated]

/-- The base has no field for the name but one for the time of creation. Of these two, both declared
twice by the model, only the first is noticed. -/
theorem requiredName_refused :
    requiredName.name ∈ (ownFields [.declare leadName, .inherit audited]).map Field.name ∧
    optionalCreated.name ∈ (ownFields [.declare createdOn, .inherit audited]).map Field.name ∧
    ¬ Inherits [.declare leadName, .inherit audited] "name" ∧ ¬ Repeats createdCalls "created" ∧
    Refused ((new "Lead").run namedCalls) "name" ∧
    Keeps ((new "Lead").run createdCalls) optionalCreated := by
  have outside : ¬ Inherits [.declare leadName, .inherit audited] "name" := by
    rintro ⟨b, last, mem⟩
    cases last
    exact absurd mem (by decide)
  have once : ¬ 2 ≤ ((new "Lead").run createdCalls).occurrences "created" := by decide
  have unique : ¬ Repeats createdCalls "created" := fun repeated => once (twice_iff.mpr repeated)
  have name : requiredName.name ∈
    (ownFields [.declare leadName, .inherit audited]).map Field.name := by decide
  have created : optionalCreated.name ∈
    (ownFields [.declare createdOn, .inherit audited]).map Field.name := by decide
  have last (f : Field) : f.name ∉ (ownFields []).map Field.name := List.not_mem_nil
  exact ⟨name, created, outside, unique, (refused_or_keeps rfl name (last _)).1 outside,
    (refused_or_keeps rfl created (last _)).2.2 unique⟩

/-- Two definitions of the time of creation, before and after the base is taken on or both after it,
make a model with the second of them. They are refused if the base comes last. -/
theorem createdTwice_registered :
    (ownFields createdCalls).map Field.name = ["created", "created"] ∧
    Registry.build 0 [(new "Lead").run createdCalls] = .ok ⟨0, [⟨"Lead", "Lead",
      [⟨"id", ⟨"Id", false, .scalar .string⟩⟩, optionalCreated]⟩]⟩ ∧
    Registry.build 0 [(new "Lead").run
        [.inherit audited, .declare createdOn, .declare optionalCreated]] =
      .ok ⟨0, [⟨"Lead", "Lead",
        [⟨"id", ⟨"Id", false, .scalar .string⟩⟩, optionalCreated]⟩]⟩ ∧
    Registry.build 0 [(new "Lead").run
        [.declare createdOn, .declare optionalCreated, .inherit audited]] =
      .error (.duplicateField "Lead" "created") :=
  ⟨rfl, rfl, rfl, rfl⟩

end Sample

end RecordQuery
