import RecordQuery.Proofs.Instance.Recorded
import RecordQuery.Proofs.Instance.Tracked

/-!
# Recorded changes

After any run of assignments the recorded changes are what has to be written over the scalar entries
that there were to get those that there are. Every scalar field with another value is among them,
and every field among them was given another value by some call.
-/

namespace RecordQuery

/-! ### Mappings -/

namespace Payload.Entries

variable {key : String} {value : Payload} {entries base later : Entries}

theorem mem_of_lookup (found : entries.lookup key = some value) : (key, value) ∈ entries := by
  obtain ⟨before, after, rfl, _⟩ := List.lookup_eq_some_iff.mp found
  exact List.mem_append_right _ List.mem_cons_self

theorem exists_lookup (mem : key ∈ entries.map Prod.fst) : ∃ p, entries.lookup key = some p := by
  refine Option.ne_none_iff_exists'.mp fun absent => ?_
  obtain ⟨entry, inside, rfl⟩ := List.mem_map.mp mem
  simpa using List.lookup_eq_none_iff.mp absent entry inside

theorem lookup_of_mem (once : (entries.map Prod.fst).Nodup) (mem : (key, value) ∈ entries) :
    entries.lookup key = some value := by
  obtain ⟨p, found⟩ := exists_lookup (List.mem_map_of_mem mem)
  have same := List.inj_on_of_nodup_map once mem (mem_of_lookup found) rfl
  cases same
  exact found

theorem mem_of_lookup_foldl (acc : Entries)
    (found : (entries.foldl (fun acc e => insert e.1 e.2 acc) acc).lookup key = some value) :
    (key, value) ∈ entries ∨ acc.lookup key = some value := by
  induction entries generalizing acc with
  | nil => exact .inr found
  | cons entry rest ih =>
    rcases ih _ found with later | here
    · exact .inl (List.mem_cons_of_mem _ later)
    · rw [lookup_insert] at here
      split at here
      · next same =>
        obtain rfl := Option.some.inj here
        exact .inl (same ▸ List.mem_cons_self)
      · exact .inr here

/-- A list with one value for a key is found with that value. -/
theorem lookup_ofList_iff (one : ∀ p q, (key, p) ∈ entries → (key, q) ∈ entries → p = q) :
    (ofList entries).lookup key = some value ↔ (key, value) ∈ entries := by
  have mem {p : Payload} (found : (ofList entries).lookup key = some p) : (key, p) ∈ entries :=
    (mem_of_lookup_foldl [] found).resolve_right nofun
  constructor
  · exact mem
  · intro inside
    obtain ⟨p, found⟩ := exists_lookup (mem_keys_ofList.mpr (List.mem_map_of_mem inside))
    rw [found, one p value (mem found) inside]

/-- The entries of `base`, but with those of `later` for the keys that it has. -/
def overlay (base later : Entries) : Entries :=
  later.foldl (fun acc e => insert e.1 e.2 acc) base

theorem lookup_overlay (once : (later.map Prod.fst).Nodup) :
    (overlay base later).lookup key = (later.lookup key).or (base.lookup key) := by
  cases found : later.lookup key with
  | none =>
    rw [overlay, lookup_foldl_insert, Option.none_or]
    intro mem
    obtain ⟨p, some⟩ := exists_lookup mem
    rw [found] at some
    cases some
  | some p =>
    obtain ⟨before, after, rfl, _⟩ := List.lookup_eq_some_iff.mp found
    rw [List.map_append, List.map_cons] at once
    have fresh := (List.nodup_cons.mp (List.nodup_append.mp once).2.1).1
    rw [overlay, lookup_foldl_last _ _ fresh, Option.some_or]

end Payload.Entries

namespace Instance

variable {x y : Instance} {f g : Field} {s t : Slot Instance} {v w : Value} {key : String}
  {p : Payload} {calls : List Call}

/-! ### Scalar entries -/

/-- The entries of the scalar fields that are set. -/
def scalarEntries (x : Instance) : Payload.Entries :=
  .ofList ((x.cells.filter (!·.1.attr.isRelation)).filterMap written?)

/-- Among values, the external name tells the field and so its value. -/
theorem Regular.value_unique (h : x.Regular) (left : (f, .value v) ∈ x.cells)
    (right : (g, .value w) ∈ x.cells) (name : f.attr.externalName = g.attr.externalName) :
    f = g ∧ v = w := by
  have columns {e : Field} {u : Value} (cell : (e, .value u) ∈ x.cells) :
      e ∈ x.model.schema.columns :=
    Schema.mem_columns.mpr ⟨mem_fields_of_mem_cells cell, (h.value cell).1⟩
  obtain rfl := h.valid.eq_of_externalName (columns left) (columns right) name
  have same := List.inj_on_of_nodup_map h.cells_once left right rfl
  cases same
  exact ⟨rfl, rfl⟩

theorem Regular.mem_scalars (h : x.Regular) :
    (key, p) ∈ (x.cells.filter (!·.1.attr.isRelation)).filterMap written? ↔
      ∃ f v, (f, .value v) ∈ x.cells ∧ f.attr.externalName = key ∧ v.toPayload = p := by
  constructor
  · intro mem
    obtain ⟨⟨f, s⟩, inside, made⟩ := List.mem_filterMap.mp mem
    obtain ⟨cell, scalar⟩ := List.mem_filter.mp inside
    rcases (h.suits f s cell).scalar (by simpa using scalar) with rfl | ⟨v, rfl⟩
    · cases made
    · cases made
      exact ⟨f, v, cell, rfl, rfl⟩
  · rintro ⟨f, v, cell, rfl, rfl⟩
    have scalar := (h.value cell).1
    exact List.mem_filterMap.mpr ⟨_, List.mem_filter.mpr ⟨cell, by simp [scalar]⟩, rfl⟩

theorem Regular.lookup_scalarEntries (h : x.Regular) : x.scalarEntries.lookup key = some p ↔
    ∃ f v, (f, .value v) ∈ x.cells ∧ f.attr.externalName = key ∧ v.toPayload = p := by
  rw [scalarEntries, Payload.Entries.lookup_ofList_iff, h.mem_scalars]
  intro p q left right
  obtain ⟨f, v, cell, rfl, rfl⟩ := h.mem_scalars.mp left
  obtain ⟨g, w, cell', name, rfl⟩ := h.mem_scalars.mp right
  rw [(h.value_unique cell cell' name.symm).2]

/-! ### Entries of changes -/

/-- The entry of a field with its slot and whether it is recorded as changed. -/
def changed? : Field × Slot Instance × Bool → Option (String × Payload)
  | (f, .value v, true) => some (f.attr.externalName, v.toPayload)
  | _ => none

theorem changeEntries_eq (fields : List Field) (slots : List (Slot Instance))
    (flags : List Bool) :
    changeEntries fields slots flags = (fields.zip (slots.zip flags)).filterMap changed? := by
  induction fields generalizing slots flags with
  | nil => rfl
  | cons f fields ih =>
    rcases slots with _ | ⟨s, slots⟩
    · rfl
    rcases flags with _ | ⟨flag, flags⟩
    · cases s <;> rfl
    rw [List.zip_cons_cons, List.zip_cons_cons, List.filterMap_cons, ← ih]
    rcases s with _ | v | _ | _ <;> cases flag <;> rfl

/-- The entries of the changed fields. -/
def changedEntries (x : Instance) : Payload.Entries :=
  .ofList (changeEntries x.model.schema.fields x.slots x.changed)

theorem changedEntries_once (x : Instance) : (x.changedEntries.map Prod.fst).Nodup :=
  (Payload.Entries.ascending_ofList _).keys_nodup

theorem mem_changeEntries :
    (key, p) ∈ changeEntries x.model.schema.fields x.slots x.changed ↔
      ∃ i f v, x.At i f (.value v) true ∧ f.attr.externalName = key ∧ v.toPayload = p := by
  rw [changeEntries_eq, List.mem_filterMap]
  constructor
  · rintro ⟨⟨f, s, flag⟩, inside, made⟩
    obtain ⟨i, here⟩ := List.mem_iff_getElem?.mp inside
    obtain ⟨field, rest⟩ := List.getElem?_zip_eq_some.mp here
    obtain ⟨slot, on⟩ := List.getElem?_zip_eq_some.mp rest
    rcases s with _ | v | _ | _ <;> cases flag <;> cases made
    exact ⟨i, f, v, ⟨field, slot, on⟩, rfl, rfl⟩
  · rintro ⟨i, f, v, here, rfl, rfl⟩
    refine ⟨(f, .value v, true), List.mem_iff_getElem?.mpr ⟨i, ?_⟩, rfl⟩
    exact List.getElem?_zip_eq_some.mpr
      ⟨here.field, List.getElem?_zip_eq_some.mpr ⟨here.slot, here.flag⟩⟩

theorem Regular.lookup_changedEntries (h : x.Regular) : x.changedEntries.lookup key = some p ↔
    ∃ i f v, x.At i f (.value v) true ∧ f.attr.externalName = key ∧ v.toPayload = p := by
  rw [changedEntries, Payload.Entries.lookup_ofList_iff, mem_changeEntries]
  intro p q left right
  obtain ⟨i, f, v, here, rfl, rfl⟩ := mem_changeEntries.mp left
  obtain ⟨j, g, w, there, name, rfl⟩ := mem_changeEntries.mp right
  rw [(h.value_unique here.cell there.cell name.symm).2]

/-! ### Instances without changes -/

/-- The instances that no change was made to since they were made or loaded, or since the changes
were forgotten. -/
inductive Fresh : Instance → Prop
  | new {m : Model} (built : m.registry.Built) : Fresh (new m)
  | ofValues {m : Model} {values : List (String × Value)} {x : Instance}
      (built : m.registry.Built) (step : ofValues m values = .ok x) : Fresh x
  | load {q : Query} {records : List Payload} {xs : List Instance} {x : Instance}
      (query : q.Reachable) (step : q.load records = .ok xs) (mem : x ∈ xs) : Fresh x
  | loadRecord {r : Registry} {p : Payload} {x : Instance} (built : r.Built)
      (step : r.loadRecord p = .ok x) : Fresh x
  | loadRecords {r : Registry} {p : Payload} {xs : List Instance} {x : Instance} (built : r.Built)
      (step : r.loadRecords p = .ok xs) (mem : x ∈ xs) : Fresh x
  | resetChanges {x : Instance} (start : x.Obtained) : Fresh x.resetChanges

theorem Fresh.obtained (h : x.Fresh) : x.Obtained := by
  cases h with
  | new built => exact .new built
  | ofValues built step => exact .ofValues built step
  | load query step mem => exact .load query step mem
  | loadRecord built step => exact .loadRecord built step
  | loadRecords built step mem => exact .loadRecords built step mem
  | resetChanges start => exact .call (c := .resetChanges) start (fun _ hy => nomatch hy) rfl

theorem clean_map_false {α : Type} {l : List α} (changed : x.changed = l.map fun _ => false) :
    x.Clean := by
  intro flag mem
  rw [changed] at mem
  obtain ⟨_, _, rfl⟩ := List.mem_map.mp mem
  rfl

theorem clean_loaded {r : Registry} (step : r.loadRecord p = .ok x) : x.Clean := by
  obtain ⟨_, m, _, _, loaded⟩ := Registry.loadRecord_eq_ok.mp step
  obtain ⟨_, _, _, _, rfl⟩ := Registry.loadAs_eq_ok.mp loaded
  exact clean_map_false rfl

theorem Fresh.clean (h : x.Fresh) : x.Clean := by
  cases h with
  | new built => exact clean_map_false rfl
  | @ofValues m values _ built step =>
    refine Outcome.foldlM_invariant (P := Clean) (clean_map_false rfl) ?_ step
    intro entry _ y next clean step
    obtain ⟨_, _, step⟩ := Outcome.bind_eq_ok.mp step
    obtain rfl := Outcome.pure_eq_ok.mp step
    exact clean
  | load query step mem =>
    obtain ⟨_, loaded⟩ := Query.load_eq_ok.mp step
    obtain ⟨_, _, record⟩ := Outcome.mem_of_mapM loaded mem
    obtain ⟨_, _, _, _, _, _, rfl⟩ := Query.loadRecord_eq_ok.mp record
    exact clean_map_false rfl
  | loadRecord built step => exact clean_loaded step
  | loadRecords built step mem =>
    obtain ⟨_, _, loaded⟩ := Registry.loadRecords_eq_ok.mp step
    obtain ⟨_, _, record⟩ := Outcome.mem_of_mapM loaded mem
    exact clean_loaded record
  | resetChanges start => exact clean_map_false rfl

/-! ### What a run records -/

/-- The payloads of values that are equal. They differ in the sign of a zero at most. -/
def EqualPayloads (p q : Payload) : Prop :=
  ∃ v w : Value, v.same w = true ∧ v.toPayload = p ∧ w.toPayload = q

/-- The field is recorded as changed. -/
def Flags (x : Instance) (f : Field) : Prop := ∃ i s, x.At i f s true

/-- The entries are those of the changes that the run has made. -/
structure Tracks (x : Instance) (calls : List Call) (entries : Payload.Entries) : Prop where
  model : (x.run calls).model = x.model
  complete : ∀ f s t, (f, s) ∈ x.cells → (f, t) ∈ (x.run calls).cells →
    f.attr.isRelation = false → s.same t = false →
      ∃ v, t = .value v ∧ entries.lookup f.attr.externalName = some v.toPayload
  sound : ∀ key p, (key, p) ∈ entries → ∃ f v, (f, .value v) ∈ (x.run calls).cells ∧
    f.attr.isRelation = false ∧ f.attr.externalName = key ∧ v.toPayload = p ∧
      x.Sometime calls (Call.Alters f)
  once : (entries.map Prod.fst).Nodup
  distinct : ∀ f g, (x.run calls).Flags f → (x.run calls).Flags g →
    f.attr.externalName = g.attr.externalName → f = g
  unnamed : ∀ f s, (f, s) ∈ x.cells → ¬ x.Sometime calls (Call.Names f.name) →
    (f, s) ∈ (x.run calls).cells
  overlay : ∀ key, Option.Rel EqualPayloads ((x.scalarEntries.overlay entries).lookup key)
    ((x.run calls).scalarEntries.lookup key)

section

variable (regular : x.Regular) (clean : x.Clean) (tracked : Call.resetChanges ∉ calls)

include regular

theorem Regular.run_cell (cell : (f, s) ∈ x.cells) : ∃ t, (f, t) ∈ (x.run calls).cells := by
  have later : (x.run calls).Regular := regular.run
  have mem := mem_fields_of_mem_cells cell
  rw [← run_model x calls] at mem
  exact ⟨_, cell_slotFor later.width later.valid.fields_nodup mem⟩

theorem Regular.run_from (cell : (f, t) ∈ (x.run calls).cells) : ∃ s, (f, s) ∈ x.cells := by
  have mem := mem_fields_of_mem_cells cell
  rw [run_model] at mem
  exact ⟨_, cell_slotFor regular.width regular.valid.fields_nodup mem⟩

include clean tracked

theorem Regular.follows_cell (start : (f, s) ∈ x.cells) (now : (f, t) ∈ (x.run calls).cells) :
    ∃ i flag, (x.run calls).At i f t flag ∧ Follows x calls f s t flag := by
  obtain ⟨i, at_i, _⟩ := mem_cells.mp start
  obtain ⟨_, _, before⟩ := regular.at_field at_i
  obtain rfl := regular.at_unique before start
  rw [← run_model x calls] at at_i
  obtain ⟨_, flag, here⟩ := regular.run.at_field at_i
  obtain rfl := regular.run.at_unique here now
  exact ⟨i, flag, here, regular.follows clean tracked before here⟩

/-- A field that is recorded as changed has a value, and some call has given it that or one that
was replaced later. -/
theorem Regular.flagged {i : Nat} (here : (x.run calls).At i f t true) :
    (∃ v, t = .value v) ∧ x.Sometime calls (Call.Alters f) := by
  obtain ⟨s, flag, before⟩ := regular.at_field (run_model x calls ▸ here.field)
  exact (regular.follows clean tracked before here).flagged rfl

/-- What has another value is listed with it. -/
theorem Regular.listed (start : (f, s) ∈ x.cells) (now : (f, t) ∈ (x.run calls).cells)
    (scalar : f.attr.isRelation = false) (differs : s.same t = false) :
    ∃ v, t = .value v ∧
      (x.run calls).changedEntries.lookup f.attr.externalName = some v.toPayload := by
  obtain ⟨i, flag, here, follows⟩ := regular.follows_cell clean tracked start now
  cases flag with
  | false =>
    rw [follows.unflagged rfl scalar] at differs
    cases differs
  | true =>
    obtain ⟨⟨v, rfl⟩, _⟩ := follows.flagged rfl
    exact ⟨v, rfl, regular.run.lookup_changedEntries.mpr ⟨i, f, v, here, rfl, rfl⟩⟩

/-- Without an entry a scalar field has the value that it had. -/
theorem Regular.unlisted (start : (f, s) ∈ x.cells) (now : (f, t) ∈ (x.run calls).cells)
    (scalar : f.attr.isRelation = false)
    (absent : (x.run calls).changedEntries.lookup f.attr.externalName = none) :
    s.same t = true := by
  refine Bool.not_eq_false _ ▸ fun differs => ?_
  obtain ⟨v, _, found⟩ := regular.listed clean tracked start now scalar differs
  rw [absent] at found
  cases found

theorem Regular.overlay_run (key : String) : Option.Rel EqualPayloads
    ((x.scalarEntries.overlay (x.run calls).changedEntries).lookup key)
    ((x.run calls).scalarEntries.lookup key) := by
  have later : (x.run calls).Regular := regular.run
  rw [Payload.Entries.lookup_overlay (changedEntries_once _)]
  cases changed : (x.run calls).changedEntries.lookup key with
  | some p =>
    obtain ⟨i, f, v, here, name, rfl⟩ := later.lookup_changedEntries.mp changed
    have current := later.lookup_scalarEntries.mpr ⟨f, v, here.cell, name, rfl⟩
    rw [Option.some_or, current]
    exact .some ⟨v, v, (later.value here.cell).2.same, rfl, rfl⟩
  | none =>
    rw [Option.none_or]
    cases start : x.scalarEntries.lookup key with
    | some p =>
      obtain ⟨f, v, cell, rfl, rfl⟩ := regular.lookup_scalarEntries.mp start
      obtain ⟨t, now⟩ := regular.run_cell cell
      have kept := regular.unlisted clean tracked cell now (regular.value cell).1 changed
      obtain ⟨w, rfl, same⟩ := Slot.same_value_left kept
      rw [later.lookup_scalarEntries.mpr ⟨f, w, now, rfl, rfl⟩]
      exact .some ⟨v, w, same, rfl, rfl⟩
    | none =>
      cases current : (x.run calls).scalarEntries.lookup key with
      | none => exact .none
      | some q =>
        obtain ⟨f, w, now, rfl, rfl⟩ := later.lookup_scalarEntries.mp current
        obtain ⟨s, cell⟩ := regular.run_from now
        have kept := regular.unlisted clean tracked cell now (later.value now).1 changed
        obtain ⟨v, rfl, _⟩ := Slot.same_value_right kept
        rw [regular.lookup_scalarEntries.mpr ⟨f, v, cell, rfl, rfl⟩] at start
        cases start

theorem Regular.tracks : x.Tracks calls (x.run calls).changedEntries where
  model := run_model x calls
  complete := fun _ _ _ start now scalar differs =>
    regular.listed clean tracked start now scalar differs
  sound := by
    intro key p mem
    have found := Payload.Entries.lookup_of_mem (changedEntries_once _) mem
    obtain ⟨i, f, v, here, name, shown⟩ := regular.run.lookup_changedEntries.mp found
    have altered := (regular.flagged clean tracked here).2
    exact ⟨f, v, here.cell, (regular.run.value here.cell).1, name, shown, altered⟩
  once := changedEntries_once _
  distinct := by
    rintro f g ⟨i, _, here⟩ ⟨j, _, there⟩ name
    obtain ⟨⟨v, rfl⟩, _⟩ := regular.flagged clean tracked here
    obtain ⟨⟨w, rfl⟩, _⟩ := regular.flagged clean tracked there
    exact (regular.run.value_unique here.cell there.cell name).1
  unnamed := by
    intro f s cell never
    obtain ⟨t, now⟩ := regular.run_cell cell
    obtain ⟨_, _, _, follows⟩ := regular.follows_cell clean tracked cell now
    exact follows.unnamed never ▸ now
  overlay := regular.overlay_run clean tracked

end

/-- After any calls to an instance without recorded changes, refused ones included, the changes list
every scalar field with another value, and only such fields as some call has given another value.
They are what has to be written over the scalar entries of the start. -/
theorem tracks_changes (obtained : x.Obtained) (clean : x.Clean)
    (tracked : Call.resetChanges ∉ calls) :
    ∃ entries, (x.run calls).changes = .mapping entries ∧ x.Tracks calls entries :=
  ⟨_, rfl, obtained.formed.here.tracks clean tracked⟩

end Instance

namespace Sample

/-- The account with its changes forgotten. -/
def settledAccount : Instance := firstAccount.resetChanges

/-- An account needs a name, its size stays the same, and it gets an owner and then another name. -/
def renameCalls : List Instance.Call :=
  [.set "id" .null, .set "size" (.float twoAndHalf), .setOne "owner" (some firstUser),
    .set "id" (.string "a2")]

theorem renameCalls_tracked : settledAccount.Obtained ∧ settledAccount.Clean ∧
    Instance.Call.resetChanges ∉ renameCalls ∧
    (settledAccount.run renameCalls).changes = .mapping [("Id", .string "a2")] ∧
    settledAccount.Tracks renameCalls [("Id", .string "a2")] := by
  have fresh : settledAccount.Fresh := .resetChanges firstAccount_reachable.obtained
  have tracked : Instance.Call.resetChanges ∉ renameCalls := by simp [renameCalls]
  have shown : (settledAccount.run renameCalls).changes = .mapping [("Id", .string "a2")] := rfl
  obtain ⟨entries, changes, tracks⟩ :=
    Instance.tracks_changes fresh.obtained fresh.clean tracked
  rw [shown] at changes
  cases changes
  exact ⟨fresh.obtained, fresh.clean, tracked, shown, tracks⟩

end Sample

end RecordQuery
