import RecordQuery.Proofs.Instance.Rewritten
import RecordQuery.Proofs.Instance.Entries

/-!
# Records are loaded back

The record of an instance is loaded back by every query that the instance matches: what the query
reads is set in the instance, at every depth, and nothing else is. All that is lost are the recorded
changes, as long as the instants inside are legible. What a query has loaded matches the query and is
legible, so loading its records again changes nothing.
-/

namespace RecordQuery

namespace Query

/-- The set slots of the instance are those that the query reads, and related instances match the
joined query. -/
inductive Matches : Query → Instance → Prop
  | intro {q : Query} {x : Instance} (model : x.model = q.root)
      (exact : ∀ f s, (f, s) ∈ x.cells → (s.isSet = true ↔ f ∈ q.reads))
      (below : ∀ f s, (f, s) ∈ x.cells → ∀ j ∈ q.joins, j.toField = f → ∀ y ∈ s.related,
        Matches j.query y) : Matches q x

/-- No two fields that are read from one record have one external name. -/
inductive DistinctNames : Query → Prop
  | intro {q : Query} (here : (q.reads.map fun f => f.attr.externalName).Nodup)
      (below : ∀ j ∈ q.joins, DistinctNames j.query) : DistinctNames q

variable {q : Query} {x : Instance} {m : Model} {j : Join Query} {f : Field} {s : Slot Instance}
  {p raw : Payload}

theorem Matches.model (h : q.Matches x) : x.model = q.root := by
  cases h
  assumption

theorem Matches.isSet (h : q.Matches x) (cell : (f, s) ∈ x.cells) :
    s.isSet = true ↔ f ∈ q.reads := by
  cases h with
  | intro _ exact _ => exact exact f s cell

theorem DistinctNames.here (h : q.DistinctNames) :
    (q.reads.map fun f => f.attr.externalName).Nodup := by
  cases h
  assumption

theorem DistinctNames.joined (h : q.DistinctNames) (hj : j ∈ q.joins) : j.query.DistinctNames := by
  cases h with
  | intro _ below => exact below j hj

/-! ### From an instance -/

/-- The entry that a field is read from is that of its slot. -/
theorem required_recordEntries (typed : x.Typed) (matched : q.Matches x)
    (distinct : q.DistinctNames) (cell : (f, s) ∈ x.cells) (written : s.payload? = some raw) :
    required q.root f.name f.attr.externalName x.recordEntries = .ok raw := by
  have set : s.isSet = true := by
    rw [← s.isSome_payload?, written]
    rfl
  have read := (matched.isSet cell).mp set
  have found : x.recordEntries.lookup f.attr.externalName = some raw := by
    refine Instance.lookup_recordEntries typed.here.cells_once cell (fun g t other used same => ?_)
      written
    exact List.inj_on_of_nodup_map distinct.here ((matched.isSet other).mp used) read same
  rw [required, found]

theorem loadColumn_cell (typed : x.Typed) (matched : q.Matches x) (distinct : q.DistinctNames)
    (read : f ∈ q.reads) (scalar : f.attr.isRelation = false) (cell : (f, s) ∈ x.cells) :
    loadColumn q.root x.recordEntries f = .ok (f.name, s.reloaded) := by
  have set := (matched.isSet cell).mpr read
  have suits := (typed.fits cell).suits
  have entry {raw : Payload} (written : s.payload? = some raw) :=
    required_recordEntries typed matched distinct cell written
  rw [loadColumn_eq_ok]
  rcases s with _ | v | (_ | y) | ys
  · cases set
  · exact ⟨v.toPayload, v.shown, entry rfl, suits.2.coercePayload _ _, rfl, rfl⟩
  · rw [suits.1] at scalar
    cases scalar
  · rw [suits.1] at scalar
    cases scalar
  · rw [suits.1] at scalar
    cases scalar

theorem loadRelated_slot (relation : j.attr.isRelation = true) (suits : s.Suits j.attr)
    (written : s.payload? = some raw)
    (below : ∀ y ∈ s.related, j.query.loadRecord y.toRecord = .ok y.reloaded) :
    loadRelated m j raw = .ok s.reloaded := by
  rcases s with _ | v | (_ | y) | ys
  · cases written
  · rw [suits.1] at relation
    cases relation
  · cases written
    exact (loadRelated_single suits.2.1).mpr (.inl ⟨rfl, suits.2.2, rfl⟩)
  · cases written
    refine (loadRelated_single suits.2).mpr (.inr ⟨_, _, y.toRecord_eq, ?_, rfl⟩)
    exact below y (List.mem_singleton.mpr rfl)
  · cases written
    refine (loadRelated_many suits.2).mpr ⟨_, _, rfl, ?_, rfl⟩
    rw [List.mapM_map]
    exact Outcome.mapM_ok below

theorem loadJoin_cell (typed : x.Typed) (matched : q.Matches x) (distinct : q.DistinctNames)
    (fits : j.Fits q.root) (mem : j ∈ q.joins) (cell : (j.toField, s) ∈ x.cells)
    (below : ∀ y ∈ s.related, j.query.loadRecord y.toRecord = .ok y.reloaded) :
    loadJoin q.root x.recordEntries j = .ok (j.field, s.reloaded) := by
  have set := (matched.isSet cell).mpr (List.mem_append_right _ (List.mem_map_of_mem mem))
  rw [← s.isSome_payload?, Option.isSome_iff_exists] at set
  obtain ⟨raw, written⟩ := set
  have entry := required_recordEntries typed matched distinct cell written
  have suits := (typed.fits cell).suits
  exact loadJoin_eq_ok.mpr ⟨raw, entry, loadRelated_slot fits.relation suits written below, rfl⟩

theorem lookup_reads (here : q.Consistent) (slot : Field → Slot Instance)
    (mem : f ∈ q.root.schema.fields) :
    (q.reads.map fun f => (f.name, slot f)).lookup f.name =
      if f ∈ q.reads then some (slot f) else none := by
  have names := here.built.valid _ q.root.mem
  cases found : (q.reads.map fun f => (f.name, slot f)).lookup f.name with
  | none =>
    rw [List.lookup_eq_none_iff] at found
    rw [if_neg fun read => by simpa using found _ (List.mem_map_of_mem read)]
  | some t =>
    obtain ⟨before, after, split, _⟩ := List.lookup_eq_some_iff.mp found
    have entry : (f.name, t) ∈ q.reads.map fun f => (f.name, slot f) := by
      rw [split]
      exact List.mem_append_right _ List.mem_cons_self
    obtain ⟨g, read, same⟩ := List.mem_map.mp entry
    obtain ⟨name, rfl⟩ := Prod.mk.inj same
    obtain rfl := names.eq_of_name (here.reads_fields read) mem name
    rw [if_pos read]

/-- The slots that are read, put in their places, are all that the instance has. -/
theorem ofSlots_reads (here : q.Consistent) (sound : x.Sound) (matched : q.Matches x) :
    Instance.ofSlots q.root (q.reads.map fun f => (f.name, (x.slotFor f).reloaded)) =
      x.reloaded := by
  have slot {f : Field} {s : Slot Instance} (cell : (f, s) ∈ x.cells) :
      ((q.reads.map fun f => (f.name, (x.slotFor f).reloaded)).lookup f.name).getD .unset =
        s.reloaded := by
    have mem : f ∈ q.root.schema.fields := matched.model ▸ Instance.mem_fields_of_mem_cells cell
    rw [lookup_reads here (fun f => (x.slotFor f).reloaded) mem,
      Instance.slotFor_eq sound.cells_once cell]
    by_cases read : f ∈ q.reads
    · rw [if_pos read]
      rfl
    · rw [if_neg read]
      cases s with
      | unset => rfl
      | _ => exact absurd ((matched.isSet cell).mp rfl) read
  rw [Instance.reloaded_eq, Instance.ofSlots, ← matched.model]
  congr 1
  · rw [← Instance.map_snd_cells sound.width, ← Instance.map_fst_cells sound.width, List.map_map,
      List.map_map]
    exact List.map_congr_left fun cell inside => slot inside
  · rw [List.map_const', List.map_const', sound.flags]

theorem loadRecord_toRecord (matched : q.Matches x) : q.WellFormed → q.DistinctNames → x.Typed →
    q.loadRecord x.toRecord = .ok x.reloaded := by
  induction matched with
  | @intro q x model exact below ih =>
    intro wellFormed distinct typed
    have matched : q.Matches x := .intro model exact below
    have here := wellFormed.here
    have cell {f : Field} (read : f ∈ q.reads) : (f, x.slotFor f) ∈ x.cells :=
      typed.here.cell_slotFor (model ▸ here.reads_fields read)
    have columns : q.selected.mapM (loadColumn q.root x.recordEntries) =
        .ok (q.selected.map fun f => (f.name, (x.slotFor f).reloaded)) := by
      apply Outcome.mapM_ok
      intro f hf
      have read : f ∈ q.reads := List.mem_append_left _ hf
      exact loadColumn_cell typed matched distinct read (here.selected_scalar hf).2 (cell read)
    have joins : q.joins.mapM (loadJoin q.root x.recordEntries) =
        .ok (q.joins.map fun j => (j.field, (x.slotFor j.toField).reloaded)) := by
      apply Outcome.mapM_ok
      intro j hj
      have inside := cell (List.mem_append_right _ (List.mem_map_of_mem hj))
      apply loadJoin_cell typed matched distinct (here.joins_fit j hj) hj inside
      intro y hy
      exact ih _ _ inside j hj rfl y hy (wellFormed.joined hj) (distinct.joined hj)
        ((typed.fits inside).below y hy)
    rw [x.toRecord_eq]
    refine loadRecord_eq_ok.mpr ⟨_, _, _, rfl, columns, joins, ?_⟩
    rw [← ofSlots_reads here typed.here matched, reads, List.map_append, List.map_map]
    rfl

/-! ### From records -/

/-- What loading has put into the slot of a field. -/
structure Loaded (q : Query) (f : Field) (s : Slot Instance) : Prop where
  set : s.isSet = true
  read : f ∈ q.reads
  settled : s.reloaded = s
  inner : ∀ j ∈ q.joins, j.toField = f → ∀ y ∈ s.related, j.query.Matches y

theorem loaded_column {record : Payload.Entries} {name : String} (mem : f ∈ q.selected)
    (run : loadColumn m record f = .ok (name, s)) : Loaded q f s := by
  obtain ⟨_, v, _, taken, _, rfl⟩ := loadColumn_eq_ok.mp run
  have legible : v.Legible := Attribute.legible_of_coercePayload taken
  refine ⟨rfl, List.mem_append_left _ mem, ?_, fun _ _ _ _ hy => nomatch hy⟩
  rw [Slot.reloaded_value, Value.shown_of_legible legible]

theorem loadRelated_matches
    (below : ∀ p y, j.query.loadRecord p = .ok y → j.query.Matches y ∧ y.reloaded = y)
    (run : loadRelated m j raw = .ok s) :
    s.isSet = true ∧ s.reloaded = s ∧ ∀ y ∈ s.related, j.query.Matches y := by
  cases arity : j.attr.isMany with
  | true =>
    obtain ⟨records, ys, _, loaded, rfl⟩ := (loadRelated_many arity).mp run
    have each {y} (hy : y ∈ ys) : j.query.Matches y ∧ y.reloaded = y := by
      obtain ⟨p, _, step⟩ := Outcome.mem_of_mapM loaded hy
      exact below p y step
    have settled : ys.map Instance.reloaded = ys := by
      apply (List.map_congr_left fun y hy => (each hy).2).trans
      exact List.map_id _
    refine ⟨rfl, ?_, fun y hy => (each hy).1⟩
    rw [Slot.reloaded_many, settled]
  | false =>
    rcases (loadRelated_single arity).mp run with ⟨_, _, rfl⟩ | ⟨_, x, _, loaded, rfl⟩
    · exact ⟨rfl, rfl, fun y hy => absurd hy List.not_mem_nil⟩
    · obtain ⟨matched, settled⟩ := below _ x loaded
      refine ⟨rfl, by rw [Slot.reloaded_one, settled], fun y hy => ?_⟩
      obtain rfl := List.mem_singleton.mp hy
      exact matched

theorem loaded_join {record : Payload.Entries} {name : String}
    (distinct : (q.joins.map Join.field).Nodup) (mem : j ∈ q.joins)
    (below : ∀ p y, j.query.loadRecord p = .ok y → j.query.Matches y ∧ y.reloaded = y)
    (run : loadJoin m record j = .ok (name, s)) : Loaded q j.toField s := by
  obtain ⟨raw, _, loaded, _⟩ := loadJoin_eq_ok.mp run
  obtain ⟨set, settled, inner⟩ := loadRelated_matches below loaded
  refine ⟨set, List.mem_append_right _ (List.mem_map_of_mem mem), settled, fun k hk same => ?_⟩
  obtain rfl := List.inj_on_of_nodup_map distinct hk mem (congrArg Field.name same)
  exact inner

section

variable {assigned : List (String × Slot Instance)}

/-- A field is read and was loaded, or it is not read and stays unset. -/
theorem cell_ofSlots
    (loaded : ∀ f s, f ∈ q.root.schema.fields → (f.name, s) ∈ assigned → Loaded q f s)
    (entered : ∀ f ∈ q.reads, ∃ s, (f.name, s) ∈ assigned)
    (cell : (f, s) ∈ (Instance.ofSlots q.root assigned).cells) :
    s = .unset ∧ f ∉ q.reads ∨ Loaded q f s := by
  obtain ⟨mem, rfl⟩ := Instance.mem_cells_ofSlots.mp cell
  cases found : assigned.lookup f.name with
  | none =>
    refine .inl ⟨rfl, fun read => ?_⟩
    obtain ⟨s, entry⟩ := entered f read
    simpa using List.lookup_eq_none_iff.mp found _ entry
  | some s =>
    obtain ⟨before, after, split, _⟩ := List.lookup_eq_some_iff.mp found
    exact .inr (loaded f s mem (split ▸ List.mem_append_right _ List.mem_cons_self))

theorem matches_ofSlots
    (cases : ∀ f s, (f, s) ∈ (Instance.ofSlots q.root assigned).cells →
      s = .unset ∧ f ∉ q.reads ∨ Loaded q f s) : q.Matches (.ofSlots q.root assigned) := by
  refine .intro rfl (fun f s cell => ?_) fun f s cell j hj same => ?_
  · rcases cases f s cell with ⟨rfl, unread⟩ | loaded
    · exact ⟨(nomatch ·), fun read => absurd read unread⟩
    · exact ⟨fun _ => loaded.read, fun _ => loaded.set⟩
  · rcases cases f s cell with ⟨rfl, _⟩ | loaded
    · exact fun _ => (nomatch ·)
    · exact loaded.inner j hj same

theorem reloaded_ofSlots
    (cases : ∀ f s, (f, s) ∈ (Instance.ofSlots q.root assigned).cells →
      s = .unset ∧ f ∉ q.reads ∨ Loaded q f s) :
    (Instance.ofSlots q.root assigned).reloaded = .ofSlots q.root assigned := by
  rw [Instance.reloaded_eq, Instance.ofSlots]
  dsimp only
  rw [List.map_map, List.map_map]
  congr 1
  apply List.map_congr_left
  intro f mem
  rcases cases f _ (Instance.mem_cells_ofSlots.mpr ⟨mem, rfl⟩) with ⟨unset, _⟩ | loaded
  · rw [Function.comp, unset]
    rfl
  · exact loaded.settled

end

/-- What a query has loaded matches it, is legible and has no changes. -/
theorem WellFormed.loadRecord_matches (h : q.WellFormed) :
    ∀ p x, q.loadRecord p = .ok x → q.Matches x ∧ x.reloaded = x := by
  induction h with
  | @intro q here _ ih =>
    intro p x run
    obtain ⟨record, scalars, related, _, columns, joins, rfl⟩ := loadRecord_eq_ok.mp run
    have names := here.built.valid _ q.root.mem
    have loaded f s (mem : f ∈ q.root.schema.fields) (entry : (f.name, s) ∈ scalars ++ related) :
        Loaded q f s := by
      rcases List.mem_append.mp entry with entry | entry
      · obtain ⟨g, hg, step⟩ := Outcome.mem_of_mapM columns entry
        obtain rfl := names.eq_of_name mem (here.selected_scalar hg).1 (loadColumn_name step)
        exact loaded_column hg step
      · obtain ⟨j, hj, step⟩ := Outcome.mem_of_mapM joins entry
        obtain rfl := names.eq_of_name mem (here.join_field hj) (loadJoin_name step)
        exact loaded_join here.joins_distinct hj (ih j hj) step
    have entered f (read : f ∈ q.reads) : ∃ s, (f.name, s) ∈ scalars ++ related :=
      exists_loaded columns joins read
    have cells f s := cell_ofSlots (f := f) (s := s) loaded entered
    exact ⟨matches_ofSlots cells, reloaded_ofSlots cells⟩

/-! ### Names -/

/-- Registration keeps the external names of scalar fields apart. -/
theorem WellFormed.distinctNames (h : q.WellFormed) (joinless : q.joins = []) :
    q.DistinctNames := by
  have here := h.here
  have names := here.built.valid _ q.root.mem
  refine .intro ?_ fun j hj => ?_
  · rw [reads, joinless, List.map_nil, List.append_nil]
    apply here.selected_nodup.map_on
    intro f hf g hg same
    exact names.eq_of_externalName (Schema.mem_columns.mpr (here.selected_scalar hf))
      (Schema.mem_columns.mpr (here.selected_scalar hg)) same
  · rw [joinless] at hj
    cases hj

theorem reads_select (m : Model) : (select m).reads = m.schema.columns := by
  simp [reads, selected, fieldsOf, select]

/-- An instance with all scalar fields and no relationship set matches the query of all scalar
fields. -/
theorem matches_select
    (scalars : ∀ f s, (f, s) ∈ x.cells → (s.isSet = true ↔ f.attr.isRelation = false)) :
    (select x.model).Matches x := by
  refine .intro rfl (fun f s cell => ?_) fun _ _ _ j hj => nomatch hj
  rw [scalars f s cell, reads_select, Schema.mem_columns]
  exact (and_iff_right (Instance.mem_fields_of_mem_cells cell)).symm

/-! ### Whole loads -/

theorem load_single (listing : q.count = false) (loaded : q.loadRecord p = .ok x) :
    q.load [p] = .ok [x] := by
  refine load_eq_ok.mpr ⟨listing, Outcome.mapM_eq_ok.mpr ?_⟩
  exact .cons loaded .nil

/-- Loading the records of what was loaded changes nothing. -/
theorem WellFormed.load_again (h : q.WellFormed) (distinct : q.DistinctNames)
    {records : List Payload} {xs : List Instance} (run : q.load records = .ok xs) :
    q.load (xs.map Instance.toRecord) = .ok xs := by
  obtain ⟨listing, loaded⟩ := load_eq_ok.mp run
  refine load_eq_ok.mpr ⟨listing, ?_⟩
  have each : ∀ x ∈ xs, q.loadRecord x.toRecord = .ok (id x) := by
    intro x hx
    obtain ⟨p, _, step⟩ := Outcome.mem_of_mapM loaded hx
    obtain ⟨matched, settled⟩ := h.loadRecord_matches p x step
    rw [loadRecord_toRecord matched h distinct (h.loadRecord_typed p x step).1, settled]
    rfl
  rw [List.mapM_map]
  exact (Outcome.mapM_ok each).trans (congrArg _ (List.map_id xs))

end Query

/-! ### At the sample -/

namespace Sample

theorem firstUser_matches : (Query.select user).Matches firstUser := by
  have scalars : ∀ c ∈ firstUser.cells, (c.2.isSet = true ↔ c.1.attr.isRelation = false) := by
    decide
  exact Query.matches_select fun f s cell => scalars (f, s) cell

theorem firstAccount_matches : accountsListingUsers.Matches firstAccount := by
  have set : ∀ c ∈ firstAccount.cells,
      (c.2.isSet = true ↔ c.1 ∈ accountsListingUsers.reads) := by decide
  have once : (firstAccount.cells.map Prod.fst).Nodup := by decide
  refine .intro rfl (fun f s cell => set (f, s) cell) ?_
  rintro f s cell j hj rfl y hy
  obtain rfl := List.mem_singleton.mp hj
  obtain rfl := Instance.slotFor_eq once cell
  obtain rfl := List.mem_singleton.mp hy
  exact firstUser_matches

theorem accountsListingUsers_distinctNames : accountsListingUsers.DistinctNames := by
  refine .intro (by decide) fun j hj => ?_
  obtain rfl := List.mem_singleton.mp hj
  exact (Query.select_wellFormed registry_built).distinctNames rfl

theorem overrunEvent_matches : (Query.select event).Matches overrunEvent := by
  have scalars : ∀ c ∈ overrunEvent.cells, (c.2.isSet = true ↔ c.1.attr.isRelation = false) := by
    decide
  exact Query.matches_select fun f s cell => scalars (f, s) cell

end Sample

end RecordQuery
