import RecordQuery.Proofs.Loading.ByType
import RecordQuery.Proofs.Loading.Fields
import RecordQuery.Proofs.Query.Plain

/-!
# Loading by a query and by type

A plain query and the schema of its root read the same fields of a record, provided that the record
has the relationships that are joined and no others, and names the types that the joins lead to.
Loading by the one or the other then succeeds for the same records, and with the same instances.
-/

namespace RecordQuery

namespace Query

/-- A query comes to read a payload in loading another: the payload itself, or what stands under the
external name of a join. -/
inductive Reaches : Query → Payload → Query → Payload → Prop
  | refl {q : Query} {p : Payload} : Reaches q p q p
  | single {q sub : Query} {p raw inner : Payload} {j : Join Query} (mem : j ∈ q.joins)
      (single : j.attr.isMany = false) (entry : p.get? j.attr.externalName = some raw)
      (below : Reaches j.query raw sub inner) : Reaches q p sub inner
  | many {q sub : Query} {p raw item inner : Payload} {items : List Payload} {j : Join Query}
      (mem : j ∈ q.joins) (many : j.attr.isMany = true)
      (entry : p.get? j.attr.externalName = some raw)
      (read : raw.records q.root.name j.field = .ok items) (listed : item ∈ items)
      (below : Reaches j.query item sub inner) : Reaches q p sub inner

/-- The record names no type but that of the root, and has the relationships that are joined. -/
structure Covers (q : Query) (p : Payload) : Prop where
  typed : ∀ name, p.recordType? = some name → name = q.root.objectName
  joined : ∀ f ∈ q.root.schema.fields, f.attr.isRelation = true → ∀ entries, p = .mapping entries →
    ((entries.lookup f.attr.externalName).isSome = true ↔ (q.joinFor? f.name).isSome = true)

variable {q sub : Query} {m : Model} {r : Registry} {p raw : Payload} {x : Instance} {f : Field}
  {j : Join Query} {s : Slot Instance} {record : Payload.Entries}

/-! ### One field -/

/-- A plain query reads every scalar field, as loading by type does. -/
theorem Plain.loadField_scalar (plain : q.Plain) (mem : f ∈ q.root.schema.fields)
    (scalar : f.attr.isRelation = false) :
    q.loadField record f = .ok s ↔ r.loadSlot record q.root f = .ok s := by
  have selected : f ∈ q.selected := by
    rw [Query.selected, fieldsOf, plain.whole]
    exact Schema.mem_columns.mpr ⟨mem, scalar⟩
  rw [loadField_selected selected, loadColumn_eq_ok, Registry.loadSlot_eq]
  simp only [required_eq_ok]
  cases record.lookup f.attr.externalName with
  | none => simp [scalar]
  | some raw =>
    dsimp only
    rw [Registry.loadEntry_scalar scalar]
    constructor
    · intro h
      obtain ⟨_, v, ⟨⟩, coerced, _, rfl⟩ := h
      exact ⟨v, coerced, rfl⟩
    · intro h
      obtain ⟨v, coerced, rfl⟩ := h
      exact ⟨raw, v, rfl, coerced, trivial, rfl⟩

/-- Both ways of loading agree on the records that a query reads. -/
def Agrees (q : Query) (r : Registry) (p : Payload) : Prop :=
  ∀ x, q.loadRecord p = .ok x ↔ r.loadRelated q.root p = .ok x

theorem loadRelated_agrees (fits : j.Fits m)
    (single : j.attr.isMany = false → j.query.Agrees r raw)
    (many : j.attr.isMany = true → ∀ items, raw.records m.name j.field = .ok items →
      ∀ p ∈ items, j.query.Agrees r p) :
    loadRelated m j raw = .ok s ↔ r.loadEntry m j.toField raw = .ok s := by
  cases arity : j.attr.isMany with
  | true =>
    rw [loadRelated_many arity, Registry.loadEntry_many (f := j.toField) fits.relation arity
      fits.resolved]
    refine exists_congr fun items => exists_congr fun xs => and_congr_right fun read => ?_
    exact and_congr_left' (Outcome.mapM_agree fun p mem => many arity items read p mem)
  | false =>
    rw [loadRelated_single arity]
    by_cases null : raw = .null
    · subst null
      rw [Registry.loadEntry_null (f := j.toField) fits.relation arity fits.resolved]
      simp [Join.toField]
    · rw [Registry.loadEntry_one (f := j.toField) fits.relation arity fits.resolved null]
      simp only [← single arity _]
      constructor
      · intro h
        rcases h with ⟨absurdly, _⟩ | ⟨entries, x, _, loaded, rfl⟩
        · exact absurd absurdly null
        · exact ⟨x, loaded, rfl⟩
      · intro h
        obtain ⟨x, loaded, rfl⟩ := h
        obtain ⟨entries, _, _, read, _⟩ := loadRecord_eq_ok.mp loaded
        exact .inr ⟨entries, x, Payload.record_eq_ok.mp read, loaded, rfl⟩

theorem Covers.loadField_relation (here : q.Consistent) (covers : q.Covers (.mapping record))
    (mem : f ∈ q.root.schema.fields) (relation : f.attr.isRelation = true)
    (inner : ∀ j ∈ q.joins, ∀ raw, record.lookup j.attr.externalName = some raw →
      (loadRelated q.root j raw = .ok s ↔ r.loadEntry q.root j.toField raw = .ok s)) :
    q.loadField record f = .ok s ↔ r.loadSlot record q.root f = .ok s := by
  have present := covers.joined f mem relation record rfl
  rw [Registry.loadSlot_eq]
  cases found : q.joinFor? f.name with
  | none =>
    have unread : f ∉ q.reads := by
      intro read
      rcases List.mem_append.mp read with selected | joined
      · rw [(here.selected_scalar selected).2] at relation
        cases relation
      · obtain ⟨j, hj, rfl⟩ := List.mem_map.mp joined
        cases found.symm.trans (here.joinFor?_field hj)
    rw [found, Option.isSome_none] at present
    cases absent : record.lookup f.attr.externalName with
    | none => simp only [here.loadField_unread mem unread, relation, if_true]
    | some raw => simp [absent] at present
  | some j =>
    obtain ⟨joined, name⟩ := joinFor?_eq_some found
    have names := here.built.valid _ q.root.mem
    obtain rfl := names.eq_of_name mem (here.join_field joined) name.symm
    rw [found] at present
    obtain ⟨raw, entry⟩ := Option.isSome_iff_exists.mp (present.mpr rfl)
    rw [here.loadField_join joined, loadJoin_eq_ok]
    simp only [required_eq_ok, entry]
    rw [← inner j joined raw entry]
    constructor
    · intro h
      obtain ⟨_, same, loaded, _⟩ := h
      cases entry.symm.trans same
      exact loaded
    · exact fun loaded => ⟨raw, entry, loaded, trivial⟩

/-! ### One record -/

/-- A record that names no other type than that of the model is loaded by the model. -/
theorem loadRelated_typed (built : m.registry.Built)
    (typed : ∀ name, p.recordType? = some name → name = m.objectName) :
    m.registry.loadRelated m p = m.registry.loadAs p m := by
  have own : m.registry.modelOf m p = .ok m := by
    unfold Registry.modelOf
    split
    · next name named =>
      obtain rfl := typed name named
      exact built.byObjectName_objectName
    · rfl
  rw [Registry.loadRelated, own]
  rfl

theorem Plain.loadRecord_agrees (wellFormed : q.WellFormed) : ∀ p, q.Plain →
    (∀ sub inner, q.Reaches p sub inner → sub.Covers inner) → q.Agrees q.root.registry p := by
  -- By the joins of the query: models lead on without end, and payloads further than is read.
  induction wellFormed with
  | @intro q here _ ih =>
    intro p plain reached x
    have covers := reached q p .refl
    rw [loadRelated_typed here.built covers.typed, here.loadRecord_eq_ok, Registry.loadAs_eq_ok]
    refine exists_congr fun record => exists_congr fun slots => and_congr_right fun mapping => ?_
    subst mapping
    refine and_congr_left' (Outcome.mapM_agree fun f mem s => ?_)
    cases relation : f.attr.isRelation with
    | false => exact plain.loadField_scalar mem relation
    | true =>
      refine covers.loadField_relation here mem relation fun j joined raw entry => ?_
      have fits := here.joins_fit j joined
      obtain ⟨_, _, _, own⟩ := Model.related_eq_ok fits.resolved
      have agrees p (below : ∀ sub inner, j.query.Reaches p sub inner → sub.Covers inner) :
          j.query.Agrees q.root.registry p :=
        own ▸ ih j joined p (plain.joined joined) below
      apply loadRelated_agrees fits
      · intro single
        refine agrees raw fun sub inner below => ?_
        exact reached sub inner (.single joined single entry below)
      · intro many items read item listed
        refine agrees item fun sub inner below => ?_
        exact reached sub inner (.many joined many entry read listed below)

/-! ### Whole loads -/

theorem load_single_eq_ok {xs : List Instance} (listing : q.count = false) :
    q.load [p] = .ok xs ↔ ∃ x, xs = [x] ∧ q.loadRecord p = .ok x := by
  rw [load_eq_ok, and_iff_right listing, Outcome.mapM_eq_ok, List.forall₂_cons_left_iff]
  constructor
  · intro h
    obtain ⟨x, rest, loaded, none, rfl⟩ := h
    cases none
    exact ⟨x, rfl, loaded⟩
  · intro h
    obtain ⟨x, rfl, loaded⟩ := h
    exact ⟨x, [], loaded, .nil, rfl⟩

/-- A query that only joins loads from a record of its type what the registry loads from it, and
fails where the registry fails. -/
theorem load_eq_loadRecord (joined : q.Joined m) (typed : p.recordType? = some m.objectName)
    (reached : ∀ sub inner, q.Reaches p sub inner → sub.Covers inner) :
    (∀ x, q.load [p] = .ok [x] ↔ m.registry.loadRecord p = .ok x) ∧
    ((∃ e, q.load [p] = .error e) ↔ ∃ e, m.registry.loadRecord p = .error e) := by
  obtain ⟨plain, rfl⟩ := joined.plain
  have wellFormed := joined.reachable.wellFormed
  have built := wellFormed.here.built
  have same x : q.loadRecord p = .ok x ↔ q.root.registry.loadRecord p = .ok x := by
    rw [plain.loadRecord_agrees wellFormed p reached x,
      loadRelated_typed built (reached q p .refl).typed, Registry.loadRecord_eq_ok]
    constructor
    · exact fun loaded => ⟨_, q.root, typed, built.byObjectName_objectName, loaded⟩
    · intro h
      obtain ⟨name, m, named, found, loaded⟩ := h
      cases typed.symm.trans named
      cases built.byObjectName_objectName.symm.trans found
      exact loaded
  constructor
  · intro x
    rw [load_single_eq_ok plain.listed, ← same]
    simp
  · simp only [Outcome.exists_error, ne_eq, load_single_eq_ok plain.listed, ← same]
    constructor
    · exact fun failed x loaded => failed [x] ⟨x, rfl, loaded⟩
    · rintro failed _ ⟨x, _, loaded⟩
      exact failed x loaded

end Query

/-! ### At the sample -/

namespace Sample

theorem accountsListingUsers_joined : accountsListingUsers.Joined account := by
  have step : (Query.select account).join accountUsers = .ok accountsListingUsers := rfl
  exact .join (.select registry_built) accountUsers_walked step

/-- A user of 2024 who names no type. -/
def userRecord : Payload :=
  .mapping [("Id", .string "u1"), ("Since", .string "2024-02-29")]

def accountRecord : Payload :=
  .mapping [("Id", .string "a1"), ("Size", .null), ("Users", .list [userRecord]),
    ("attributes", .mapping [("type", .string "Account")])]

theorem accountsListingUsers_covers : accountsListingUsers.Covers accountRecord where
  typed := by
    intro name named
    cases named
    rfl
  joined := by
    rintro f mem relation _ ⟨⟩
    revert f
    decide

theorem users_cover : (Query.select user).Covers userRecord where
  typed := fun _ named => nomatch named
  joined := by
    rintro f mem relation _ ⟨⟩
    revert f
    decide

theorem accountRecord_reached : ∀ sub inner,
    accountsListingUsers.Reaches accountRecord sub inner → sub.Covers inner := by
  intro sub inner reached
  rcases reached with _ | ⟨mem, single, _, _⟩ | ⟨mem, _, entry, read, listed, below⟩
  · exact accountsListingUsers_covers
  · obtain rfl := List.mem_singleton.mp mem
    cases single
  · obtain rfl := List.mem_singleton.mp mem
    cases entry
    cases read
    obtain rfl := List.mem_singleton.mp listed
    rcases below with _ | ⟨mem, _, _, _⟩ | ⟨mem, _, _, _, _, _⟩
    · exact users_cover
    · cases mem
    · cases mem

def readUser : Instance :=
  ⟨user, [.value (.string "u1"), .value (.date ⟨2024, 2, 29, by decide⟩), .unset],
    [false, false, false]⟩

def readAccount : Instance :=
  ⟨account, [.value (.string "a1"), .value .null, .unset, .many [readUser]],
    [false, false, false, false]⟩

theorem accountRecord_loaded : accountsListingUsers.Joined account ∧
    accountRecord.recordType? = some account.objectName ∧
    (∀ sub inner, accountsListingUsers.Reaches accountRecord sub inner → sub.Covers inner) ∧
    accountsListingUsers.load [accountRecord] = .ok [readAccount] ∧
    registry.loadRecord accountRecord = .ok readAccount := by
  have agree := (Query.load_eq_loadRecord accountsListingUsers_joined (p := accountRecord) rfl
    accountRecord_reached).1 readAccount
  have loaded : accountsListingUsers.load [accountRecord] = .ok [readAccount] := rfl
  exact ⟨accountsListingUsers_joined, rfl, accountRecord_reached, loaded, agree.mp loaded⟩

end Sample

end RecordQuery
