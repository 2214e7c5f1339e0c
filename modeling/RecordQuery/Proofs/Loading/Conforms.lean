import RecordQuery.Proofs.Loading.Agreement

/-!
# Records that conform to a query

A record conforms to a query when every column that is selected has an entry that the attribute
takes, and every join an entry whose records conform to the joined query. These are the records that
are loaded. What comes out is given slot by slot, and depends on nothing but the entries that the
query reads.
-/

namespace RecordQuery

/-- The payload stands for several records: null for none, a list, or an envelope with a list. -/
inductive Payload.Lists : Payload → List Payload → Prop
  | null : Lists .null []
  | list {items : List Payload} : Lists (.list items) items
  | envelope {entries : Payload.Entries} {items : List Payload}
      (entry : entries.lookup Payload.recordsKey = some (.list items)) :
      Lists (.mapping entries) items

theorem Payload.records_eq_ok {p : Payload} {schema field : String} {items : List Payload} :
    p.records schema field = .ok items ↔ p.Lists items := by
  constructor
  · intro h
    unfold Payload.records at h
    split at h
    · cases h
      exact .null
    · cases h
      exact .list
    · split at h
      · next entry =>
        cases h
        exact .envelope entry
      · cases h
    · cases h
  · intro h
    cases h with
    | null => rfl
    | list => rfl
    | envelope entry => rw [Payload.records, entry]

namespace Query

mutual

inductive Conforms : Query → Payload → Prop
  | intro {q : Query} {record : Payload.Entries}
      (columns : ∀ f ∈ q.selected, ∃ raw v, record.lookup f.attr.externalName = some raw ∧
        f.attr.coercePayload q.root.name f.name raw = .ok v)
      (joins : ∀ j ∈ q.joins, Supplies j (record.lookup j.attr.externalName)) :
      Conforms q (.mapping record)

/-- The entry of a record that a join is loaded from. -/
inductive Supplies : Join Query → Option Payload → Prop
  | many {j : Join Query} {raw : Payload} {items : List Payload} (many : j.attr.isMany = true)
      (lists : raw.Lists items) (inner : ∀ item ∈ items, Conforms j.query item) :
      Supplies j (some raw)
  | null {j : Join Query} (single : j.attr.isMany = false) (nullable : j.attr.nullable = true) :
      Supplies j (some .null)
  | one {j : Join Query} {raw : Payload} (single : j.attr.isMany = false)
      (inner : Conforms j.query raw) : Supplies j (some raw)

end

mutual

/-- The instance that comes from loading a payload. -/
inductive Yields : Query → Payload → Instance → Prop
  | intro {q : Query} {record : Payload.Entries} {slots : List (Slot Instance)}
      (width : q.root.schema.fields.length = slots.length)
      (fills : ∀ f s, (f, s) ∈ q.root.schema.fields.zip slots → Fills q record f s) :
      Yields q (.mapping record) ⟨q.root, slots, q.root.schema.fields.map fun _ => false⟩

/-- The slot that a field of the root has in that instance. -/
inductive Fills : Query → Payload.Entries → Field → Slot Instance → Prop
  | column {q : Query} {record : Payload.Entries} {f : Field} {raw : Payload} {v : Value}
      (selected : f ∈ q.selected) (entry : record.lookup f.attr.externalName = some raw)
      (taken : f.attr.coercePayload q.root.name f.name raw = .ok v) : Fills q record f (.value v)
  | many {q : Query} {record : Payload.Entries} {j : Join Query} {raw : Payload}
      {items : List Payload} {xs : List Instance} (joined : j ∈ q.joins)
      (many : j.attr.isMany = true) (entry : record.lookup j.attr.externalName = some raw)
      (lists : raw.Lists items) (length : items.length = xs.length)
      (inner : ∀ item x, (item, x) ∈ items.zip xs → Yields j.query item x) :
      Fills q record j.toField (.many xs)
  | absent {q : Query} {record : Payload.Entries} {j : Join Query} (joined : j ∈ q.joins)
      (single : j.attr.isMany = false) (entry : record.lookup j.attr.externalName = some .null)
      (nullable : j.attr.nullable = true) : Fills q record j.toField (.one none)
  | one {q : Query} {record : Payload.Entries} {j : Join Query} {raw : Payload} {x : Instance}
      (joined : j ∈ q.joins) (single : j.attr.isMany = false)
      (entry : record.lookup j.attr.externalName = some raw) (inner : Yields j.query raw x) :
      Fills q record j.toField (.one (some x))
  | unread {q : Query} {record : Payload.Entries} {f : Field} (unread : f ∉ q.reads) :
      Fills q record f .unset

end

mutual

/-- Two payloads have the same entries wherever a query reads them. -/
inductive Alike : Query → Payload → Payload → Prop
  | same {q : Query} {p : Payload} : Alike q p p
  | record {q : Query} {left right : Payload.Entries}
      (columns : ∀ f ∈ q.selected,
        left.lookup f.attr.externalName = right.lookup f.attr.externalName)
      (joins : ∀ j ∈ q.joins,
        Matching j (left.lookup j.attr.externalName) (right.lookup j.attr.externalName)) :
      Alike q (.mapping left) (.mapping right)

/-- Two entries that a join is loaded from. -/
inductive Matching : Join Query → Option Payload → Option Payload → Prop
  | same {j : Join Query} {entry : Option Payload} : Matching j entry entry
  | many {j : Join Query} {left right : Payload} {items others : List Payload}
      (many : j.attr.isMany = true) (lists : left.Lists items) (lists' : right.Lists others)
      (length : items.length = others.length)
      (inner : ∀ item other, (item, other) ∈ items.zip others → Alike j.query item other) :
      Matching j (some left) (some right)
  | envelope {j : Join Query} {left right : Payload.Entries} (many : j.attr.isMany = true)
      (entry : left.lookup Payload.recordsKey = right.lookup Payload.recordsKey) :
      Matching j (some (.mapping left)) (some (.mapping right))
  | one {j : Join Query} {left right : Payload.Entries} (single : j.attr.isMany = false)
      (inner : Alike j.query (.mapping left) (.mapping right)) :
      Matching j (some (.mapping left)) (some (.mapping right))

end

variable {q : Query} {m : Model} {j : Join Query} {f : Field} {s : Slot Instance} {p raw : Payload}
  {x : Instance} {record left right : Payload.Entries} {schema field : String}

/-! ### What is loaded -/

theorem Yields.mapping (h : q.Yields p x) : ∃ record, p = .mapping record := by
  cases h
  exact ⟨_, rfl⟩

theorem Fills.loadField (here : q.Consistent) (mem : f ∈ q.root.schema.fields)
    (below : ∀ j ∈ q.joins, ∀ p x, j.query.Yields p x → j.query.loadRecord p = .ok x)
    (h : Fills q record f s) : q.loadField record f = .ok s := by
  cases h with
  | column selected entry taken =>
    rw [loadField_selected selected, loadColumn_eq_ok]
    exact ⟨_, _, required_eq_ok.mpr entry, taken, rfl, rfl⟩
  | @many _ _ j raw items xs joined many entry lists length inner =>
    have records : items.mapM j.query.loadRecord = .ok xs := by
      rw [Outcome.mapM_eq_ok, List.forall₂_iff_zip]
      exact ⟨length, fun mem => below j joined _ _ (inner _ _ mem)⟩
    have slot : loadRelated q.root j raw = .ok (.many xs) :=
      (loadRelated_many many).mpr ⟨items, xs, Payload.records_eq_ok.mpr lists, records, rfl⟩
    rw [here.loadField_join joined, loadJoin_eq_ok]
    exact ⟨raw, required_eq_ok.mpr entry, slot, rfl⟩
  | @absent _ _ j joined single entry nullable =>
    have slot : loadRelated q.root j .null = .ok (.one none) :=
      (loadRelated_single single).mpr (.inl ⟨rfl, nullable, rfl⟩)
    rw [here.loadField_join joined, loadJoin_eq_ok]
    exact ⟨.null, required_eq_ok.mpr entry, slot, rfl⟩
  | @one _ _ j raw x joined single entry inner =>
    obtain ⟨entries, rfl⟩ := inner.mapping
    have slot : loadRelated q.root j (.mapping entries) = .ok (.one (some x)) :=
      (loadRelated_single single).mpr (.inr ⟨entries, x, rfl, below j joined _ x inner, rfl⟩)
    rw [here.loadField_join joined, loadJoin_eq_ok]
    exact ⟨_, required_eq_ok.mpr entry, slot, rfl⟩
  | unread unread => exact here.loadField_unread mem unread

theorem Consistent.fills_of_loadField (here : q.Consistent) (mem : f ∈ q.root.schema.fields)
    (below : ∀ j ∈ q.joins, ∀ p x, j.query.loadRecord p = .ok x → j.query.Yields p x)
    (run : q.loadField record f = .ok s) : Fills q record f s := by
  by_cases read : f ∈ q.reads
  · rcases List.mem_append.mp read with selected | mem
    · rw [loadField_selected selected, loadColumn_eq_ok] at run
      obtain ⟨raw, v, entry, taken, _, rfl⟩ := run
      exact .column selected (required_eq_ok.mp entry) taken
    · obtain ⟨j, joined, rfl⟩ := List.mem_map.mp mem
      rw [here.loadField_join joined, loadJoin_eq_ok] at run
      obtain ⟨raw, entry, related, _⟩ := run
      rw [required_eq_ok] at entry
      cases arity : j.attr.isMany with
      | true =>
        obtain ⟨items, xs, lists, records, rfl⟩ := (loadRelated_many arity).mp related
        rw [Outcome.mapM_eq_ok, List.forall₂_iff_zip] at records
        refine .many joined arity entry (Payload.records_eq_ok.mp lists) records.1 ?_
        exact fun item x mem => below j joined item x (records.2 mem)
      | false =>
        rcases (loadRelated_single arity).mp related with
          ⟨rfl, nullable, rfl⟩ | ⟨entries, x, rfl, inner, rfl⟩
        · exact .absent joined arity entry nullable
        · exact .one joined arity entry (below j joined _ x inner)
  · rw [here.loadField_unread mem read] at run
    cases run
    exact .unread read

/-- Loading gives an instance exactly where the query yields it. -/
theorem WellFormed.loadRecord_iff_yields (h : q.WellFormed) :
    ∀ p x, q.loadRecord p = .ok x ↔ q.Yields p x := by
  induction h with
  | @intro q here _ ih =>
    intro p x
    rw [here.loadRecord_eq_ok]
    constructor
    · intro h
      obtain ⟨record, slots, rfl, walked, rfl⟩ := h
      rw [Outcome.mapM_eq_ok, List.forall₂_iff_zip] at walked
      refine .intro walked.1 fun f s mem => ?_
      apply here.fills_of_loadField (List.of_mem_zip mem).1 _ (walked.2 mem)
      exact fun j joined p x => (ih j joined p x).mp
    · intro h
      obtain ⟨width, fills⟩ := h
      refine ⟨_, _, rfl, ?_, rfl⟩
      rw [Outcome.mapM_eq_ok, List.forall₂_iff_zip]
      refine ⟨width, fun mem => (fills _ _ mem).loadField here (List.of_mem_zip mem).1 ?_⟩
      exact fun j joined p x => (ih j joined p x).mpr

/-! ### What conforms -/

theorem exists_loadJoin_iff
    (below : ∀ p, (∃ x, j.query.loadRecord p = .ok x) ↔ j.query.Conforms p) :
    (∃ slot, loadJoin m record j = .ok slot) ↔
      Supplies j (record.lookup j.attr.externalName) := by
  constructor
  · intro h
    obtain ⟨⟨_, s⟩, loaded⟩ := h
    obtain ⟨raw, entry, related, _⟩ := loadJoin_eq_ok.mp loaded
    rw [required_eq_ok.mp entry]
    cases arity : j.attr.isMany with
    | true =>
      obtain ⟨items, xs, lists, records, _⟩ := (loadRelated_many arity).mp related
      refine .many arity (Payload.records_eq_ok.mp lists) fun item mem => ?_
      exact (below item).mp (Outcome.exists_mapM_eq_ok.mp ⟨xs, records⟩ item mem)
    | false =>
      rcases (loadRelated_single arity).mp related with ⟨rfl, nullable, _⟩ | ⟨_, x, _, inner, _⟩
      · exact .null arity nullable
      · exact .one arity ((below raw).mp ⟨x, inner⟩)
  · intro h
    generalize entry : record.lookup j.attr.externalName = found at h
    cases h with
    | @many _ raw items many lists inner =>
      obtain ⟨xs, records⟩ := Outcome.exists_mapM_eq_ok.mpr fun item mem =>
        (below item).mpr (inner item mem)
      have slot : loadRelated m j raw = .ok (.many xs) :=
        (loadRelated_many many).mpr ⟨items, xs, Payload.records_eq_ok.mpr lists, records, rfl⟩
      exact ⟨_, loadJoin_eq_ok.mpr ⟨raw, required_eq_ok.mpr entry, slot, rfl⟩⟩
    | null single nullable =>
      have slot : loadRelated m j .null = .ok (.one none) :=
        (loadRelated_single single).mpr (.inl ⟨rfl, nullable, rfl⟩)
      exact ⟨_, loadJoin_eq_ok.mpr ⟨.null, required_eq_ok.mpr entry, slot, rfl⟩⟩
    | @one _ raw single inner =>
      obtain ⟨x, loaded⟩ := (below raw).mpr inner
      obtain ⟨entries, _, _, read, _⟩ := loadRecord_eq_ok.mp loaded
      have slot : loadRelated m j raw = .ok (.one (some x)) :=
        (loadRelated_single single).mpr (.inr ⟨entries, x, Payload.record_eq_ok.mp read, loaded, rfl⟩)
      exact ⟨_, loadJoin_eq_ok.mpr ⟨raw, required_eq_ok.mpr entry, slot, rfl⟩⟩

/-- A record is loaded exactly when it conforms. -/
theorem WellFormed.exists_loadRecord_iff (h : q.WellFormed) :
    ∀ p, (∃ x, q.loadRecord p = .ok x) ↔ q.Conforms p := by
  induction h with
  | @intro q _ _ ih =>
    have column {record} f : (∃ slot, loadColumn q.root record f = .ok slot) ↔
        ∃ raw v, record.lookup f.attr.externalName = some raw ∧
          f.attr.coercePayload q.root.name f.name raw = .ok v := by
      constructor
      · intro h
        obtain ⟨⟨_, s⟩, loaded⟩ := h
        obtain ⟨raw, v, entry, taken, _⟩ := loadColumn_eq_ok.mp loaded
        exact ⟨raw, v, required_eq_ok.mp entry, taken⟩
      · intro h
        obtain ⟨raw, v, entry, taken⟩ := h
        exact ⟨_, loadColumn_eq_ok.mpr ⟨raw, v, required_eq_ok.mpr entry, taken, rfl, rfl⟩⟩
    intro p
    constructor
    · intro h
      obtain ⟨x, loaded⟩ := h
      obtain ⟨record, scalars, related, read, columns, joins, _⟩ := loadRecord_eq_ok.mp loaded
      obtain rfl := Payload.record_eq_ok.mp read
      refine .intro (fun f selected => ?_) fun j joined => ?_
      · exact (column f).mp (Outcome.exists_mapM_eq_ok.mp ⟨_, columns⟩ f selected)
      · apply (exists_loadJoin_iff (m := q.root) (ih j joined)).mp
        exact Outcome.exists_mapM_eq_ok.mp ⟨_, joins⟩ j joined
    · intro h
      obtain ⟨columns, joins⟩ := h
      obtain ⟨scalars, columns⟩ := Outcome.exists_mapM_eq_ok.mpr fun f selected =>
        (column f).mpr (columns f selected)
      obtain ⟨related, joins⟩ := Outcome.exists_mapM_eq_ok.mpr fun j joined =>
        (exists_loadJoin_iff (m := q.root) (ih j joined)).mpr (joins j joined)
      exact ⟨_, loadRecord_eq_ok.mpr ⟨_, scalars, related, rfl, columns, joins, rfl⟩⟩

/-! ### What is not looked at -/

theorem loadJoin_entry (entry : record.lookup j.attr.externalName = some raw) :
    loadJoin m record j = do return (j.field, ← loadRelated m j raw) := by
  rw [loadJoin, required_eq_ok.mpr entry, Outcome.ok_bind]

theorem loadColumn_congr
    (same : left.lookup f.attr.externalName = right.lookup f.attr.externalName) :
    loadColumn m left f = loadColumn m right f := by
  rw [loadColumn, loadColumn, required, required, same]

mutual

/-- Loading gives the same instance or the same error for payloads that are alike. -/
theorem Alike.loadRecord : ∀ {q : Query} {p p' : Payload}, q.Alike p p' →
    q.loadRecord p = q.loadRecord p'
  | _, _, _, .same => rfl
  | q, .mapping left, .mapping right, .record columns joins => by
    have scalars : q.selected.mapM (loadColumn q.root left) =
        q.selected.mapM (loadColumn q.root right) :=
      Outcome.mapM_congr fun f selected => loadColumn_congr (columns f selected)
    have related : q.joins.mapM (loadJoin q.root left) = q.joins.mapM (loadJoin q.root right) :=
      Outcome.mapM_congr fun j joined => (joins j joined).loadJoin rfl rfl
    rw [loadRecord_eq, loadRecord_eq]
    simp only [Payload.record, Outcome.ok_bind, scalars, related]

theorem Matching.loadJoin : ∀ {j : Join Query} {entry other : Option Payload},
    Matching j entry other → ∀ {m : Model} {left right : Payload.Entries},
      left.lookup j.attr.externalName = entry → right.lookup j.attr.externalName = other →
        loadJoin m left j = loadJoin m right j
  | _, _, _, .same, m, left, right, found, found' => by
    rw [Query.loadJoin, Query.loadJoin, required, required, found, found']
  | j, _, _, .many many lists lists' length inner, m, left, right, found, found' => by
    have records := Outcome.mapM_zip_congr length fun item other mem =>
      (inner item other mem).loadRecord
    rw [loadJoin_entry found, loadJoin_entry found']
    unfold loadRelated
    simp only [many, if_true, Payload.records_eq_ok.mpr lists, Payload.records_eq_ok.mpr lists',
      Outcome.ok_bind, records]
  | j, _, _, .envelope many same, m, left, right, found, found' => by
    rw [loadJoin_entry found, loadJoin_entry found', loadRelated, loadRelated]
    simp only [many, if_true, Payload.records, same, Payload.mismatch, Payload.shape]
  | j, _, _, .one single inner, m, left, right, found, found' => by
    rw [loadJoin_entry found, loadJoin_entry found', loadRelated, loadRelated]
    simp only [single, Bool.false_eq_true, if_false, inner.loadRecord]

end

/-! ### Whole loads -/

theorem load_single_eq_error {e : Error} (listing : q.count = false) :
    q.load [p] = .error e ↔ q.loadRecord p = .error e := by
  rw [load, listing, if_neg Bool.false_ne_true, List.mapM_cons, Outcome.bind_eq_error]
  simp

/-- A record is loaded exactly when it conforms, and the instance is the one that the query yields.
Payloads that are alike are loaded alike. A list of records gives the list of what each of them
gives, or the error of the first that fails. -/
theorem load_iff_conforms (reachable : q.Reachable) (listing : q.count = false) :
    (∀ p, (∃ xs, q.load [p] = .ok xs) ↔ q.Conforms p) ∧
    (∀ p xs, q.load [p] = .ok xs ↔ ∃ x, xs = [x] ∧ q.Yields p x) ∧
    (∀ p p', q.Alike p p' → q.load [p] = q.load [p']) ∧
    (∀ records xs, q.load records = .ok xs ↔
      List.Forall₂ (fun p x => q.load [p] = .ok [x]) records xs) ∧
    ∀ records e, q.load records = .error e ↔ ∃ before p after, records = before ++ p :: after ∧
      (∀ b ∈ before, ∃ x, q.load [b] = .ok [x]) ∧ q.load [p] = .error e := by
  have wellFormed := reachable.wellFormed
  have single p x : q.load [p] = .ok [x] ↔ q.loadRecord p = .ok x := by
    rw [load_single_eq_ok listing]
    simp
  refine ⟨fun p => ?_, fun p xs => ?_, fun p p' alike => ?_, fun records xs => ?_,
    fun records e => ?_⟩
  · rw [← wellFormed.exists_loadRecord_iff p]
    constructor
    · intro h
      obtain ⟨xs, run⟩ := h
      obtain ⟨x, _, loaded⟩ := (load_single_eq_ok listing).mp run
      exact ⟨x, loaded⟩
    · intro h
      obtain ⟨x, loaded⟩ := h
      exact ⟨[x], (single p x).mpr loaded⟩
  · simp only [load_single_eq_ok listing, wellFormed.loadRecord_iff_yields]
  · rw [load, load, listing, List.mapM_cons, List.mapM_cons, alike.loadRecord]
  · rw [load_eq_ok, and_iff_right listing, Outcome.mapM_eq_ok]
    simp only [single]
  · rw [load, listing, if_neg Bool.false_ne_true, Outcome.mapM_eq_error]
    simp only [single, load_single_eq_error listing]

end Query

/-! ### At the sample -/

namespace Sample

/-- The account with its users in an envelope, and with entries that are not read. -/
def envelopedRecord : Payload :=
  .mapping [("Id", .string "a1"), ("Phone", .string "555"), ("Size", .null),
    ("Users", .mapping [("done", .boolean true), ("records", .list [userRecord])])]

theorem envelopedRecord_alike : accountsListingUsers.Alike envelopedRecord accountRecord := by
  refine .record (fun f selected => ?_) fun j joined => ?_
  · have columns : accountsListingUsers.selected = [⟨"id", ⟨"Id", false, .scalar .string⟩⟩,
        ⟨"size", ⟨"Size", true, .scalar .float⟩⟩] := rfl
    rw [columns] at selected
    rcases List.mem_pair.mp selected with rfl | rfl
    · rfl
    · rfl
  · obtain rfl := List.mem_singleton.mp joined
    refine .many rfl (.envelope rfl) .list rfl fun item other mem => ?_
    obtain ⟨rfl, rfl⟩ := Prod.mk.inj (List.mem_singleton.mp mem)
    exact .same

theorem envelopedRecord_conforms : accountsListingUsers.Reachable ∧
    accountsListingUsers.count = false ∧ accountsListingUsers.Conforms envelopedRecord ∧
    accountsListingUsers.Yields envelopedRecord readAccount ∧
    accountsListingUsers.load [envelopedRecord] = accountsListingUsers.load [accountRecord] := by
  have reachable := accountsListingUsers_reachable
  obtain ⟨conforms, yields, alike, _⟩ := Query.load_iff_conforms reachable rfl
  have loaded : accountsListingUsers.load [envelopedRecord] = .ok [readAccount] := rfl
  obtain ⟨x, same, yielded⟩ := (yields _ _).mp loaded
  obtain ⟨rfl, _⟩ := List.cons.inj same
  exact ⟨reachable, rfl, (conforms _).mp ⟨_, loaded⟩, yielded, alike _ _ envelopedRecord_alike⟩

end Sample

end RecordQuery
