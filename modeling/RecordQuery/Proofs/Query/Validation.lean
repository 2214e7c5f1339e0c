import RecordQuery.Proofs.Query.WellFormed

/-!
# What a query refuses

Columns, a filter and a sort key are checked before they become part of a query. Here it is said
exactly what passes and what is changed then, and which path the error names when something does not
pass: the first one from the left that does not belong to the query.
-/

namespace RecordQuery

/-! ### The first path from the left -/

namespace Condition

/-- The first path from the left that is not as wanted. Paths inside subqueries do not count. -/
inductive FirstNot (wanted : AttributePath → Prop) : Condition → AttributePath → Prop
  | here {p : AttributePath} {comparator : Comparator} {operand : Operand} (unwanted : ¬ wanted p) :
      FirstNot wanted (.compare p comparator operand) p
  | inJunction {kind : Junction} {before after : List Condition} {c : Condition}
      {p : AttributePath} (passed : ∀ b ∈ before, ∀ e, b.Compares e → wanted e)
      (first : FirstNot wanted c p) : FirstNot wanted (.junction kind (before ++ c :: after)) p
  | underNot {c : Condition} {p : AttributePath} (first : FirstNot wanted c p) :
      FirstNot wanted (.not c) p

/-- The first path of a list that is not as wanted. -/
def FirstAmong (wanted : AttributePath → Prop) (paths : List AttributePath) (p : AttributePath) :
    Prop :=
  ∃ before after, paths = before ++ p :: after ∧ (∀ e ∈ before, wanted e) ∧ ¬ wanted p

variable {wanted : AttributePath → Prop} {p e : AttributePath} {xs ys : List AttributePath}

theorem firstAmong_nil : ¬ FirstAmong wanted [] p := by
  rintro ⟨before, after, split, _⟩
  cases before <;> cases split

theorem firstAmong_cons : FirstAmong wanted (e :: xs) p ↔
    e = p ∧ ¬ wanted p ∨ wanted e ∧ FirstAmong wanted xs p := by
  constructor
  · rintro ⟨_ | ⟨first, before⟩, after, split, passed, unwanted⟩
    · obtain ⟨rfl, rfl⟩ := List.cons.inj split
      exact .inl ⟨rfl, unwanted⟩
    · obtain ⟨rfl, rfl⟩ := List.cons.inj split
      obtain ⟨here, passed⟩ := List.forall_mem_cons.mp passed
      exact .inr ⟨here, before, after, rfl, passed, unwanted⟩
  · rintro (⟨rfl, unwanted⟩ | ⟨here, before, after, rfl, passed, unwanted⟩)
    · exact ⟨[], xs, rfl, List.forall_mem_nil _, unwanted⟩
    · exact ⟨e :: before, after, rfl, List.forall_mem_cons.mpr ⟨here, passed⟩, unwanted⟩

theorem firstAmong_append : FirstAmong wanted (xs ++ ys) p ↔
    FirstAmong wanted xs p ∨ (∀ e ∈ xs, wanted e) ∧ FirstAmong wanted ys p := by
  induction xs with
  | nil => simp [firstAmong_nil]
  | cons e rest ih =>
    rw [List.cons_append, firstAmong_cons, firstAmong_cons, ih, List.forall_mem_cons]
    tauto

mutual

/-- The paths are walked through from left to right. -/
theorem firstNot_iff : ∀ c : Condition, c.FirstNot wanted p ↔ FirstAmong wanted c.paths p
  | .compare path comparator operand => by
    rw [paths, firstAmong_cons]
    simp only [firstAmong_nil, and_false, or_false]
    constructor
    · intro first
      cases first with
      | here unwanted => exact ⟨rfl, unwanted⟩
    · rintro ⟨rfl, unwanted⟩
      exact .here unwanted
  | .junction kind children => by
    rw [paths, ← firstNotAll_iff children]
    constructor
    · rintro (_ | ⟨passed, first⟩)
      exact ⟨_, _, _, rfl, passed, first⟩
    · rintro ⟨before, c, after, rfl, passed, first⟩
      exact .inJunction passed first
  | .not c => by
    rw [paths, ← firstNot_iff c]
    constructor
    · rintro (_ | _ | first)
      exact first
    · exact .underNot

theorem firstNotAll_iff : ∀ cs : List Condition,
    (∃ before c after, cs = before ++ c :: after ∧
      (∀ b ∈ before, ∀ e, b.Compares e → wanted e) ∧ c.FirstNot wanted p) ↔
        FirstAmong wanted (pathsAll cs) p
  | [] => by simp [pathsAll, firstAmong_nil]
  | c :: rest => by
    rw [pathsAll, firstAmong_append, ← firstNot_iff c, ← firstNotAll_iff rest,
      Outcome.exists_place_cons]
    simp only [mem_paths, List.forall_mem_cons]
    constructor
    · rintro (⟨_, here⟩ | ⟨before, d, after, split, ⟨first, passed⟩, later⟩)
      · exact .inl here
      · exact .inr ⟨first, before, d, after, split, passed, later⟩
    · rintro (here | ⟨first, before, d, after, split, passed, later⟩)
      · exact .inl ⟨List.forall_mem_nil _, here⟩
      · exact .inr ⟨before, d, after, split, ⟨first, passed⟩, later⟩

end

end Condition

/-! ### References -/

namespace Query

/-- Why a filter or an order over a root cannot refer to a path. -/
inductive RefusedReference (root : Model) (p : AttributePath) : ColumnFault → Prop
  | foreign (other : p.root ≠ root) : RefusedReference root p .foreignReference
  | acrossMany (own : p.root = root) (crosses : p.crossesMany = true) :
      RefusedReference root p .acrossMany

variable {q next : Query} {root : Model} {p : AttributePath} {e : Error}
  {earlier columns : List AttributePath}

theorem checkReference_eq_error : checkReference root p = .error e ↔
    ∃ fault, RefusedReference root p fault ∧ e = .invalidColumn root.name p.fieldPath fault := by
  rw [checkReference]
  by_cases own : p.root = root
  · rw [if_neg (not_not_intro own)]
    cases crosses : p.crossesMany with
    | true =>
      rw [if_pos rfl, Except.error.injEq]
      constructor
      · rintro rfl
        exact ⟨_, .acrossMany own crosses, rfl⟩
      · rintro ⟨_, other | _, rfl⟩
        · exact absurd own other
        · rfl
    | false =>
      rw [if_neg Bool.false_ne_true]
      refine iff_of_false (fun refused => ?_) ?_
      · cases refused
      · rintro ⟨_, other | ⟨_, crossing⟩, _⟩
        · exact other own
        · rw [crosses] at crossing
          cases crossing
  · rw [if_pos own, Except.error.injEq]
    constructor
    · rintro rfl
      exact ⟨_, .foreign own, rfl⟩
    · rintro ⟨_, _ | ⟨same, _⟩, rfl⟩
      · rfl
      · exact absurd same own

theorem RefusedReference.not_referable {fault : ColumnFault}
    (refused : RefusedReference root p fault) : ¬ p.Referable root := by
  rintro ⟨own, crosses⟩
  cases refused with
  | foreign other => exact other own
  | acrossMany _ crossing =>
    rw [crosses] at crossing
    cases crossing

/-- A filter is refused for the first path from the left that it cannot refer to. -/
theorem suchThat_eq_error {c : Condition} : q.suchThat c = .error e ↔
    ∃ p fault, c.FirstNot (·.Referable q.root) p ∧ RefusedReference q.root p fault ∧
      e = .invalidColumn q.root.name p.fieldPath fault := by
  rw [suchThat, Outcome.bind_eq_error]
  simp only [Outcome.pure_ne_error, and_false, exists_false, or_false, Outcome.forM_eq_error,
    checkReference_eq_error, checkReference_eq_ok, Condition.firstNot_iff]
  constructor
  · rintro ⟨before, p, after, split, passed, fault, refused, rfl⟩
    exact ⟨p, fault, ⟨before, after, split, passed, refused.not_referable⟩, refused, rfl⟩
  · rintro ⟨p, fault, ⟨before, after, split, passed, _⟩, refused, rfl⟩
    exact ⟨before, p, after, split, passed, fault, refused, rfl⟩

theorem orderBy_eq_error {key : SortKey} : q.orderBy key = .error e ↔
    ∃ fault, RefusedReference q.root key.path fault ∧
      e = .invalidColumn q.root.name key.path.fieldPath fault := by
  rw [orderBy, Outcome.bind_eq_error, checkReference_eq_error]
  simp only [Outcome.pure_ne_error, and_false, exists_false, or_false]

/-! ### Columns -/

/-- Columns that a query over a root can have. -/
structure Choosable (root : Model) (columns : List AttributePath) : Prop where
  own : ∀ p ∈ columns, p.root = root
  direct : ∀ p ∈ columns, p.isDirect = true
  distinct : (columns.map AttributePath.field).Nodup

/-- Why a path cannot be a column after others. -/
inductive RefusedColumn (root : Model) (earlier : List AttributePath) (p : AttributePath) :
    ColumnFault → Prop
  | otherRoot (other : p.root ≠ root) : RefusedColumn root earlier p .otherRoot
  | indirect (own : p.root = root) (far : p.isDirect = false) :
      RefusedColumn root earlier p .indirect
  | repeated (own : p.root = root) (direct : p.isDirect = true) {e : AttributePath}
      (before : e ∈ earlier) (same : e.field = p.field) : RefusedColumn root earlier p .repeated

/-- A path is checked against those before it only. -/
theorem checkColumns_cons (root : Model) (earlier : List AttributePath) (p : AttributePath) :
    (∃ fault, RefusedColumn root earlier p fault ∧ ∀ rest,
      checkColumns root earlier (p :: rest) =
        .error (.invalidColumn root.name p.fieldPath fault)) ∨
    (∀ fault, ¬ RefusedColumn root earlier p fault) ∧ ∀ rest,
      checkColumns root earlier (p :: rest) = checkColumns root (earlier ++ [p]) rest := by
  by_cases own : p.root = root
  · cases direct : p.isDirect with
    | false =>
      refine .inl ⟨_, .indirect own direct, fun rest => ?_⟩
      rw [checkColumns, if_neg (not_not_intro own), if_pos (by simp [direct])]
    | true =>
      by_cases seen : ∃ e ∈ earlier, e.field = p.field
      · obtain ⟨e, before, same⟩ := seen
        refine .inl ⟨_, .repeated own direct before same, fun rest => ?_⟩
        have repeated : earlier.any (·.field == p.field) = true :=
          List.any_eq_true.mpr ⟨e, before, beq_iff_eq.mpr same⟩
        rw [checkColumns, if_neg (not_not_intro own), if_neg (by simp [direct]), if_pos repeated]
      · have fresh : ¬ earlier.any (·.field == p.field) = true := by simpa using seen
        refine .inr ⟨?_, fun rest => ?_⟩
        · rintro _ (other | ⟨_, far⟩ | ⟨_, _, before, same⟩)
          · exact other own
          · rw [direct] at far
            cases far
          · exact seen ⟨_, before, same⟩
        · rw [checkColumns, if_neg (not_not_intro own), if_neg (by simp [direct]), if_neg fresh]
  · refine .inl ⟨_, .otherRoot own, fun rest => ?_⟩
    rw [checkColumns, if_pos own]

theorem RefusedColumn.unique {fault fault' : ColumnFault}
    (left : RefusedColumn root earlier p fault) (right : RefusedColumn root earlier p fault') :
    fault = fault' := by
  rcases left with other | ⟨own, far⟩ | ⟨own, direct, _, _⟩
  · rcases right with _ | ⟨own, _⟩ | ⟨own, _, _, _⟩
    · rfl
    · exact absurd own other
    · exact absurd own other
  · rcases right with other | _ | ⟨_, direct, _, _⟩
    · exact absurd own other
    · rfl
    · exact absurd (direct.symm.trans far) nofun
  · rcases right with other | ⟨_, far⟩ | _
    · exact absurd own other
    · exact absurd (direct.symm.trans far) nofun
    · rfl

theorem checkColumns_eq_error : checkColumns root earlier columns = .error e ↔
    ∃ before p after fault, columns = before ++ p :: after ∧
      checkColumns root earlier before = .ok () ∧ RefusedColumn root (earlier ++ before) p fault ∧
        e = .invalidColumn root.name p.fieldPath fault := by
  induction columns generalizing earlier with
  | nil => simp [checkColumns]
  | cons first rest ih =>
    rcases checkColumns_cons root earlier first with ⟨fault, refused, stops⟩ | ⟨fine, goes⟩
    · rw [stops, Except.error.injEq]
      constructor
      · rintro rfl
        exact ⟨[], first, rest, fault, rfl, rfl, (List.append_nil earlier).symm ▸ refused, rfl⟩
      · rintro ⟨_ | ⟨b, before⟩, p, after, fault', split, passed, refused', rfl⟩
        · obtain ⟨rfl, rfl⟩ := List.cons.inj split
          rw [List.append_nil] at refused'
          rw [refused.unique refused']
        · obtain ⟨rfl, rfl⟩ := List.cons.inj split
          rw [stops] at passed
          cases passed
    · rw [goes, ih]
      constructor
      · rintro ⟨before, p, after, fault, rfl, passed, refused, rfl⟩
        rw [List.append_assoc] at refused
        exact ⟨first :: before, p, after, fault, rfl, (goes before).trans passed, refused, rfl⟩
      · rintro ⟨_ | ⟨b, before⟩, p, after, fault, split, passed, refused, rfl⟩
        · obtain ⟨rfl, rfl⟩ := List.cons.inj split
          rw [List.append_nil] at refused
          exact absurd refused (fine fault)
        · obtain ⟨rfl, rfl⟩ := List.cons.inj split
          rw [goes] at passed
          refine ⟨before, p, after, fault, rfl, passed, ?_, rfl⟩
          rwa [List.append_assoc]

theorem choosable_iff : checkColumns root [] columns = .ok () ↔ Choosable root columns := by
  rw [checkColumns_eq_ok]
  constructor
  · rintro ⟨here, _, distinct⟩
    exact ⟨fun p hp => (here p hp).1, fun p hp => (here p hp).2, distinct⟩
  · rintro ⟨own, direct, distinct⟩
    exact ⟨fun p hp => ⟨own p hp, direct p hp⟩, nofun, distinct⟩

/-- A choice of columns is refused for the first that cannot stand after those before it. -/
theorem choose_eq_error : q.choose columns = .error e ↔
    ∃ before p after fault, columns = before ++ p :: after ∧ Choosable q.root before ∧
      RefusedColumn q.root before p fault ∧ e = .invalidColumn q.root.name p.fieldPath fault := by
  rw [choose, Outcome.bind_eq_error, checkColumns_eq_error]
  simp only [Outcome.pure_ne_error, and_false, exists_false, or_false, choosable_iff,
    List.nil_append]

/-! ### All three -/

/-- Columns, a filter and a sort key become part of the query when they belong to it, each in its
own place and with everything else as before, and are refused otherwise. -/
structure Validates (q : Query) : Prop where
  columns : ∀ columns next, q.choose columns = .ok next ↔
    Choosable q.root columns ∧ next = { q with columns }
  /-- Without chosen columns all scalar fields are read, in the order of their declaration. -/
  allColumns : ∃ next, q.choose [] = .ok next ∧ next.selected = q.root.schema.columns
  columnsRefused : ∀ columns e, q.choose columns = .error e ↔
    ∃ before p after fault, columns = before ++ p :: after ∧ Choosable q.root before ∧
      RefusedColumn q.root before p fault ∧ e = .invalidColumn q.root.name p.fieldPath fault
  filter : ∀ c next, q.suchThat c = .ok next ↔
    (∀ p, c.Compares p → p.Referable q.root) ∧ next = { q with filter := some c }
  filterRefused : ∀ c e, q.suchThat c = .error e ↔
    ∃ p fault, c.FirstNot (·.Referable q.root) p ∧ RefusedReference q.root p fault ∧
      e = .invalidColumn q.root.name p.fieldPath fault
  order : ∀ key next, q.orderBy key = .ok next ↔
    key.path.Referable q.root ∧ next = { q with order := q.order ++ [key] }
  orderRefused : ∀ key e, q.orderBy key = .error e ↔
    ∃ fault, RefusedReference q.root key.path fault ∧
      e = .invalidColumn q.root.name key.path.fieldPath fault

end Query

end RecordQuery
