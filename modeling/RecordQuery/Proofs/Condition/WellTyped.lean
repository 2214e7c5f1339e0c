import RecordQuery.Proofs.Fragment.Evaluable
import RecordQuery.Proofs.Query.Clauses

/-!
# Conditions are well typed

In every condition that was made, each comparison has an operand that its operator takes for the
attribute, however deep it stands and also in the filters of subqueries; and an operand that an
operator takes is never refused. The text of such a condition therefore shows nothing that cannot be
evaluated.
-/

namespace RecordQuery

/-! ### Comparable operands -/

/-- The operators that take several values. -/
def Comparator.ofLists : List Comparator := [.oneOf, .noneOf, .includes, .excludes]

/-- The operators that are for strings only. -/
def Comparator.ofStrings : List Comparator := [.like, .includes, .excludes]

/-- The statement of the query shows the records of its root with one column, perhaps filtered. -/
structure Query.Offers (q : Query) (column : AttributePath) : Prop where
  joins : q.joins = []
  order : q.order = []
  limit : q.limit = none
  offset : q.offset = none
  count : q.count = false
  select : q.fragment.clause? .SELECT = some column.fragment

/-- What an operator takes for an attribute. -/
inductive Operand.Suits (p : AttributePath) (c : Comparator) : Operand → Prop
  | null (equality : c = .relation .equal ∨ c = .relation .notEqual) : Suits p c (.literal .null)
  | literal {v : Value} (single : c ∉ Comparator.ofLists) (accepted : p.kind.accepts v = true) :
      Suits p c (.literal v)
  | list {vs : List Value} (several : c ∈ Comparator.ofLists) (filled : vs ≠ [])
      (accepted : ∀ v ∈ vs, p.kind.accepts v = true) : Suits p c (.list vs)
  | subquery {s : Subquery} {q : Query} (membership : c = .oneOf ∨ c = .noneOf)
      (compatible : p.kind.compatible s.column.kind = true) (reachable : q.Reachable)
      (step : q.subquery = .ok s) (offers : q.Offers s.column)
      (written : s.fragment = q.fragment.parens) : Suits p c (.subquery s)

/-- The operator can stand between the attribute and the operand. -/
structure AttributePath.Comparable (p : AttributePath) (c : Comparator) (o : Operand) : Prop where
  strings : c ∈ Comparator.ofStrings → p.kind = .string
  operand : o.Suits p c

theorem Kind.present_of_accepts {k : Kind} {v : Value} (h : k.accepts v = true) : v ≠ .null := by
  rintro rfl
  cases k <;> cases h

namespace Comparator

variable {c : Comparator}

theorem takesList_iff : c.takesList = true ↔ c ∈ ofLists := by
  rcases c with _ | _ | _ | _ | _ | _ <;> simp [takesList, ofLists]

theorem onlyStrings_iff : c.onlyStrings = true ↔ c ∈ ofStrings := by
  rcases c with _ | _ | _ | _ | _ | _ <;> simp [onlyStrings, ofStrings]

theorem isMembership_iff : c.isMembership = true ↔ c = .oneOf ∨ c = .noneOf := by
  rcases c with _ | _ | _ | _ | _ | _ <;> simp [isMembership]

theorem isEquality_iff : c.isEquality = true ↔ c = .relation .equal ∨ c = .relation .notEqual := by
  rcases c with (_ | _) | _ | _ | _ | _ | _ <;> simp [isEquality]

end Comparator

theorem Query.Reachable.offers {q : Query} {s : Subquery} (reachable : q.Reachable)
    (step : q.subquery = .ok s) : q.Offers s.column := by
  obtain ⟨joins, order, limit, offset, count, _⟩ := Query.subquery_eq_ok step
  refine ⟨joins, order, limit, offset, count, ?_⟩
  have grounded : q.statement.query.Grounded := reachable.grounded
  obtain ⟨chosen, root, hops⟩ := reachable.wellFormed.subquery_column step
  have listed : q.items = [s.column.fragment] := by
    rw [Query.items, count, if_neg Bool.false_ne_true, Query.project_eq, joins, chosen]
    rw [AttributePath.fragment, AttributePath.segments, root, hops]
    rfl
  rw [← Statement.fragment_statement, Statement.clause?_eq grounded, Statement.pieces]
  exact congrArg (fun items => some (Fragment.separated .comma items)) listed

namespace Operand

variable {p : AttributePath} {c : Comparator} {v : Value}

theorem suits_null : (Operand.literal .null).Suits p c ↔
    c = .relation .equal ∨ c = .relation .notEqual := by
  constructor
  · intro suits
    cases suits with
    | null equality => exact equality
    | literal _ accepted => exact absurd rfl (Kind.present_of_accepts accepted)
  · exact .null

theorem suits_literal (present : v ≠ .null) : (Operand.literal v).Suits p c ↔
    c ∉ Comparator.ofLists ∧ p.kind.accepts v = true := by
  constructor
  · intro suits
    cases suits with
    | null => exact absurd rfl present
    | literal single accepted => exact ⟨single, accepted⟩
  · exact fun h => .literal h.1 h.2

theorem suits_list {vs : List Value} : (Operand.list vs).Suits p c ↔
    c ∈ Comparator.ofLists ∧ vs ≠ [] ∧ ∀ v ∈ vs, p.kind.accepts v = true := by
  constructor
  · intro suits
    cases suits with
    | list several filled accepted => exact ⟨several, filled, accepted⟩
  · exact fun h => .list h.1 h.2.1 h.2.2

theorem suits_subquery {s : Subquery} (made : (Operand.subquery s).Made) :
    (Operand.subquery s).Suits p c ↔
      (c = .oneOf ∨ c = .noneOf) ∧ p.kind.compatible s.column.kind = true := by
  constructor
  · intro suits
    cases suits with
    | subquery membership compatible => exact ⟨membership, compatible⟩
  · intro h
    cases made with
    | subquery reachable step =>
      exact .subquery h.1 h.2 reachable step (reachable.offers step)
        (reachable.wellFormed.subquery_fragment step)

end Operand

/-- The check at a comparison refuses what is not comparable and nothing else. -/
theorem Comparator.admits_iff {c : Comparator} {p : AttributePath} {o : Operand} (made : o.Made) :
    c.admits p.kind o = true ↔ p.Comparable c o := by
  have strings : (!c.onlyStrings || p.kind == .string) = true ↔
      (c ∈ ofStrings → p.kind = .string) := by
    rw [← onlyStrings_iff, Bool.or_eq_true, Bool.not_eq_true', beq_iff_eq, ← Bool.not_eq_true,
      ← imp_iff_not_or]
  have both : p.Comparable c o ↔ (c ∈ ofStrings → p.kind = .string) ∧ o.Suits p c :=
    ⟨fun h => ⟨h.strings, h.operand⟩, fun h => ⟨h.1, h.2⟩⟩
  unfold admits
  rw [Bool.and_eq_true, strings, both]
  refine and_congr_right fun _ => ?_
  split
  · rw [isEquality_iff, Operand.suits_null]
  · next v present =>
    rw [Bool.and_eq_true, Bool.not_eq_true', ← Bool.not_eq_true, takesList_iff,
      Operand.suits_literal present]
  · next vs =>
    rw [Bool.and_eq_true, Bool.and_eq_true, takesList_iff, Bool.not_eq_true',
      List.isEmpty_eq_false_iff, List.all_eq_true, Operand.suits_list, and_assoc]
  · next s =>
    rw [Bool.and_eq_true, isMembership_iff, Operand.suits_subquery made]

/-! ### Conditions inside conditions -/

namespace Condition

/-- The condition itself, or one at some depth in it: under AND, OR and NOT, and in the filters of
subqueries. -/
inductive Inside : Condition → Condition → Prop
  | refl {c : Condition} : Inside c c
  | child {c d : Condition} {kind : Junction} {children : List Condition} (mem : d ∈ children)
      (below : Inside c d) : Inside c (.junction kind children)
  | negated {c d : Condition} (below : Inside c d) : Inside c (.not d)
  | filter {c d : Condition} {p : AttributePath} {comparator : Comparator} {s : Subquery}
      (filter : s.filter = some d) (below : Inside c d) :
      Inside c (.compare p comparator (.subquery s))

variable {c d : Condition} {p : AttributePath} {comparator : Comparator} {o : Operand}

theorem compare_eq_ok_iff (made : o.Made) :
    p.compare comparator o = .ok c ↔ p.Comparable comparator o ∧ c = .compare p comparator o := by
  rw [← Comparator.admits_iff made, AttributePath.compare]
  cases comparator.admits p.kind o with
  | true => simp [eq_comm]
  | false => simp

/-- What each kind of condition is made from. -/
def Parts : Condition → Prop
  | .compare p comparator o => o.Made ∧ p.Comparable comparator o
  | .junction _ children => children ≠ [] ∧ ∀ child ∈ children, child.Made
  | .not child => child.Made

theorem Made.parts (made : c.Made) : c.Parts := by
  cases made with
  | compare _ made step =>
    obtain ⟨comparable, rfl⟩ := (compare_eq_ok_iff made).mp step
    exact ⟨made, comparable⟩
  | junction made step =>
    obtain ⟨two, rfl⟩ := junction?_eq_ok step
    exact ⟨List.ne_nil_of_length_pos (by omega), made⟩
  | and left right =>
    have all := List.forall_mem_cons.mpr ⟨left, List.forall_mem_singleton.mpr right⟩
    exact ⟨List.cons_ne_nil _ _, all⟩
  | or left right =>
    have all := List.forall_mem_cons.mpr ⟨left, List.forall_mem_singleton.mpr right⟩
    exact ⟨List.cons_ne_nil _ _, all⟩
  | not made => exact made

/-- The filter of a subquery was made before its query became an operand. -/
theorem Made.of_filter {s : Subquery} (made : (Operand.subquery s).Made)
    (filter : s.filter = some c) : c.Made := by
  cases made with
  | subquery reachable step =>
    obtain ⟨_, _, _, _, _, _, _, _, _, rfl⟩ := Query.subquery_eq_ok step
    exact reachable.filters_made.here c filter

theorem Made.inside (made : d.Made) (inside : c.Inside d) : c.Made := by
  induction inside with
  | refl => exact made
  | child mem _ ih => exact ih (made.parts.2 _ mem)
  | negated _ ih => exact ih made.parts
  | filter filter _ ih => exact ih (Made.of_filter made.parts.1 filter)

end Condition

/-! ### Their text -/

namespace Fragment.Evaluable

theorem values {k : Kind} {vs : List Value} (filled : vs ≠ [])
    (accepted : ∀ v ∈ vs, k.accepts v = true) : (Fragment.values vs).Evaluable := by
  refine parens (separated comma (by simpa using filled) fun f mem => ?_)
  obtain ⟨v, inside, rfl⟩ := List.mem_map.mp mem
  have ok := accepted v inside
  exact literal (Value.finite_of_accepts ok) (Kind.present_of_accepts ok)

/-- A comparison can be evaluated if its operand can, should that be a subquery. -/
theorem compare {p : AttributePath} {c : Comparator} {o : Operand} (suits : o.Suits p c)
    (subquery : ∀ s, o = .subquery s → s.fragment.Evaluable) :
    (Condition.compare p c o).fragment.Evaluable := by
  have named : p.fragment.Evaluable := path _ _
  have front := named.append (comparator c)
  cases suits with
  | null equality =>
    rcases equality with rfl | rfl
    · exact named.equated (.inl rfl)
    · exact named.equated (.inr rfl)
  | literal single accepted =>
    exact front.append
      (literal (Value.finite_of_accepts accepted) (Kind.present_of_accepts accepted))
  | list several filled accepted => exact front.append (values filled accepted)
  | subquery => exact front.append (subquery _ rfl)

end Fragment.Evaluable

mutual

theorem Condition.fragment_evaluable : ∀ c : Condition, c.Made → c.fragment.Evaluable
  | .compare p comparator o, made => by
    obtain ⟨operand, comparable⟩ : o.Made ∧ p.Comparable comparator o := made.parts
    refine .compare comparable.operand ?_
    rintro s rfl
    exact Subquery.fragment_evaluable s operand
  | .junction kind children, made => by
    obtain ⟨filled, all⟩ : children ≠ [] ∧ ∀ child ∈ children, child.Made := made.parts
    refine .separated (.junction kind) ?_ (Condition.parts_evaluable children all)
    simpa [Condition.parts_eq] using filled
  | .not child, made =>
    have below := Condition.fragment_evaluable child made.parts
    (Fragment.Evaluable.keyword (by decide)).append (below.parensIf _)

theorem Condition.parts_evaluable : ∀ cs : List Condition, (∀ c ∈ cs, c.Made) →
    ∀ f ∈ Condition.parts cs, f.Evaluable
  | [], _, _, mem => nomatch mem
  | c :: rest, all, f, mem => by
    rw [Condition.parts, List.mem_cons] at mem
    rcases mem with rfl | mem
    · exact (Condition.fragment_evaluable c (all c List.mem_cons_self)).parensIf _
    · refine Condition.parts_evaluable rest ?_ f mem
      exact fun d inside => all d (List.mem_cons_of_mem _ inside)

theorem Subquery.fragment_evaluable : ∀ s : Subquery, (Operand.subquery s).Made →
    s.fragment.Evaluable
  | .selecting column _ none, _ => by
    have whole := Fragment.Evaluable.subquery column (.inl rfl)
    rwa [List.append_nil] at whole
  | .selecting column _ (some filter), made => by
    have below := Condition.fragment_evaluable filter (Condition.Made.of_filter made rfl)
    exact .subquery column (.inr ((Fragment.Evaluable.keyword (by decide)).append below))

end

/-- Every comparison in a condition that was made, at any depth and also inside its subqueries, is
one between comparable things, and the text shows nothing that cannot be evaluated. Conversely no
comparison of comparable things is refused. -/
theorem Condition.well_typed :
    (∀ c : Condition, c.Made →
      (∀ p comparator o, (Condition.compare p comparator o).Inside c → p.Comparable comparator o) ∧
        c.fragment.Evaluable) ∧
    ∀ (p : AttributePath) (comparator : Comparator) (o : Operand), o.Made → ∀ c : Condition,
      p.compare comparator o = .ok c ↔ p.Comparable comparator o ∧ c = .compare p comparator o := by
  refine ⟨fun c made => ⟨fun p comparator o inside => ?_, ?_⟩, fun p comparator o made c => ?_⟩
  · exact (made.inside inside).parts.2
  · exact c.fragment_evaluable made
  · exact Condition.compare_eq_ok_iff made

/-! ### At the sample -/

namespace Sample

def accountId : AttributePath := ⟨account, [], account, "id", "Id", false, .string⟩

/-- The names of all users but two. -/
def otherUsers : Query :=
  { Query.select user with columns := [userId], filter := some isOther }

def otherUserIds : Subquery := .selecting userId true (some isOther)

/-- The accounts that have the name of such a user. -/
def isNamedOther : Condition := .not (.compare accountId .oneOf (.subquery otherUserIds))

theorem otherUserIds_made : (Operand.subquery otherUserIds).Made := by
  have chosen : (Query.select user).choose [userId] =
      .ok { Query.select user with columns := [userId] } := rfl
  have filtered : { Query.select user with columns := [userId] }.suchThat isOther =
      .ok otherUsers := rfl
  have single : otherUsers.subquery = .ok otherUserIds := rfl
  have walked : ∀ p ∈ [userId], p.Walked := List.forall_mem_singleton.mpr userId_walked
  exact .subquery (.suchThat (.choose (.select registry_built) walked chosen) isOther_made filtered)
    single

theorem isNamedOther_made : isNamedOther.Made := by
  have walked : accountId.Walked := by
    have step : account.attributeAt "id" = .ok accountId := rfl
    exact .direct registry_built step
  have step : accountId.compare .oneOf (.subquery otherUserIds) =
      .ok (.compare accountId .oneOf (.subquery otherUserIds)) := rfl
  exact .not (.compare walked otherUserIds_made step)

/-- The comparison in the subquery is one of the condition. -/
theorem isOther_inside : isOther.Inside isNamedOther := .negated (.filter rfl .refl)

theorem isNamedOther_well_typed :
    (isNamedOther.Made ∧ isOther.Inside isNamedOther ∧
      userId.Comparable .noneOf (.list [.string "u1", .string "u2"]) ∧
        isNamedOther.fragment.Evaluable) ∧
    (Operand.subquery otherUserIds).Made ∧
      accountId.Comparable .oneOf (.subquery otherUserIds) := by
  have typed := Condition.well_typed.1 isNamedOther isNamedOther_made
  have taken := (Condition.well_typed.2 accountId .oneOf (.subquery otherUserIds) otherUserIds_made
    (.compare accountId .oneOf (.subquery otherUserIds))).mp rfl
  exact ⟨⟨isNamedOther_made, isOther_inside, typed.1 _ _ _ isOther_inside, typed.2⟩,
    otherUserIds_made, taken.1⟩

end Sample

end RecordQuery
