import RecordQuery.Proofs.Fragment.Zeros
import RecordQuery.Proofs.Query.Selection

/-!
# Text of equal queries

Equality goes through a query, its joins, its conditions and their subqueries down to the values,
where floats are compared as numbers. The text goes the same way, so equal queries are written with
the same chunks up to the signs of zeros, and their texts are the same when those signs are.
-/

namespace RecordQuery

/-! ### Parts of equal conditions -/

section parts

variable {c d : Condition} {o : Operand}

theorem Condition.same_compare {p : AttributePath} {comparator : Comparator} {a : Operand}
    (same : (compare p comparator a).same d = true) :
    ∃ b, d = compare p comparator b ∧ a.same b = true := by
  cases d with
  | compare q other b =>
    simp only [Condition.same, Bool.and_eq_true, beq_iff_eq] at same
    obtain ⟨⟨rfl, rfl⟩, operands⟩ := same
    exact ⟨b, rfl, operands⟩
  | _ => simp [Condition.same] at same

theorem Condition.same_junction {kind : Junction} {as : List Condition}
    (same : (junction kind as).same d = true) :
    ∃ bs, d = junction kind bs ∧ Condition.sameAll as bs = true := by
  cases d with
  | junction other bs =>
    simp only [Condition.same, Bool.and_eq_true, beq_iff_eq] at same
    obtain ⟨rfl, children⟩ := same
    exact ⟨bs, rfl, children⟩
  | _ => simp [Condition.same] at same

theorem Condition.same_not (same : (not c).same d = true) : ∃ b, d = not b ∧ c.same b = true := by
  cases d with
  | not b => exact ⟨b, rfl, by rwa [Condition.same] at same⟩
  | _ => simp [Condition.same] at same

theorem Condition.same_shape (same : c.same d = true) :
    c.isJunction = d.isJunction ∧ c.isComparison = d.isComparison := by
  cases c with
  | compare =>
    obtain ⟨b, rfl, -⟩ := same_compare same
    exact ⟨rfl, rfl⟩
  | junction =>
    obtain ⟨bs, rfl, -⟩ := same_junction same
    exact ⟨rfl, rfl⟩
  | not =>
    obtain ⟨b, rfl, -⟩ := same_not same
    exact ⟨rfl, rfl⟩

theorem Condition.sameAll_cons {cs ds : List Condition}
    (same : Condition.sameAll (c :: cs) ds = true) :
    ∃ b bs, ds = b :: bs ∧ c.same b = true ∧ Condition.sameAll cs bs = true := by
  cases ds with
  | nil => simp [Condition.sameAll] at same
  | cons b bs =>
    rw [Condition.sameAll, Bool.and_eq_true] at same
    exact ⟨b, bs, rfl, same⟩

theorem Operand.same_literal {v : Value} (same : (literal v).same o = true) :
    ∃ w, o = literal w ∧ v.same w = true := by
  cases o with
  | literal w => exact ⟨w, rfl, by rwa [Operand.same] at same⟩
  | _ => simp [Operand.same] at same

theorem Operand.same_list {vs : List Value} (same : (list vs).same o = true) :
    ∃ ws, o = list ws ∧ List.Forall₂ (fun v w => v.same w = true) vs ws := by
  cases o with
  | list ws =>
    simp only [Operand.same, Bool.and_eq_true, beq_iff_eq, List.all_eq_true] at same
    exact ⟨ws, rfl, List.forall₂_iff_zip.mpr ⟨same.1, same.2 _⟩⟩
  | _ => simp [Operand.same] at same

theorem Operand.same_subquery {s : Subquery} (same : (subquery s).same o = true) :
    ∃ t, o = subquery t ∧ s.same t = true := by
  cases o with
  | subquery t => exact ⟨t, rfl, by rwa [Operand.same] at same⟩
  | _ => simp [Operand.same] at same

end parts

/-! ### Their text -/

theorem Fragment.Alike.values {vs ws : List Value}
    (all : List.Forall₂ (fun v w => v.same w = true) vs ws) :
    (Fragment.values vs).Alike (Fragment.values ws) := by
  refine (Fragment.Alike.separated .comma ?_).parens
  rw [List.forall₂_map_left_iff, List.forall₂_map_right_iff]
  exact all.imp fun v w same => .literal same

mutual

theorem Condition.alike : ∀ {c d : Condition}, c.same d = true → c.fragment.Alike d.fragment
  | .compare path comparator a, d, same => by
    obtain ⟨b, rfl, operands⟩ := Condition.same_compare same
    rw [Condition.fragment, Condition.fragment]
    exact (Operand.alike operands).behind _
  | .junction kind as, d, same => by
    obtain ⟨bs, rfl, children⟩ := Condition.same_junction same
    rw [Condition.fragment, Condition.fragment]
    exact Fragment.Alike.separated kind.chunk (Condition.alike_parts children)
  | .not a, d, same => by
    obtain ⟨b, rfl, child⟩ := Condition.same_not same
    rw [Condition.fragment, Condition.fragment, (Condition.same_shape child).2]
    exact ((Condition.alike child).parensIf _).cons _

theorem Condition.alike_parts : ∀ {as bs : List Condition}, Condition.sameAll as bs = true →
    List.Forall₂ Fragment.Alike (Condition.parts as) (Condition.parts bs)
  | [], [], _ => .nil
  | [], _ :: _, same => by simp [Condition.sameAll] at same
  | a :: as, bs, same => by
    obtain ⟨b, bs, rfl, first, rest⟩ := Condition.sameAll_cons same
    rw [Condition.parts, Condition.parts, (Condition.same_shape first).1]
    exact .cons ((Condition.alike first).parensIf _) (Condition.alike_parts rest)

theorem Operand.alike : ∀ {a b : Operand}, a.same b = true → a.fragment.Alike b.fragment
  | .literal v, b, same => by
    obtain ⟨w, rfl, values⟩ := Operand.same_literal same
    exact .literal values
  | .list vs, b, same => by
    obtain ⟨ws, rfl, values⟩ := Operand.same_list same
    exact Fragment.Alike.values values
  | .subquery s, b, same => by
    obtain ⟨t, rfl, queries⟩ := Operand.same_subquery same
    exact Subquery.alike queries

theorem Subquery.alike : ∀ {s t : Subquery}, s.same t = true → s.fragment.Alike t.fragment
  | .selecting p b none, .selecting q c none, same => by
    simp only [Subquery.same, Bool.and_eq_true, beq_iff_eq] at same
    obtain ⟨rfl, rfl⟩ := same
    exact .refl _
  | .selecting p b (some f), .selecting q c (some g), same => by
    simp only [Subquery.same, Bool.and_eq_true, beq_iff_eq] at same
    obtain ⟨⟨rfl, rfl⟩, filters⟩ := same
    rw [Subquery.fragment, Subquery.fragment]
    exact (((Condition.alike filters).cons _).behind _).parens
  | .selecting _ _ none, .selecting _ _ (some _), same => by simp [Subquery.same] at same
  | .selecting _ _ (some _), .selecting _ _ none, same => by simp [Subquery.same] at same

end

/-! ### Equal queries -/

namespace Query

theorem same_root {q r : Query} (same : q.same r = true) : q.root = r.root := by
  cases q
  cases r
  simp only [Query.same, Bool.and_eq_true, beq_iff_eq] at same
  exact same.1.1.1.1.1.1.1

/-- The same items one after another, up to the signs of zeros. Columns have no zeros. -/
structure Projection.Alike (p r : Projection) : Prop where
  columns : p.columns = r.columns
  subselects : List.Forall₂ Fragment.Alike p.subselects r.subselects

namespace Projection.Alike

variable {p r p' r' : Projection}

theorem refl (p : Projection) : p.Alike p := ⟨rfl, List.forall₂_same.mpr fun f _ => .refl f⟩

theorem append (first : p.Alike r) (second : p'.Alike r') : (p.append p').Alike (r.append r') :=
  ⟨congrArg₂ (· ++ ·) first.columns second.columns,
    List.rel_append first.subselects second.subselects⟩

theorem fragment (h : p.Alike r) : p.fragment.Alike r.fragment := by
  rw [Projection.fragment, Projection.fragment, h.columns]
  exact .separated .comma
    (List.rel_append (List.forall₂_same.mpr fun f _ => .refl f) h.subselects)

end Projection.Alike

theorem clauses_alike {filter filter' : Option Condition} (same : sameFilter filter filter' = true)
    (order : List SortKey) (limit offset : Option Nat) :
    (clauses filter order limit offset).Alike (clauses filter' order limit offset) := by
  match filter, filter' with
  | none, none => exact .refl _
  | some c, some d =>
    have filters : c.fragment.Alike d.fragment := Condition.alike same
    exact (((filters.cons _).before _).before _).before _

mutual

theorem statementFrom_alike : ∀ {q r : Query}, q.same r = true → ∀ source : Fragment,
    (q.statementFrom source).Alike (r.statementFrom source)
  | ⟨root, columns, joins, filter, order, limit, offset, count⟩,
    ⟨root', columns', joins', filter', order', limit', offset', count'⟩, same, source => by
    simp only [Query.same, Bool.and_eq_true, beq_iff_eq] at same
    obtain ⟨⟨⟨⟨⟨⟨⟨rfl, rfl⟩, joined⟩, filters⟩, rfl⟩, rfl⟩, rfl⟩, rfl⟩ := same
    have items := Projection.Alike.refl ⟨columnItems [root.objectName] (fieldsOf root columns), []⟩
    have list := items.append (projectJoins_alike joined [root.objectName])
    rw [statementFrom, statementFrom]
    refine (Fragment.Alike.before _ ?_).append (clauses_alike filters order limit offset)
    cases count with
    | true => exact .refl _
    | false => exact list.fragment.cons _

theorem project_alike : ∀ {q r : Query}, q.same r = true → ∀ path : List String,
    (project path q).Alike (project path r)
  | ⟨root, columns, joins, filter, order, limit, offset, count⟩,
    ⟨root', columns', joins', filter', order', limit', offset', count'⟩, same, path => by
    simp only [Query.same, Bool.and_eq_true, beq_iff_eq] at same
    obtain ⟨⟨⟨⟨⟨⟨⟨rfl, rfl⟩, joined⟩, -⟩, -⟩, -⟩, -⟩, -⟩ := same
    rw [project, project]
    exact (Projection.Alike.refl _).append (projectJoins_alike joined path)

theorem projectJoins_alike : ∀ {js ks : List (Join Query)}, sameJoins js ks = true →
    ∀ path : List String, (projectJoins path js).Alike (projectJoins path ks)
  | [], [], _, _ => .refl _
  | ⟨field, attr, q⟩ :: rest, ⟨field', attr', r⟩ :: rest', same, path => by
    simp only [sameJoins, Bool.and_eq_true, beq_iff_eq] at same
    obtain ⟨⟨⟨rfl, rfl⟩, queries⟩, others⟩ := same
    rw [projectJoins, projectJoins]
    refine Projection.Alike.append ?_ (projectJoins_alike others path)
    split
    · exact ⟨rfl, .cons (statementFrom_alike queries _).parens .nil⟩
    · exact project_alike queries _
  | [], _ :: _, same, _ => by simp [sameJoins] at same
  | _ :: _, [], same, _ => by simp [sameJoins] at same

end

/-- Equal queries have the same text exactly when the zeros in their texts have the same signs, and
so do equal conditions. Nothing else that equality passes over reaches the text. -/
theorem text_eq_iff_zeros (q r : Query) (c d : Condition) :
    (q.same r = true → (q.text = r.text ↔ q.fragment.zeros = r.fragment.zeros)) ∧
    (c.same d = true →
      (c.fragment.write = d.fragment.write ↔ c.fragment.zeros = d.fragment.zeros)) := by
  refine ⟨fun same => ?_, fun same => (Condition.alike same).write_eq_iff⟩
  have alike : q.fragment.Alike r.fragment := by
    rw [fragment, fragment, same_root same]
    exact statementFrom_alike same _
  exact alike.write_eq_iff

end Query

/-! ### At the sample -/

namespace Sample

def accountSize : AttributePath := ⟨account, [], account, "size", "Size", true, .float⟩

def isSized (size : Binary64) : Condition :=
  .compare accountSize (.relation .equal) (.literal (.float size))

def accountsSized (size : Binary64) : Query :=
  { Query.select account with filter := some (isSized size) }

/-- The zeros compare equal and their signs do not. -/
theorem accountsSized_same :
    ((accountsSized (.zero false)).same (accountsSized (.zero true)) = true ∧
      (accountsSized (.zero false)).text ≠ (accountsSized (.zero true)).text) ∧
    (isSized (.zero false)).same (isSized (.zero true)) = true ∧
      (isSized (.zero false)).fragment.write ≠ (isSized (.zero true)).fragment.write := by
  have texts := Query.text_eq_iff_zeros (accountsSized (.zero false)) (accountsSized (.zero true))
    (isSized (.zero false)) (isSized (.zero true))
  have queries : (accountsSized (.zero false)).same (accountsSized (.zero true)) = true := by
    decide +kernel
  have conditions : (isSized (.zero false)).same (isSized (.zero true)) = true := by
    decide +kernel
  refine ⟨⟨queries, ?_⟩, conditions, ?_⟩
  · rw [Ne, texts.1 queries]
    decide
  · rw [Ne, texts.2 conditions]
    decide

theorem isSized_made (negative : Bool) : (isSized (.zero negative)).Made := by
  have walked : accountSize.Walked := by
    have step : account.attributeAt "size" = .ok accountSize := rfl
    exact .direct registry_built step
  have step : accountSize.compare (.relation .equal) (.literal (.float (.zero negative))) =
      .ok (isSized (.zero negative)) := rfl
  exact .compare walked (.literal _) step

theorem accountsSized_reachable (negative : Bool) : (accountsSized (.zero negative)).Reachable := by
  have filtered : (Query.select account).suchThat (isSized (.zero negative)) =
      .ok (accountsSized (.zero negative)) := rfl
  exact .suchThat (.select registry_built) (isSized_made negative) filtered

theorem accountsSized_texts :
    (accountsSized (.zero false)).Reachable ∧ (accountsSized (.zero true)).Reachable ∧
    (accountsSized (.zero false)).same (accountsSized (.zero true)) = true ∧
    (accountsSized (.zero false)).text =
      "SELECT Account.Id, Account.Size FROM Account WHERE Account.Size = 0.0" ∧
    (accountsSized (.zero true)).text =
      "SELECT Account.Id, Account.Size FROM Account WHERE Account.Size = -0.0" := by
  refine ⟨accountsSized_reachable _, accountsSized_reachable _, ?_, ?_, ?_⟩ <;> decide +kernel

end Sample

end RecordQuery
