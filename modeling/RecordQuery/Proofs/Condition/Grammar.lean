import RecordQuery.Condition.Written
import RecordQuery.Proofs.Fragment.Balanced

/-!
# The grammar of conditions

What a written condition says to someone who only sees its chunks: a tree of comparisons by the
grammar

    expr := unit | unit AND unit (AND unit)* | unit OR unit (OR unit)*
    unit := comparison | NOT comparison | NOT ( expr ) | ( expr )

where a comparison is a dotted path, an operator and an operand, and an operand is one literal or
whatever stands in a pair of parentheses. A fragment has at most one reading, and a unit ends at one
place only.
-/

namespace RecordQuery

/-- The tree that a fragment is read as. -/
inductive Reading where
  | comparison (path : List String) (comparator : Comparator) (operand : Fragment)
  | junction (kind : Junction) (children : List Reading)
  | not (child : Reading)

namespace Reading

inductive OfOperand : Fragment → Prop
  | literal (v : Value) : OfOperand [.literal v]
  | group {f : Fragment} (balanced : f.Balanced) : OfOperand f.parens

inductive OfComparison : Reading → Fragment → Prop
  | intro {first : String} {rest : List String} {comparator : Comparator} {operand : Fragment}
      (ends : OfOperand operand) :
      OfComparison (.comparison (first :: rest) comparator operand)
        (Fragment.path (first :: rest) ++ (comparator.fragment ++ operand))

mutual

inductive OfExpr : Reading → Fragment → Prop
  | unit {r : Reading} {f : Fragment} (only : OfUnit r f) : OfExpr r f
  | chain {kind : Junction} {r : Reading} {rs : List Reading} {f g : Fragment}
      (first : OfUnit r f) (rest : OfTail kind rs g) : OfExpr (.junction kind (r :: rs)) (f ++ g)

/-- The units of a chain after the first, each behind the one word of the chain. -/
inductive OfTail : Junction → List Reading → Fragment → Prop
  | last {kind : Junction} {r : Reading} {f : Fragment} (only : OfUnit r f) :
      OfTail kind [r] (kind.chunk :: f)
  | more {kind : Junction} {r : Reading} {rs : List Reading} {f g : Fragment}
      (first : OfUnit r f) (rest : OfTail kind rs g) :
      OfTail kind (r :: rs) (kind.chunk :: (f ++ g))

inductive OfUnit : Reading → Fragment → Prop
  | comparison {r : Reading} {f : Fragment} (plain : OfComparison r f) : OfUnit r f
  | notComparison {r : Reading} {f : Fragment} (plain : OfComparison r f) :
      OfUnit (.not r) (.keyword .NOT :: f)
  | notGroup {r : Reading} {f : Fragment} (inner : OfExpr r f) :
      OfUnit (.not r) (.keyword .NOT :: f.parens)
  | group {r : Reading} {f : Fragment} (inner : OfExpr r f) : OfUnit r f.parens

end

variable {r r' : Reading} {rs rs' : List Reading} {f g s t : Fragment} {kind kind' : Junction}

/-! ### Comparisons -/

theorem OfOperand.unique (hf : OfOperand f) (hg : OfOperand g) (same : f ++ s = g ++ t) :
    f = g ∧ s = t := by
  cases hf with
  | literal v =>
    cases hg with
    | literal w => simpa using same
    | group => simp [Chunk.leftParen] at same
  | group inner =>
    cases hg with
    | literal w => simp [Chunk.leftParen] at same
    | group inner' =>
      rw [Fragment.parens_append, Fragment.parens_append] at same
      obtain ⟨rfl, rest⟩ := inner.closing_unique inner' (List.cons.inj same).2
      exact ⟨rfl, rest⟩

theorem comparator_unique {c d : Comparator} (same : c.fragment ++ s = d.fragment ++ t) :
    c = d ∧ s = t := by
  cases c <;> cases d <;>
    simp_all [Comparator.fragment, Chunk.relation, Chunk.keyword]

/-- No operator starts with a dot, so a path ends in front of it. -/
theorem head?_comparator (c : Comparator) (s : Fragment) :
    (c.fragment ++ s).head? ≠ some .dot := by
  cases c <;> simp [Comparator.fragment, Chunk.relation, Chunk.keyword, Chunk.dot]

theorem OfComparison.unique (hf : OfComparison r f) (hg : OfComparison r' g)
    (same : f ++ s = g ++ t) : r = r' ∧ s = t := by
  obtain ⟨ends⟩ := hf
  obtain ⟨ends'⟩ := hg
  simp only [Fragment.path_cons, List.cons_append, List.append_assoc] at same
  obtain ⟨head, tail⟩ := List.cons.inj same
  obtain rfl := Chunk.name.inj head
  obtain ⟨rfl, behind⟩ :=
    Fragment.dotted_unique (head?_comparator _ _) (head?_comparator _ _) tail
  obtain ⟨rfl, operands⟩ := comparator_unique behind
  obtain ⟨rfl, after⟩ := ends.unique ends' operands
  exact ⟨rfl, after⟩

/-- A comparison starts with a name. -/
theorem OfComparison.head? (h : OfComparison r f) : ∃ name rest, f = .name name :: rest := by
  obtain ⟨_⟩ := h
  rw [Fragment.path_cons]
  exact ⟨_, _, rfl⟩

/-! ### Chains -/

/-- The text after an expression does not go on with its chain. -/
def Closed (s : Fragment) : Prop := ∀ kind : Junction, s.head? ≠ some kind.chunk

theorem closed_nil : Closed [] := fun _ h => nomatch h

theorem closed_rightParen (s : Fragment) : Closed (.rightParen :: s) := by
  intro kind
  cases kind <;> simp [Junction.chunk, Chunk.rightParen, Chunk.keyword]

theorem Junction.chunk_injective (same : kind.chunk = kind'.chunk) : kind = kind' := by
  cases kind <;> cases kind' <;> simp_all [Junction.chunk, Chunk.keyword]

theorem OfTail.head? (h : OfTail kind rs f) : ∃ rest, f = kind.chunk :: rest := by
  cases h with
  | last => exact ⟨_, rfl⟩
  | more => exact ⟨_, rfl⟩

/-! ### One reading

Units are compared first, since a unit ends at one place whatever follows it. An expression may be
followed by a closing parenthesis or by nothing, and its chain is over there. -/

mutual

theorem OfExpr.unique : ∀ {r r' : Reading} {f g s t : Fragment}, OfExpr r f → OfExpr r' g →
    f ++ s = g ++ t → Closed s → Closed t → r = r' ∧ s = t
  | _, _, _, _, _, _, .unit only, .unit only', same, _, _ => only.unique only' same
  | _, _, _, _, _, _, .unit only, .chain first' rest', same, hs, _ => by
    rw [List.append_assoc] at same
    obtain ⟨_, rfl⟩ := only.unique first' same
    obtain ⟨after, rfl⟩ := rest'.head?
    exact absurd rfl (hs _)
  | _, _, _, _, _, _, .chain first rest, .unit only', same, _, ht => by
    rw [List.append_assoc] at same
    obtain ⟨_, rfl⟩ := first.unique only' same
    obtain ⟨after, rfl⟩ := rest.head?
    exact absurd rfl (ht _)
  | _, _, _, _, _, _, .chain first rest, .chain first' rest', same, hs, ht => by
    rw [List.append_assoc, List.append_assoc] at same
    obtain ⟨rfl, tails⟩ := first.unique first' same
    obtain ⟨rfl, rfl, after⟩ := rest.unique rest' tails hs ht
    exact ⟨rfl, after⟩

theorem OfTail.unique : ∀ {kind kind' : Junction} {rs rs' : List Reading} {f g s t : Fragment},
    OfTail kind rs f → OfTail kind' rs' g → f ++ s = g ++ t → Closed s → Closed t →
      kind = kind' ∧ rs = rs' ∧ s = t
  | _, _, _, _, _, _, _, _, .last only, .last only', same, _, _ => by
    obtain ⟨word, units⟩ := List.cons.inj same
    obtain ⟨rfl, after⟩ := only.unique only' units
    exact ⟨Junction.chunk_injective word, rfl, after⟩
  | _, _, _, _, _, _, _, _, .last only, .more first' rest', same, hs, _ => by
    rw [List.cons_append, List.cons_append, List.append_assoc] at same
    obtain ⟨_, units⟩ := List.cons.inj same
    obtain ⟨_, rfl⟩ := only.unique first' units
    obtain ⟨after, rfl⟩ := rest'.head?
    exact absurd rfl (hs _)
  | _, _, _, _, _, _, _, _, .more first rest, .last only', same, _, ht => by
    rw [List.cons_append, List.cons_append, List.append_assoc] at same
    obtain ⟨_, units⟩ := List.cons.inj same
    obtain ⟨_, rfl⟩ := first.unique only' units
    obtain ⟨after, rfl⟩ := rest.head?
    exact absurd rfl (ht _)
  | _, _, _, _, _, _, _, _, .more first rest, .more first' rest', same, hs, ht => by
    rw [List.cons_append, List.cons_append, List.append_assoc, List.append_assoc] at same
    obtain ⟨word, units⟩ := List.cons.inj same
    obtain ⟨rfl, tails⟩ := first.unique first' units
    obtain ⟨_, rfl, after⟩ := rest.unique rest' tails hs ht
    exact ⟨Junction.chunk_injective word, rfl, after⟩

theorem OfUnit.unique : ∀ {r r' : Reading} {f g s t : Fragment}, OfUnit r f → OfUnit r' g →
    f ++ s = g ++ t → r = r' ∧ s = t
  | _, _, _, _, _, _, .comparison plain, unit', same => by
    cases unit' with
    | comparison plain' => exact plain.unique plain' same
    | notComparison =>
      obtain ⟨name, rest, rfl⟩ := plain.head?
      simp [Chunk.keyword] at same
    | notGroup =>
      obtain ⟨name, rest, rfl⟩ := plain.head?
      simp [Chunk.keyword] at same
    | group =>
      obtain ⟨name, rest, rfl⟩ := plain.head?
      simp [Chunk.leftParen] at same
  | _, _, _, _, _, _, .notComparison plain, unit', same => by
    cases unit' with
    | comparison plain' =>
      obtain ⟨name, rest, rfl⟩ := plain'.head?
      simp [Chunk.keyword] at same
    | notComparison plain' =>
      obtain ⟨rfl, after⟩ := plain.unique plain' (List.cons.inj same).2
      exact ⟨rfl, after⟩
    | notGroup =>
      obtain ⟨name, rest, rfl⟩ := plain.head?
      simp [Chunk.leftParen] at same
    | group => simp [Chunk.keyword, Chunk.leftParen] at same
  | _, _, _, _, _, _, .notGroup inner, unit', same => by
    cases unit' with
    | comparison plain' =>
      obtain ⟨name, rest, rfl⟩ := plain'.head?
      simp [Chunk.keyword] at same
    | notComparison plain' =>
      obtain ⟨name, rest, rfl⟩ := plain'.head?
      simp [Chunk.leftParen] at same
    | notGroup inner' =>
      simp only [List.cons_append, Fragment.parens_append, List.cons.injEq, true_and] at same
      obtain ⟨rfl, after⟩ :=
        inner.unique inner' same (closed_rightParen _) (closed_rightParen _)
      exact ⟨rfl, (List.cons.inj after).2⟩
    | group => simp [Chunk.keyword, Chunk.leftParen] at same
  | _, _, _, _, _, _, .group inner, unit', same => by
    cases unit' with
    | comparison plain' =>
      obtain ⟨name, rest, rfl⟩ := plain'.head?
      simp [Chunk.leftParen] at same
    | notComparison => simp [Chunk.keyword, Chunk.leftParen] at same
    | notGroup => simp [Chunk.keyword, Chunk.leftParen] at same
    | group inner' =>
      simp only [Fragment.parens_append, List.cons.injEq, true_and] at same
      obtain ⟨rfl, after⟩ :=
        inner.unique inner' same (closed_rightParen _) (closed_rightParen _)
      exact ⟨rfl, (List.cons.inj after).2⟩

end

/-- A fragment has at most one reading. -/
theorem OfExpr.functional (h : OfExpr r f) (h' : OfExpr r' f) : r = r' :=
  (h.unique h' (s := []) (t := []) rfl closed_nil closed_nil).1

end Reading

end RecordQuery
