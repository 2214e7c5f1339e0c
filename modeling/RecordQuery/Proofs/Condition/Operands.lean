import RecordQuery.Proofs.Condition.Unambiguous
import RecordQuery.Proofs.Fragment.Cut
import RecordQuery.Query.Statement

/-!
# Operands and the text around them

The text of a condition is made of paths, words, signs and parentheses around its operands. A
property of fragments that these pieces have, and that survives putting fragments together, holds of
the whole text as soon as it holds of the operands.
-/

namespace RecordQuery

/-! ### Operands of a condition -/

/-- The values that an operand lists. -/
def Operand.values : Operand → List Value
  | .literal v => [v]
  | .list vs => vs
  | .subquery _ => []

namespace Condition

/-- An operand stands in a comparison of the condition, outside its subqueries. -/
inductive Takes : Condition → Operand → Prop
  | here {p : AttributePath} {comparator : Comparator} {o : Operand} :
      Takes (.compare p comparator o) o
  | inJunction {kind : Junction} {children : List Condition} {c : Condition} {o : Operand}
      (mem : c ∈ children) (below : Takes c o) : Takes (.junction kind children) o
  | underNot {c : Condition} {o : Operand} (below : Takes c o) : Takes (.not c) o

end Condition

theorem AttributePath.admits_of_compare {p : AttributePath} {comparator : Comparator}
    {o : Operand} {c : Condition} (h : p.compare comparator o = .ok c) :
    comparator.admits p.kind o = true := by
  unfold AttributePath.compare at h
  split at h
  · assumption
  · cases h

theorem Condition.takes_pair {kind : Junction} {a b : Condition} {o : Operand}
    (h : (Condition.junction kind [a, b]).Takes o) : a.Takes o ∨ b.Takes o := by
  cases h with
  | inJunction mem below =>
    rcases List.mem_pair.mp mem with rfl | rfl
    · exact .inl below
    · exact .inr below

/-- Every operand of a condition was made, and an operator admits it. -/
theorem Condition.Made.takes : ∀ {c : Condition}, c.Made → ∀ {o : Operand}, c.Takes o →
    o.Made ∧ ∃ (comparator : Comparator) (kind : Kind), comparator.admits kind o = true
  | _, .compare _ made step, _, taken => by
    have admitted := AttributePath.admits_of_compare step
    obtain rfl := AttributePath.compare_eq_ok step
    cases taken
    exact ⟨made, _, _, admitted⟩
  | _, .junction made step, o, taken => by
    have all := fun child hchild => (made child hchild).takes (o := o)
    obtain ⟨_, rfl⟩ := Condition.junction?_eq_ok step
    cases taken with
    | inJunction mem below => exact all _ mem below
  | _, .and left right, _, taken => by
    rcases takes_pair taken with below | below
    · exact left.takes below
    · exact right.takes below
  | _, .or left right, _, taken => by
    rcases takes_pair taken with below | below
    · exact left.takes below
    · exact right.takes below
  | _, .not made, _, taken => by
    cases taken with
    | underNot below => exact made.takes below

/-! ### Parts of the text -/

theorem Fragment.infix_parensIf (needed : Bool) (f : Fragment) : f <:+: f.parensIf needed := by
  cases needed with
  | true => exact f.infix_parens
  | false => exact List.infix_rfl

theorem Condition.parts_eq (cs : List Condition) :
    Condition.parts cs = cs.map fun c => c.fragment.parensIf c.isJunction := by
  induction cs with
  | nil => rfl
  | cons c rest ih => rw [Condition.parts, ih, List.map_cons]

/-- The text of an operand stands in that of its condition. -/
theorem Condition.Takes.part {c : Condition} {o : Operand} (h : c.Takes o) :
    o.fragment <:+: c.fragment := by
  induction h with
  | @here p comparator o =>
    exact ⟨p.fragment ++ comparator.fragment, [], by simp [Condition.fragment]⟩
  | @inJunction kind children c o mem _ ih =>
    rw [Condition.fragment, Condition.parts_eq]
    have part := Fragment.infix_parensIf c.isJunction c.fragment
    exact ih.trans (part.trans (Fragment.infix_separated (List.mem_map_of_mem mem)))
  | @underNot c o _ ih =>
    have inner := ih.trans (Fragment.infix_parensIf (!c.isComparison) c.fragment)
    exact inner.trans (List.suffix_cons _ _).isInfix

/-! ### Properties of the text -/

/-- The property holds of the pieces around operands and of what is put together from fragments that
have it. -/
structure Fragment.Closed (P : Fragment → Prop) : Prop where
  nil : P []
  append {f g : Fragment} : P f → P g → P (f ++ g)
  parens {f : Fragment} : P f → P f.parens
  path (segments : List String) : P (.path segments)
  relation (r : Relation) : P [.relation r]
  comma : P [.comma]
  keyword {k : Keyword} : k ∉ clauseWords → P [.keyword k]

variable {P : Fragment → Prop}

namespace Fragment.Closed

theorem cons {c : Chunk} {f : Fragment} (closed : Closed P) (first : P [c]) (rest : P f) :
    P (c :: f) := closed.append first rest

theorem separated {c : Chunk} {fs : List Fragment} (closed : Closed P) (between : P [c])
    (all : ∀ f ∈ fs, P f) : P (separated c fs) := by
  fun_induction Fragment.separated c fs with
  | case1 => exact closed.nil
  | case2 f => exact all f List.mem_cons_self
  | case3 f rest _ ih =>
    refine closed.append (all f List.mem_cons_self) (closed.cons between (ih ?_))
    exact fun g hg => all g (List.mem_cons_of_mem _ hg)

theorem parensIf {f : Fragment} (closed : Closed P) (needed : Bool) (h : P f) :
    P (f.parensIf needed) := by
  cases needed with
  | true => exact closed.parens h
  | false => exact h

theorem values {vs : List Value} (closed : Closed P) (all : ∀ v ∈ vs, P [.literal v]) :
    P (.values vs) := by
  refine closed.parens (closed.separated closed.comma fun f mem => ?_)
  obtain ⟨v, inside, rfl⟩ := List.mem_map.mp mem
  exact all v inside

theorem comparator (closed : Closed P) (c : Comparator) : P c.fragment := by
  cases c with
  | relation r => exact closed.relation r
  | noneOf => exact closed.cons (closed.keyword (by decide)) (closed.keyword (by decide))
  | _ => exact closed.keyword (by decide)

theorem sortKey (closed : Closed P) (key : SortKey) : P key.fragment := by
  refine closed.append (closed.append (closed.path _) ?_) ?_
  · match key.direction with
    | none => exact closed.nil
    | some .ascending => exact closed.keyword (by decide)
    | some .descending => exact closed.keyword (by decide)
  · match key.nulls with
    | none => exact closed.nil
    | some .first => exact closed.cons (closed.keyword (by decide)) (closed.keyword (by decide))
    | some .last => exact closed.cons (closed.keyword (by decide)) (closed.keyword (by decide))

theorem junction (closed : Closed P) (kind : Junction) : P [kind.chunk] := by
  cases kind with
  | all => exact closed.keyword (by decide)
  | any => exact closed.keyword (by decide)

end Fragment.Closed

mutual

/-- What holds of the operands of a condition holds of its text. -/
theorem Condition.fragment_closed (closed : Fragment.Closed P) : ∀ c : Condition,
    (∀ o, c.Takes o → P o.fragment) → P c.fragment
  | .compare path comparator o, operands => by
    have operand := operands o .here
    exact closed.append (closed.append (closed.path path.segments) (closed.comparator comparator))
      operand
  | .junction kind children, operands => by
    have parts := Condition.parts_closed closed children fun c mem o below =>
      operands o (.inJunction mem below)
    exact closed.separated (closed.junction kind) parts
  | .not child, operands => by
    have below := Condition.fragment_closed closed child fun o below => operands o (.underNot below)
    exact closed.cons (closed.keyword (by decide)) (closed.parensIf _ below)

theorem Condition.parts_closed (closed : Fragment.Closed P) : ∀ cs : List Condition,
    (∀ c ∈ cs, ∀ o, c.Takes o → P o.fragment) → ∀ f ∈ Condition.parts cs, P f
  | [], _, _, mem => nomatch mem
  | c :: rest, operands, f, mem => by
    rw [Condition.parts, List.mem_cons] at mem
    rcases mem with rfl | mem
    · have first := Condition.fragment_closed closed c (operands c List.mem_cons_self)
      exact closed.parensIf _ first
    · refine Condition.parts_closed closed rest ?_ f mem
      exact fun d inside => operands d (List.mem_cons_of_mem _ inside)

end

/-! ### Clauses of a statement stay apart -/

namespace Fragment

theorem opensClause_keyword (k : Keyword) :
    (Chunk.keyword k).opensClause = decide (k ∈ clauseWords) := by
  cases k <;> rfl

/-- No clause word stands outside the parentheses. -/
theorem clear_closed : Closed (Clear Chunk.opensClause) where
  nil := .nil
  append hf hg := hf.append hg
  parens h := .parens h.balanced
  path segments := .path rfl (fun _ => rfl) segments
  relation _ := .chunk nofun nofun rfl .nil
  comma := .chunk nofun nofun rfl .nil
  keyword {k} inner := by
    refine .chunk nofun nofun ?_ .nil
    rw [opensClause_keyword, decide_eq_false inner]

end Fragment

end RecordQuery
