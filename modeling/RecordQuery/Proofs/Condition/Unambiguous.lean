import RecordQuery.Proofs.Condition.Grammar
import RecordQuery.Proofs.Fragment.Chains
import RecordQuery.Proofs.Sample

/-!
# Written conditions are unambiguous

The text of a condition is read as the tree it was written from and as no other: nothing is
flattened, regrouped or reordered, and no chain mixes AND with OR. What this needs of a condition is
that no AND or OR has a single child, which the ways to make conditions ensure.
-/

namespace RecordQuery

/-! ### The tree of a condition -/

mutual

/-- The condition as a reader sees it: paths by their segments and operands by their text. -/
def Condition.outline : Condition → Reading
  | .compare path comparator operand => .comparison path.segments comparator operand.fragment
  | .junction kind children => .junction kind (Condition.outlines children)
  | .not child => .not child.outline

def Condition.outlines : List Condition → List Reading
  | [] => []
  | c :: rest => c.outline :: Condition.outlines rest

end

/-- Every AND and OR outside the subqueries has two children or more. -/
inductive Condition.Branching : Condition → Prop
  | compare {path : AttributePath} {comparator : Comparator} {operand : Operand} :
      Branching (.compare path comparator operand)
  | junction {kind : Junction} {first second : Condition} {rest : List Condition}
      (all : ∀ c ∈ first :: second :: rest, Branching c) :
      Branching (.junction kind (first :: second :: rest))
  | not {child : Condition} (below : Branching child) : Branching (.not child)

theorem AttributePath.compare_eq_ok {p : AttributePath} {comparator : Comparator}
    {operand : Operand} {c : Condition} (h : p.compare comparator operand = .ok c) :
    c = .compare p comparator operand := by
  unfold AttributePath.compare at h
  split at h
  · cases h
    rfl
  · cases h

theorem Condition.junction?_eq_ok {kind : Junction} {children : List Condition} {c : Condition}
    (h : Condition.junction? kind children = .ok c) :
    2 ≤ children.length ∧ c = .junction kind children := by
  unfold Condition.junction? at h
  split at h
  · cases h
  · next enough =>
    cases h
    exact ⟨Nat.le_of_not_lt enough, rfl⟩

theorem Condition.Branching.of_length {kind : Junction} {children : List Condition}
    (two : 2 ≤ children.length) (all : ∀ c ∈ children, c.Branching) :
    Branching (.junction kind children) := by
  match children, two with
  | first :: second :: rest, _ => exact .junction all

theorem Condition.Branching.pair {kind : Junction} {a b : Condition} (left : a.Branching)
    (right : b.Branching) : Branching (.junction kind [a, b]) := by
  refine .junction fun c hc => ?_
  rcases List.mem_pair.mp hc with rfl | rfl
  · exact left
  · exact right

theorem Condition.Made.branching : ∀ {c : Condition}, c.Made → c.Branching
  | _, .compare _ _ step => by
    obtain rfl := AttributePath.compare_eq_ok step
    exact .compare
  | _, .junction made step => by
    have all := fun child hchild => (made child hchild).branching
    obtain ⟨two, rfl⟩ := Condition.junction?_eq_ok step
    exact .of_length two all
  | _, .and left right => .pair left.branching right.branching
  | _, .or left right => .pair left.branching right.branching
  | _, .not made => .not made.branching

/-! ### Written text around chains -/

theorem Comparator.fragment_neutral (c : Comparator) : c.fragment.Neutral := by
  have word {k : Keyword} (and : k ≠ .AND) (or : k ≠ .OR) {f : Fragment} (rest : f.Neutral) :
      Fragment.Neutral (.keyword k :: f) := .cons (Chunk.plain_keyword and or) rest
  cases c with
  | relation r => exact .cons (Chunk.plain_relation r) .nil
  | noneOf => exact word (by decide) (by decide) (word (by decide) (by decide) .nil)
  | _ => exact word (by decide) (by decide) .nil

theorem Fragment.literals_neutral (vs : List Value) :
    (Fragment.separated .comma (vs.map fun v => [.literal v])).Neutral := by
  refine .separated Chunk.plain_comma fun f hf => ?_
  obtain ⟨v, _, rfl⟩ := List.mem_map.mp hf
  exact .cons (Chunk.plain_literal v) .nil

theorem Subquery.head_neutral (column : AttributePath) : (Subquery.head column).Neutral := by
  have source : Fragment.Neutral [.keyword .FROM, .name column.root.objectName] :=
    .cons (Chunk.plain_keyword (by decide) (by decide)) (.cons (Chunk.plain_name _) .nil)
  have named : column.fragment.Neutral := .path _
  exact .cons (Chunk.plain_keyword (by decide) (by decide)) (named.append source)

theorem Fragment.Neutral.parensIf {f : Fragment} {needed : Bool} (enclosable : f.Enclosable)
    (bare : needed = false → f.Neutral) : (f.parensIf needed).Neutral := by
  cases needed with
  | true => exact enclosable.parens
  | false => exact bare rfl

/-- An operand is one literal or stands in parentheses of its own. -/
inductive Fragment.Delimited : Fragment → Prop
  | literal (v : Value) : Delimited [.literal v]
  | enclosed {f : Fragment} (inner : f.Enclosable) : Delimited f.parens

theorem Fragment.Delimited.neutral {f : Fragment} (h : f.Delimited) : f.Neutral := by
  cases h with
  | literal v => exact .cons (Chunk.plain_literal v) .nil
  | enclosed inner => exact inner.parens

theorem Fragment.Delimited.ofOperand {f : Fragment} (h : f.Delimited) : Reading.OfOperand f := by
  cases h with
  | literal v => exact .literal v
  | enclosed inner => exact .group inner.balanced

/-- Nothing but an AND or OR takes part in the chain around it. -/
def Condition.Separable (c : Condition) : Prop :=
  c.fragment.Enclosable ∧ (c.isJunction = false → c.fragment.Neutral)

mutual

theorem Condition.separable : ∀ c : Condition, c.Separable
  | .compare path comparator operand => by
    have neutral := ((Fragment.Neutral.path path.segments).append
      comparator.fragment_neutral).append (Operand.fragment_delimited operand).neutral
    exact ⟨neutral.enclosable, fun _ => neutral⟩
  | .junction kind children =>
    ⟨.separated (Condition.parts_neutral children), nofun⟩
  | .not child => by
    have below := Condition.separable child
    have neutral : (Condition.not child).fragment.Neutral := by
      refine .cons (Chunk.plain_keyword (by decide) (by decide)) (.parensIf below.1 fun bare => ?_)
      apply below.2
      cases child <;> simp_all [Condition.isComparison, Condition.isJunction]
    exact ⟨neutral.enclosable, fun _ => neutral⟩

theorem Condition.parts_neutral : ∀ cs : List Condition, ∀ f ∈ Condition.parts cs, f.Neutral
  | [], _, hf => nomatch hf
  | c :: rest, f, hf => by
    have first := Condition.separable c
    rw [Condition.parts, List.mem_cons] at hf
    rcases hf with rfl | hf
    · exact .parensIf first.1 first.2
    · exact Condition.parts_neutral rest f hf

theorem Operand.fragment_delimited : ∀ o : Operand, o.fragment.Delimited
  | .literal v => .literal v
  | .list vs => .enclosed (Fragment.literals_neutral vs).enclosable
  | .subquery s => Subquery.fragment_delimited s

theorem Subquery.fragment_delimited : ∀ s : Subquery, s.fragment.Delimited
  | .selecting column _ none => .enclosed (Subquery.head_neutral column).enclosable
  | .selecting column _ (some filter) => by
    have word : Fragment.Neutral [.keyword .WHERE] :=
      .cons (Chunk.plain_keyword (by decide) (by decide)) .nil
    have clause := (Condition.separable filter).1.behind word
    exact .enclosed (clause.behind (Subquery.head_neutral column))

end

/-! ### The reading of a written condition -/

namespace Reading

variable {c : Condition} {kind : Junction}

theorem ofComparison_compare (path : AttributePath) (comparator : Comparator) (operand : Operand) :
    OfComparison (Condition.compare path comparator operand).outline
      (Condition.compare path comparator operand).fragment := by
  have split : (Condition.compare path comparator operand).fragment =
      path.fragment ++ (comparator.fragment ++ operand.fragment) := List.append_assoc ..
  rw [split]
  exact .intro operand.fragment_delimited.ofOperand

/-- What is read as a junction is read in parentheses as a unit, and anything else is a unit. -/
theorem OfExpr.ofUnit (h : OfExpr c.outline c.fragment) :
    OfUnit c.outline (c.fragment.parensIf c.isJunction) := by
  cases c with
  | compare path comparator operand => exact .comparison (ofComparison_compare ..)
  | junction => exact .group h
  | not child =>
    rw [Condition.outline] at h ⊢
    generalize (Condition.not child).fragment = f at h ⊢
    cases h with
    | unit only => exact only

/-- The units of a chain after the first. -/
theorem ofTail_outlines {first : Condition} {rest : List Condition}
    (all : ∀ c ∈ first :: rest, OfExpr c.outline c.fragment) :
    OfTail kind (Condition.outlines (first :: rest))
      (kind.chunk :: Fragment.separated kind.chunk (Condition.parts (first :: rest))) := by
  induction rest generalizing first with
  | nil => exact .last (all first List.mem_cons_self).ofUnit
  | cons second rest ih =>
    refine .more (all first List.mem_cons_self).ofUnit (ih fun c hc => ?_)
    exact all c (List.mem_cons_of_mem _ hc)

theorem ofExpr_outline (branching : c.Branching) : OfExpr c.outline c.fragment := by
  induction branching with
  | compare => exact .unit (.comparison (ofComparison_compare ..))
  | @junction kind first second rest _ ih =>
    refine .chain (ih first List.mem_cons_self).ofUnit (ofTail_outlines fun c hc => ?_)
    exact ih c (List.mem_cons_of_mem _ hc)
  | @not child _ ih =>
    refine .unit ?_
    cases child with
    | compare => exact .notComparison (ofComparison_compare ..)
    | junction => exact .notGroup ih
    | not => exact .notGroup ih

end Reading

/-- The text of a condition is read as its own tree and as no other, so conditions of different
trees have different texts; and no chain in it, at any depth, has both AND and OR. -/
theorem Condition.fragment_readings {c d : Condition} (hc : c.Made) (hd : d.Made) :
    (∀ r, Reading.OfExpr r c.fragment ↔ r = c.outline) ∧
      (c.outline ≠ d.outline → c.fragment ≠ d.fragment) ∧ c.fragment.Unmixed := by
  have read := Reading.ofExpr_outline hc.branching
  refine ⟨fun r => ⟨fun h => h.functional read, fun same => same ▸ read⟩, ?_, ?_⟩
  · intro different same
    have read' := Reading.ofExpr_outline hd.branching
    rw [← same] at read'
    exact different (read.functional read')
  · exact (Condition.separable c).1.unmixed

theorem Condition.fragment_nested :
    let left := (Sample.isFirst.and Sample.isOther).and (.not Sample.isOther)
    let right := Sample.isFirst.and (Sample.isOther.and (.not Sample.isOther))
    left.Made ∧ right.Made ∧ left.fragment ≠ right.fragment := by
  have left := Condition.Made.and (.and Sample.isFirst_made Sample.isOther_made)
    (.not Sample.isOther_made)
  have right := Condition.Made.and Sample.isFirst_made
    (.and Sample.isOther_made (.not Sample.isOther_made))
  refine ⟨left, right, (Condition.fragment_readings left right).2.1 ?_⟩
  simp [Condition.and, Condition.outline, Condition.outlines, Sample.isFirst, Sample.isNamed,
    Sample.isOther]

end RecordQuery
