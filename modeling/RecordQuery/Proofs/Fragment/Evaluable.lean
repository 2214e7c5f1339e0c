import Mathlib.Data.List.Chain
import RecordQuery.Proofs.Query.Begins
import RecordQuery.Proofs.Text.Literals

/-!
# Text that can be evaluated

What no filter may show: a number that is none, an empty list, null where anything but equality is
asked, a subquery of several columns. Apart from the last these are matters of single chunks and of
neighbours, so the property passes from fragments to what is put together from them as long as none
of them is empty.
-/

namespace RecordQuery

/-- Null stands behind a sign of equality only, and no parentheses are empty. -/
def Chunk.MayMeet (c d : Chunk) : Prop :=
  (d = .literal .null → c = .relation .equal ∨ c = .relation .notEqual) ∧
    (c = .leftParen → d ≠ .rightParen)

namespace Fragment

structure Coherent (f : Fragment) : Prop where
  finite : ∀ v, .literal v ∈ f → v.Finite
  neighbours : f.IsChain Chunk.MayMeet
  filled : f ≠ []
  starts : ∀ c ∈ f.head?, c ≠ .literal .null ∧ c ≠ .rightParen
  ends : ∀ c ∈ f.getLast?, c ≠ .leftParen

/-- One path between SELECT and FROM. -/
def OneColumn (f : Fragment) : Prop :=
  ∃ object rest source, f = .keyword .SELECT :: (path (object :: rest) ++ .keyword .FROM :: source)

/-- Coherent, and every SELECT begins a subquery of one column. -/
structure Evaluable (f : Fragment) : Prop where
  coherent : f.Coherent
  columns : f.Begins OneColumn

variable {f g : Fragment} {c : Chunk}

/-! ### Neighbours -/

namespace Coherent

/-- A chunk that is no null and no parenthesis. -/
theorem single (finite : ∀ v, c = .literal v → v.Finite) (present : c ≠ .literal .null)
    (left : c ≠ .leftParen) (right : c ≠ .rightParen) : Coherent [c] where
  finite v mem := finite v (List.mem_singleton.mp mem).symm
  neighbours := .singleton c
  filled := List.cons_ne_nil _ _
  starts d first := by
    obtain rfl := Option.some.inj first
    exact ⟨present, right⟩
  ends d last := by
    obtain rfl := Option.some.inj last
    exact left

theorem append (hf : f.Coherent) (hg : g.Coherent) : Coherent (f ++ g) where
  finite v mem := (List.mem_append.mp mem).elim (hf.finite v) (hg.finite v)
  neighbours := by
    refine List.isChain_append.mpr ⟨hf.neighbours, hg.neighbours, fun c _ d first => ?_⟩
    obtain ⟨present, opened⟩ := hg.starts d first
    exact ⟨fun null => absurd null present, fun _ => opened⟩
  filled := List.append_ne_nil_of_left_ne_nil hf.filled g
  starts := by
    rw [List.head?_append_of_ne_nil _ hf.filled]
    exact hf.starts
  ends := by
    rw [List.getLast?_append_of_ne_nil _ hg.filled]
    exact hg.ends

/-- Null may follow a sign of equality. -/
theorem equated {r : Relation} (hf : f.Coherent) (equality : r = .equal ∨ r = .notEqual) :
    Coherent (f ++ [.relation r] ++ [.literal .null]) := by
  have sign : Coherent [.relation r] := .single (fun _ => nofun) nofun nofun nofun
  obtain ⟨finite, neighbours, filled, starts, _⟩ := hf.append sign
  refine ⟨fun v mem => ?_, ?_, by simp, ?_, fun c last => ?_⟩
  · rcases List.mem_append.mp mem with mem | mem
    · exact finite v mem
    · obtain rfl := Chunk.literal.inj (List.mem_singleton.mp mem)
      exact fun _ same => nomatch same
  · refine List.isChain_append.mpr ⟨neighbours, .singleton _, fun c last d first => ?_⟩
    rw [List.getLast?_concat] at last
    obtain rfl := Option.some.inj last
    obtain rfl := Option.some.inj first
    exact ⟨fun _ => equality.imp (congrArg _) (congrArg _), nofun⟩
  · rw [List.head?_append_of_ne_nil _ filled]
    exact starts
  · rw [List.getLast?_concat] at last
    obtain rfl := Option.some.inj last
    nofun

theorem parens (hf : f.Coherent) : f.parens.Coherent where
  finite v mem := by
    rw [Fragment.parens, List.cons_append, List.mem_cons, List.mem_append] at mem
    rcases mem with same | mem | same
    · cases same
    · exact hf.finite v mem
    · cases List.mem_singleton.mp same
  neighbours := by
    have opened : (Chunk.leftParen :: f).IsChain Chunk.MayMeet := by
      refine List.isChain_cons.mpr ⟨fun d first => ?_, hf.neighbours⟩
      obtain ⟨present, filled⟩ := hf.starts d first
      exact ⟨fun null => absurd null present, fun _ => filled⟩
    refine List.isChain_append.mpr ⟨opened, .singleton _, fun c last d first => ?_⟩
    obtain rfl := Option.some.inj first
    rw [List.getLast?_cons_of_ne_nil hf.filled] at last
    exact ⟨fun null => absurd null (by decide), fun left => absurd left (hf.ends c last)⟩
  filled := List.cons_ne_nil _ _
  starts c first := by
    obtain rfl := Option.some.inj first
    exact ⟨by decide, by decide⟩
  ends c last := by
    rw [Fragment.parens, List.getLast?_append_of_ne_nil _ (List.cons_ne_nil _ _)] at last
    obtain rfl := Option.some.inj last
    decide

end Coherent

/-! ### Whole fragments -/

namespace Evaluable

theorem single (finite : ∀ v, c = .literal v → v.Finite) (present : c ≠ .literal .null)
    (left : c ≠ .leftParen) (right : c ≠ .rightParen) (word : c ≠ .keyword .SELECT) :
    Evaluable [c] := ⟨.single finite present left right, .cons word .nil⟩

theorem literal {v : Value} (finite : v.Finite) (present : v ≠ .null) : Evaluable [.literal v] := by
  refine .single ?_ (fun same => present (Chunk.literal.inj same)) nofun nofun nofun
  intro w same
  obtain rfl := Chunk.literal.inj same
  exact finite

theorem name (s : String) : Evaluable [.name s] := .single (fun _ => nofun) nofun nofun nofun nofun

theorem relation (r : Relation) : Evaluable [.relation r] :=
  .single (fun _ => nofun) nofun nofun nofun nofun

theorem comma : Evaluable [.comma] :=
  .single (fun _ => nofun) nofun (by decide) (by decide) nofun

theorem dot : Evaluable [.dot] := .single (fun _ => nofun) nofun (by decide) (by decide) nofun

theorem keyword {k : Keyword} (other : k ≠ .SELECT) : Evaluable [.keyword k] :=
  .single (fun _ => nofun) nofun nofun nofun (by simpa [Chunk.keyword] using other)

theorem junction (kind : Junction) : Evaluable [kind.chunk] := by
  cases kind with
  | all => exact .keyword (by decide)
  | any => exact .keyword (by decide)

theorem comparator (c : Comparator) : c.fragment.Evaluable := by
  cases c with
  | relation r => exact .relation r
  | noneOf => exact ⟨(keyword (by decide)).coherent.append (keyword (by decide)).coherent,
      .cons nofun (.cons nofun .nil)⟩
  | _ => exact .keyword (by decide)

theorem append (hf : f.Evaluable) (hg : g.Evaluable) : Evaluable (f ++ g) :=
  ⟨hf.coherent.append hg.coherent, hf.columns.append hg.columns⟩

theorem equated {r : Relation} (hf : f.Evaluable) (equality : r = .equal ∨ r = .notEqual) :
    Evaluable (f ++ [.relation r] ++ [.literal .null]) := by
  have front := hf.append (relation r)
  exact ⟨hf.coherent.equated equality, front.columns.append (.cons nofun .nil)⟩

theorem parens (hf : f.Evaluable) : f.parens.Evaluable := ⟨hf.coherent.parens, hf.columns.parens⟩

theorem parensIf (needed : Bool) (hf : f.Evaluable) : (f.parensIf needed).Evaluable := by
  cases needed with
  | true => exact hf.parens
  | false => exact hf

theorem separated (hc : Evaluable [c]) {fs : List Fragment} (filled : fs ≠ [])
    (all : ∀ f ∈ fs, f.Evaluable) : (separated c fs).Evaluable := by
  fun_induction Fragment.separated c fs with
  | case1 => exact absurd rfl filled
  | case2 f => exact all f List.mem_cons_self
  | case3 f rest more ih =>
    have others := ih more fun g mem => all g (List.mem_cons_of_mem _ mem)
    exact (all f List.mem_cons_self).append (hc.append others)

theorem path (first : String) (rest : List String) : (path (first :: rest)).Evaluable := by
  refine .separated dot (List.cons_ne_nil _ _) fun f mem => ?_
  obtain ⟨s, _, rfl⟩ := List.mem_map.mp mem
  exact name s

/-- A subquery of one column in its parentheses, and what may follow its source. -/
theorem subquery (column : AttributePath) {clause : Fragment}
    (closing : clause = [] ∨ clause.Evaluable) :
    (Fragment.parens (Subquery.head column ++ clause)).Evaluable := by
  have word : Coherent [.keyword .SELECT] := .single (fun _ => nofun) nofun nofun nofun
  have named : column.fragment.Evaluable := path _ _
  have source : Evaluable ([.keyword .FROM] ++ [.name column.root.objectName]) :=
    append (keyword (by decide)) (name _)
  have body : Evaluable (column.fragment ++
      ([.keyword .FROM] ++ [.name column.root.objectName] ++ clause)) := by
    rcases closing with rfl | closing
    · rw [List.append_nil]
      exact named.append source
    · exact named.append (source.append closing)
  have whole : Subquery.head column ++ clause = .keyword .SELECT :: (column.fragment ++
      ([.keyword .FROM] ++ [.name column.root.objectName] ++ clause)) := by
    simp [Subquery.head]
  have one : OneColumn (Subquery.head column ++ clause) := ⟨_, _, _, whole⟩
  rw [whole] at one ⊢
  exact ⟨(word.append body.coherent).parens, .statement one body.columns⟩

end Evaluable

end Fragment

end RecordQuery
