import RecordQuery.Proofs.Fragment.Balanced

/-!
# Cuts outside parentheses

A fragment is cut at the marks that stand outside all parentheses: at the words that open the
clauses of a statement, or at the commas of a list. Text that has no such mark of its own, whatever
its parentheses hold, stays in one piece, so what was put together from such pieces comes apart into
them.
-/

namespace RecordQuery

/-- How many parentheses are open after a chunk. -/
def Chunk.openAfter (c : Chunk) (depth : Nat) : Nat :=
  if c = .leftParen then depth + 1 else if c = .rightParen then depth - 1 else depth

/-- The words that open the clauses of a statement, in their order. -/
def clauseWords : List Keyword := [.SELECT, .FROM, .WHERE, .ORDER, .LIMIT, .OFFSET]

def Chunk.opensClause (c : Chunk) : Bool := clauseWords.any fun k => c == .keyword k

def Chunk.isComma (c : Chunk) : Bool := c == .comma

namespace Fragment

/-- The text before the first mark that no parenthesis encloses, and each such mark with the text up
to the next one. -/
def cut (mark : Chunk → Bool) : Nat → Fragment → Fragment × List (Chunk × Fragment)
  | _, [] => ([], [])
  | depth, c :: rest =>
    let after := cut mark (c.openAfter depth) rest
    if depth = 0 ∧ mark c = true then ([], (c, after.1) :: after.2) else (c :: after.1, after.2)

/-- Each mark in front of its text. -/
def assemble (pieces : List (Chunk × Fragment)) : Fragment := pieces.flatMap fun p => p.1 :: p.2

/-- The clauses, each with the word that opens it. -/
def sections (f : Fragment) : List (Chunk × Fragment) := (cut Chunk.opensClause 0 f).2

/-- The text of the clause that a word opens. -/
def clause? (f : Fragment) (k : Keyword) : Option Fragment := f.sections.lookup (.keyword k)

/-- The items of a list with commas between them. -/
def items : Fragment → List Fragment
  | [] => []
  | c :: rest =>
    let pieces := cut Chunk.isComma 0 (c :: rest)
    pieces.1 :: pieces.2.map Prod.snd

/-- Balanced, and all marks are inside parentheses. -/
inductive Clear (mark : Chunk → Bool) : Fragment → Prop
  | nil : Clear mark []
  | chunk {c : Chunk} {f : Fragment} (left : c ≠ .leftParen) (right : c ≠ .rightParen)
      (unmarked : mark c = false) (rest : Clear mark f) : Clear mark (c :: f)
  | group {f g : Fragment} (inner : Balanced f) (rest : Clear mark g) : Clear mark (f.parens ++ g)

variable {mark : Chunk → Bool} {c : Chunk} {f g s : Fragment} {depth : Nat}
  {pieces : List (Chunk × Fragment)} {fs : List Fragment}

/-! ### Nothing is lost -/

theorem assemble_cons (c : Chunk) (f : Fragment) (pieces : List (Chunk × Fragment)) :
    assemble ((c, f) :: pieces) = c :: (f ++ assemble pieces) := rfl

theorem infix_assemble {c : Chunk} {f : Fragment} {pieces : List (Chunk × Fragment)}
    (mem : (c, f) ∈ pieces) : f <:+: assemble pieces := by
  obtain ⟨before, after, rfl⟩ := List.append_of_mem mem
  exact ⟨assemble before ++ [c], assemble after, by simp [assemble]⟩

/-! ### Clear text -/

namespace Clear

theorem balanced (h : Clear mark f) : f.Balanced := by
  induction h with
  | nil => exact .nil
  | chunk left right _ _ ih => exact .chunk left right ih
  | group inner _ ih => exact .group inner ih

theorem append (hf : Clear mark f) (hg : Clear mark g) : Clear mark (f ++ g) := by
  induction hf with
  | nil => exact hg
  | chunk left right unmarked _ ih => exact .chunk left right unmarked ih
  | group inner _ ih =>
    rw [List.append_assoc]
    exact .group inner ih

theorem parens (h : f.Balanced) : Clear mark f.parens := by
  have grouped : Clear mark (f.parens ++ []) := .group h .nil
  rwa [List.append_nil] at grouped

theorem separated (left : c ≠ .leftParen) (right : c ≠ .rightParen) (unmarked : mark c = false)
    (all : ∀ f ∈ fs, Clear mark f) : Clear mark (separated c fs) := by
  fun_induction Fragment.separated c fs with
  | case1 => exact .nil
  | case2 f => exact all f List.mem_cons_self
  | case3 f rest _ ih =>
    refine (all f List.mem_cons_self).append (.chunk left right unmarked (ih ?_))
    exact fun g hg => all g (List.mem_cons_of_mem _ hg)

theorem path (dots : mark .dot = false) (names : ∀ s, mark (.name s) = false)
    (segments : List String) : Clear mark (path segments) := by
  refine .separated nofun nofun dots fun f hf => ?_
  obtain ⟨s, _, rfl⟩ := List.mem_map.mp hf
  exact .chunk nofun nofun (names s) .nil

end Clear

/-! ### Cuts of clear text -/

theorem cut_mark (left : c ≠ .leftParen) (right : c ≠ .rightParen) (marked : mark c = true)
    (s : Fragment) :
    cut mark 0 (c :: s) = ([], (c, (cut mark 0 s).1) :: (cut mark 0 s).2) := by
  rw [cut, if_pos ⟨rfl, marked⟩, Chunk.openAfter, if_neg left, if_neg right]

theorem cut_pass (pass : ¬ (depth = 0 ∧ mark c = true)) (s : Fragment) :
    cut mark depth (c :: s) =
      (c :: (cut mark (c.openAfter depth) s).1, (cut mark (c.openAfter depth) s).2) := by
  rw [cut, if_neg pass]

/-- Inside parentheses no cut is made. -/
theorem Balanced.cut (h : f.Balanced) (depth : Nat) (s : Fragment) :
    Fragment.cut mark (depth + 1) (f ++ s) =
      (f ++ (Fragment.cut mark (depth + 1) s).1, (Fragment.cut mark (depth + 1) s).2) := by
  induction h generalizing depth s with
  | nil => rfl
  | @chunk c f left right _ ih =>
    rw [List.cons_append, cut_pass (by omega), Chunk.openAfter, if_neg left, if_neg right, ih]
    rfl
  | @group f g _ _ ihInner ihRest =>
    rw [List.append_assoc, parens_append, cut_pass (by omega), Chunk.openAfter, if_pos rfl, ihInner,
      cut_pass (by omega)]
    have closes : Chunk.rightParen.openAfter (depth + 1 + 1) = depth + 1 := rfl
    rw [closes, ihRest, List.append_assoc, parens_append]

theorem Clear.cut (opening : mark .leftParen = false) (h : Clear mark f) (s : Fragment) :
    Fragment.cut mark 0 (f ++ s) = (f ++ (Fragment.cut mark 0 s).1, (Fragment.cut mark 0 s).2) := by
  induction h with
  | nil => rfl
  | @chunk c f left right unmarked _ ih =>
    rw [List.cons_append, cut_pass (by simp [unmarked]), Chunk.openAfter, if_neg left,
      if_neg right, ih]
    rfl
  | @group f g inner _ ih =>
    rw [List.append_assoc, parens_append, cut_pass (by simp [opening])]
    have opens : Chunk.leftParen.openAfter 0 = 0 + 1 := rfl
    have closes : Chunk.rightParen.openAfter (0 + 1) = 0 := rfl
    rw [opens, inner.cut, cut_pass (by omega), closes, ih, List.append_assoc, parens_append]

/-- Pieces that are clear come apart where their marks stand. -/
theorem cut_assemble (opening : mark .leftParen = false) (closing : mark .rightParen = false)
    (hf : Clear mark f) (marked : ∀ p ∈ pieces, mark p.1 = true)
    (clear : ∀ p ∈ pieces, Clear mark p.2) :
    Fragment.cut mark 0 (f ++ assemble pieces) = (f, pieces) := by
  induction pieces generalizing f with
  | nil =>
    rw [hf.cut opening]
    simp [assemble, Fragment.cut]
  | cons p rest ih =>
    obtain ⟨c, g⟩ := p
    have word : mark c = true := marked _ List.mem_cons_self
    have left : c ≠ .leftParen := by
      rintro rfl
      rw [opening] at word
      cases word
    have right : c ≠ .rightParen := by
      rintro rfl
      rw [closing] at word
      cases word
    rw [hf.cut opening, assemble_cons, cut_mark left right word]
    rw [ih (clear _ List.mem_cons_self) (fun p mem => marked p (List.mem_cons_of_mem _ mem))
      fun p mem => clear p (List.mem_cons_of_mem _ mem)]
    simp

/-! ### Clauses and items -/

theorem sections_assemble (marked : ∀ p ∈ pieces, p.1.opensClause = true)
    (clear : ∀ p ∈ pieces, Clear Chunk.opensClause p.2) : (assemble pieces).sections = pieces := by
  have pieced := cut_assemble (by decide) (by decide) .nil marked clear
  rw [List.nil_append] at pieced
  rw [sections, pieced]

theorem balanced_assemble {pieces : List (Chunk × Fragment)}
    (words : ∀ p ∈ pieces, p.1.opensClause = true)
    (clear : ∀ p ∈ pieces, Clear Chunk.opensClause p.2) :
    Balanced (assemble pieces) := by
  induction pieces with
  | nil => exact .nil
  | cons p rest ih =>
    obtain ⟨c, f⟩ := p
    have word : c.opensClause = true := words _ List.mem_cons_self
    have others := ih (fun p mem => words p (List.mem_cons_of_mem _ mem))
      fun p mem => clear p (List.mem_cons_of_mem _ mem)
    refine .chunk ?_ ?_ ((clear _ List.mem_cons_self).balanced.append others)
    · rintro rfl
      exact absurd word (by decide)
    · rintro rfl
      exact absurd word (by decide)

theorem separated_cons (c : Chunk) (f : Fragment) (fs : List Fragment) :
    separated c (f :: fs) = f ++ assemble (fs.map fun g => (c, g)) := by
  induction fs generalizing f with
  | nil => simp [separated, assemble]
  | cons g fs ih =>
    rw [separated, ih, List.map_cons, assemble_cons]
    exact List.cons_ne_nil _ _

/-- A list is read back item by item. -/
theorem items_separated (clear : ∀ f ∈ fs, Clear Chunk.isComma f) (filled : ∀ f ∈ fs, f ≠ []) :
    (separated .comma fs).items = fs := by
  cases fs with
  | nil => rfl
  | cons f fs =>
    have pieced : cut Chunk.isComma 0 (separated .comma (f :: fs)) =
        (f, fs.map fun g => (.comma, g)) := by
      rw [separated_cons]
      refine cut_assemble (by decide) (by decide) (clear f List.mem_cons_self) ?_ ?_
      · intro p mem
        obtain ⟨g, _, rfl⟩ := List.mem_map.mp mem
        rfl
      · intro p mem
        obtain ⟨g, inside, rfl⟩ := List.mem_map.mp mem
        exact clear g (List.mem_cons_of_mem _ inside)
    have nonempty : separated .comma (f :: fs) ≠ [] := by
      rw [separated_cons]
      exact List.append_ne_nil_of_left_ne_nil (filled f List.mem_cons_self) _
    obtain ⟨c, rest, whole⟩ := List.exists_cons_of_ne_nil nonempty
    rw [whole] at pieced ⊢
    rw [items, pieced]
    simp [Function.comp_def]

end Fragment

end RecordQuery
