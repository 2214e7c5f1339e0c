import RecordQuery.Fragment.Basic

/-!
# Balanced fragments

A fragment is balanced when its parentheses match. The text in a pair of parentheses then ends at
one place only, whatever follows.
-/

namespace RecordQuery.Fragment

inductive Balanced : Fragment → Prop
  | nil : Balanced []
  | chunk {c : Chunk} {f : Fragment} (left : c ≠ .leftParen) (right : c ≠ .rightParen)
      (rest : Balanced f) : Balanced (c :: f)
  | group {f g : Fragment} (inner : Balanced f) (rest : Balanced g) : Balanced (f.parens ++ g)

variable {f g s t : Fragment}

@[simp] theorem parens_append (f s : Fragment) :
    f.parens ++ s = .leftParen :: (f ++ .rightParen :: s) := by
  simp [parens]

namespace Balanced

theorem append (hf : f.Balanced) (hg : g.Balanced) : Balanced (f ++ g) := by
  induction hf with
  | nil => exact hg
  | chunk left right _ ih => exact .chunk left right ih
  | group inner _ _ ih =>
    rw [List.append_assoc]
    exact .group inner ih

theorem parens (hf : f.Balanced) : f.parens.Balanced := by
  have grouped := Balanced.group hf .nil
  rwa [List.append_nil] at grouped

theorem separated {c : Chunk} (left : c ≠ .leftParen) (right : c ≠ .rightParen)
    {fs : List Fragment} (all : ∀ f ∈ fs, f.Balanced) : (separated c fs).Balanced := by
  fun_induction Fragment.separated c fs with
  | case1 => exact .nil
  | case2 f => exact all f List.mem_cons_self
  | case3 f rest _ ih =>
    refine (all f List.mem_cons_self).append (.chunk left right (ih ?_))
    exact fun g hg => all g (List.mem_cons_of_mem _ hg)

/-- Two balanced fragments that stand before a closing parenthesis of the same text are equal. -/
theorem closing_unique (hf : f.Balanced) (hg : g.Balanced)
    (same : f ++ .rightParen :: s = g ++ .rightParen :: t) : f = g ∧ s = t := by
  induction hf generalizing g s t with
  | nil =>
    cases hg with
    | nil => exact ⟨rfl, (List.cons.inj same).2⟩
    | chunk _ right => exact absurd (List.cons.inj same).1.symm right
    | group => simp [Chunk.leftParen, Chunk.rightParen] at same
  | chunk left right _ ih =>
    cases hg with
    | nil => exact absurd (List.cons.inj same).1 right
    | chunk _ _ hg =>
      obtain ⟨rfl, tail⟩ := List.cons.inj same
      obtain ⟨rfl, rest⟩ := ih hg tail
      exact ⟨rfl, rest⟩
    | group =>
      rw [List.append_assoc, parens_append] at same
      exact absurd (List.cons.inj same).1 left
  | group _ _ ihInner ihRest =>
    cases hg with
    | nil => simp [Chunk.leftParen, Chunk.rightParen] at same
    | chunk left =>
      rw [List.append_assoc, parens_append] at same
      exact absurd (List.cons.inj same).1.symm left
    | group inner rest =>
      rw [List.append_assoc, List.append_assoc, parens_append, parens_append] at same
      obtain ⟨rfl, after⟩ := ihInner inner (List.cons.inj same).2
      obtain ⟨rfl, last⟩ := ihRest rest after
      exact ⟨rfl, last⟩

end Balanced

/-! ### Parts -/

theorem infix_separated {separator : Chunk} {f : Fragment} {fs : List Fragment}
    (mem : f ∈ fs) : f <:+: separated separator fs := by
  induction fs with
  | nil => cases mem
  | cons g rest ih =>
    cases rest with
    | nil =>
      obtain rfl := List.mem_singleton.mp mem
      exact List.infix_rfl
    | cons h rest =>
      rcases List.mem_cons.mp mem with rfl | mem
      · exact ⟨[], separator :: separated separator (h :: rest), rfl⟩
      · have tail : separated separator (h :: rest) <:+
            separated separator (g :: h :: rest) := ⟨g ++ [separator], by simp [separated]⟩
        exact (ih mem).trans tail.isInfix

theorem infix_parens (f : Fragment) : f <:+: f.parens := ⟨[.leftParen], [.rightParen], rfl⟩

/-! ### Paths -/

/-- The segments after the first, each behind a dot. -/
def dotted (segments : List String) : Fragment := segments.flatMap fun s => [.dot, .name s]

theorem path_cons (first : String) (rest : List String) :
    path (first :: rest) = .name first :: dotted rest := by
  induction rest generalizing first with
  | nil => rfl
  | cons next rest ih =>
    have step : path (first :: next :: rest) = .name first :: .dot :: path (next :: rest) := rfl
    rw [step, ih]
    rfl

/-- A path is written as its segments with dots between them. -/
theorem write_path (segments : List String) : (path segments).write = ".".intercalate segments := by
  cases segments with
  | nil => rfl
  | cons first rest =>
    induction rest generalizing first with
    | nil => exact String.intercalate_singleton.symm
    | cons next rest ih =>
      have step : path (first :: next :: rest) = .name first :: .dot :: path (next :: rest) := rfl
      rw [String.intercalate_cons_cons, ← ih, step, path_cons next]
      simp [write, Chunk.spaced, Chunk.dot, Chunk.text, Token.text, Punctuation.text,
        String.append_assoc]

/-- A path ends where no dot follows. -/
theorem dotted_unique {a b : List String} (hs : s.head? ≠ some .dot) (ht : t.head? ≠ some .dot)
    (same : dotted a ++ s = dotted b ++ t) : a = b ∧ s = t := by
  induction a generalizing b with
  | nil =>
    cases b with
    | nil => exact ⟨rfl, same⟩
    | cons _ _ => exact absurd (congrArg List.head? same) hs
  | cons x a ih =>
    cases b with
    | nil => exact absurd (congrArg List.head? same).symm ht
    | cons y b =>
      have split : Chunk.dot :: .name x :: (dotted a ++ s) = .dot :: .name y :: (dotted b ++ t) :=
        same
      simp only [List.cons.injEq, Chunk.name.injEq, true_and] at split
      obtain ⟨rfl, after⟩ := split
      obtain ⟨rfl, last⟩ := ih after
      exact ⟨rfl, last⟩

end RecordQuery.Fragment
