import RecordQuery.Condition.Written
import RecordQuery.Proofs.Fragment.Balanced

/-!
# Chains without mixture

A chain is what stands in one pair of parentheses, or in none, under AND and OR. A fragment is
unmixed when no chain of it, at any depth, has both words. A scan from left to right decides this:
it keeps the word that each open chain has used so far.
-/

namespace RecordQuery

open Fragment (Balanced)

/-- Two words with balanced text between them stand in one chain, and are the same word. -/
def Fragment.Unmixed (f : Fragment) : Prop :=
  ∀ before between after : Fragment, ∀ j k : Junction,
    f = before ++ j.chunk :: (between ++ k.chunk :: after) → between.Balanced → j = k

/-! ### The scan -/

/-- The word of a chunk that joins conditions. -/
def Chunk.junction? (c : Chunk) : Option Junction :=
  if c = Junction.all.chunk then some .all else if c = Junction.any.chunk then some .any else none

/-- The word of each open chain, innermost first; none where there was no word yet. -/
abbrev Levels := List (Option Junction)

/-- The levels after a chunk, unless it closes nothing or mixes words. -/
def Chunk.level? (c : Chunk) : Levels → Option Levels
  | [] => none
  | top :: outer =>
    if c = .leftParen then some (none :: top :: outer)
    else if c = .rightParen then some outer
    else match c.junction? with
      | none => some (top :: outer)
      | some kind => if top = none ∨ top = some kind then some (some kind :: outer) else none

def Fragment.levels? (f : Fragment) (levels : Levels) : Option Levels :=
  f.foldlM (fun levels c => c.level? levels) levels

variable {f g : Fragment} {levels outer : Levels} {top : Option Junction} {kind : Junction}

namespace Chunk

@[simp] theorem level?_leftParen : leftParen.level? (top :: outer) = some (none :: top :: outer) :=
  rfl

@[simp] theorem level?_rightParen : rightParen.level? (top :: outer) = some outer := rfl

theorem level?_word :
    kind.chunk.level? (top :: outer) =
      if top = none ∨ top = some kind then some (some kind :: outer) else none := by
  cases kind <;> rfl

/-- No parenthesis, and no word that joins conditions. -/
structure Plain (c : Chunk) : Prop where
  left : c ≠ .leftParen
  right : c ≠ .rightParen
  word : c.junction? = none

theorem Plain.level? {c : Chunk} (plain : c.Plain) :
    c.level? (top :: outer) = some (top :: outer) := by
  rw [Chunk.level?, if_neg plain.left, if_neg plain.right, plain.word]

theorem plain_name (s : String) : (name s).Plain := ⟨nofun, nofun, rfl⟩

theorem plain_literal (v : Value) : (literal v).Plain := ⟨nofun, nofun, rfl⟩

theorem plain_relation (r : Relation) : (relation r).Plain := ⟨nofun, nofun, rfl⟩

theorem plain_dot : dot.Plain := ⟨by decide, by decide, rfl⟩

theorem plain_comma : comma.Plain := ⟨by decide, by decide, rfl⟩

theorem plain_keyword {k : Keyword} (and : k ≠ .AND) (or : k ≠ .OR) : (keyword k).Plain := by
  refine ⟨nofun, nofun, ?_⟩
  rw [junction?, if_neg (by simpa [Junction.chunk, keyword] using and),
    if_neg (by simpa [Junction.chunk, keyword] using or)]

end Chunk

namespace Fragment

@[simp] theorem levels?_nil : levels? [] levels = some levels := rfl

theorem levels?_cons (c : Chunk) : levels? (c :: f) levels = (c.level? levels).bind f.levels? := rfl

theorem levels?_append : levels? (f ++ g) levels = (f.levels? levels).bind g.levels? :=
  List.foldlM_append

/-- Balanced text leaves the levels outside alone and never takes back the word of its own. -/
theorem Balanced.levels? (balanced : f.Balanced) (run : f.levels? (top :: outer) = some levels) :
    ∃ top', levels = top' :: outer ∧ (top ≠ none → top' = top) := by
  induction balanced generalizing top outer levels with
  | nil =>
    cases run
    exact ⟨top, rfl, fun _ => rfl⟩
  | @chunk c f left right _ ih =>
    rw [levels?_cons, Option.bind_eq_some_iff] at run
    obtain ⟨next, step, run⟩ := run
    rw [Chunk.level?, if_neg left, if_neg right] at step
    cases word : c.junction? with
    | none =>
      simp only [word, Option.some.injEq] at step
      subst step
      exact ih run
    | some kind =>
      simp only [word, Option.ite_none_right_eq_some, Option.some.injEq] at step
      obtain ⟨fits, rfl⟩ := step
      obtain ⟨top', rfl, kept⟩ := ih run
      refine ⟨top', rfl, fun used => ?_⟩
      rw [kept (Option.some_ne_none kind), fits.resolve_left used]
  | group _ _ ihInner ihRest =>
    rw [parens_append, levels?_cons, Chunk.level?_leftParen, Option.bind_some, levels?_append,
      Option.bind_eq_some_iff] at run
    obtain ⟨next, inner, run⟩ := run
    obtain ⟨closed, rfl, _⟩ := ihInner inner
    rw [levels?_cons, Chunk.level?_rightParen, Option.bind_some] at run
    exact ihRest run

/-- What the scan accepts is unmixed. -/
theorem unmixed_of_levels? (run : f.levels? [none] = some levels) : f.Unmixed := by
  rintro before between after j k rfl balanced
  rw [levels?_append, Option.bind_eq_some_iff] at run
  obtain ⟨reached, _, run⟩ := run
  rw [levels?_cons, Option.bind_eq_some_iff] at run
  obtain ⟨first, step, run⟩ := run
  cases reached with
  | nil => cases step
  | cons top outer =>
    rw [Chunk.level?_word, Option.ite_none_right_eq_some] at step
    obtain ⟨_, ⟨⟩⟩ := step
    rw [levels?_append, Option.bind_eq_some_iff] at run
    obtain ⟨second, middle, run⟩ := run
    obtain ⟨top', rfl, kept⟩ := balanced.levels? middle
    rw [kept (Option.some_ne_none j), levels?_cons, Option.bind_eq_some_iff] at run
    obtain ⟨_, last, _⟩ := run
    rw [Chunk.level?_word, Option.ite_none_right_eq_some] at last
    rcases last.1 with impossible | same
    · cases impossible
    · exact Option.some.inj same

/-! ### Fragments that keep the levels -/

/-- A balanced fragment that uses no word of the chain it stands in. -/
structure Neutral (f : Fragment) : Prop where
  balanced : f.Balanced
  keeps : ∀ top outer, f.levels? (top :: outer) = some (top :: outer)

/-- A balanced fragment that is neutral in parentheses of its own. -/
structure Enclosable (f : Fragment) : Prop where
  balanced : f.Balanced
  returns : ∀ outer, ∃ top, f.levels? (none :: outer) = some (top :: outer)

namespace Neutral

theorem nil : Neutral [] := ⟨.nil, fun _ _ => rfl⟩

theorem cons {c : Chunk} (plain : c.Plain) (rest : f.Neutral) : Neutral (c :: f) := by
  refine ⟨.chunk plain.left plain.right rest.balanced, fun top outer => ?_⟩
  rw [levels?_cons, plain.level?]
  exact rest.keeps top outer

theorem append (hf : f.Neutral) (hg : g.Neutral) : Neutral (f ++ g) := by
  refine ⟨hf.balanced.append hg.balanced, fun top outer => ?_⟩
  rw [levels?_append, hf.keeps, Option.bind_some, hg.keeps]

theorem enclosable (hf : f.Neutral) : f.Enclosable :=
  ⟨hf.balanced, fun outer => ⟨none, hf.keeps none outer⟩⟩

theorem separated {c : Chunk} (plain : c.Plain) {fs : List Fragment} (all : ∀ f ∈ fs, f.Neutral) :
    (separated c fs).Neutral := by
  fun_induction Fragment.separated c fs with
  | case1 => exact .nil
  | case2 f => exact all f List.mem_cons_self
  | case3 f rest _ ih =>
    refine (all f List.mem_cons_self).append (.cons plain (ih ?_))
    exact fun g hg => all g (List.mem_cons_of_mem _ hg)

theorem path (segments : List String) : (path segments).Neutral := by
  refine .separated Chunk.plain_dot fun f hf => ?_
  obtain ⟨s, _, rfl⟩ := List.mem_map.mp hf
  exact .cons (Chunk.plain_name s) .nil

end Neutral

theorem Enclosable.behind (hg : g.Enclosable) (hf : f.Neutral) : Enclosable (f ++ g) := by
  refine ⟨hf.balanced.append hg.balanced, fun outer => ?_⟩
  obtain ⟨top, run⟩ := hg.returns outer
  refine ⟨top, ?_⟩
  rw [levels?_append, hf.keeps, Option.bind_some, run]

theorem Enclosable.parens (hf : f.Enclosable) : f.parens.Neutral := by
  refine ⟨hf.balanced.parens, fun top outer => ?_⟩
  obtain ⟨inner, run⟩ := hf.returns (top :: outer)
  rw [Fragment.parens, List.cons_append, levels?_cons, Chunk.level?_leftParen, Option.bind_some,
    levels?_append, run, Option.bind_some, levels?_cons, Chunk.level?_rightParen, Option.bind_some,
    levels?_nil]

/-- One word between neutral parts is all that their chain uses. -/
theorem levels?_separated {fs : List Fragment} (all : ∀ f ∈ fs, f.Neutral)
    (fits : top = none ∨ top = some kind) :
    ∃ top', (separated kind.chunk fs).levels? (top :: outer) = some (top' :: outer) := by
  fun_induction Fragment.separated kind.chunk fs generalizing top with
  | case1 => exact ⟨top, rfl⟩
  | case2 f => exact ⟨top, (all f List.mem_cons_self).keeps top outer⟩
  | case3 f rest _ ih =>
    rw [levels?_append, (all f List.mem_cons_self).keeps, Option.bind_some, levels?_cons,
      Chunk.level?_word, if_pos fits, Option.bind_some]
    exact ih (fun g hg => all g (List.mem_cons_of_mem _ hg)) (.inr rfl)

theorem Enclosable.separated {fs : List Fragment} (all : ∀ f ∈ fs, f.Neutral) :
    (separated kind.chunk fs).Enclosable := by
  refine ⟨.separated ?_ ?_ fun f hf => (all f hf).balanced, fun _ => ?_⟩
  · cases kind <;> exact nofun
  · cases kind <;> exact nofun
  · exact levels?_separated all (.inl rfl)

theorem Enclosable.unmixed (hf : f.Enclosable) : f.Unmixed := by
  obtain ⟨_, run⟩ := hf.returns []
  exact unmixed_of_levels? run

end Fragment

end RecordQuery
