import Mathlib.Data.List.Chain
import RecordQuery.Proofs.Fragment.Lexed
import RecordQuery.Proofs.Query.Clauses

/-!
# Statements read back lexeme by lexeme

In the text of every reachable query each chunk is one lexeme: the literals are finite, since no
operator admits another, and dots stand in paths only. What a lexer finds in the text is therefore
the sequence of the chunks.
-/

namespace RecordQuery

/-! ### Tidy fragments -/

namespace Fragment.Tidy

variable {f g : Fragment} {c : Chunk}

theorem nil : Tidy [] where
  readable := List.forall_mem_nil _
  starts := nofun
  dots := .nil

theorem single (readable : c.Readable) (solid : c ≠ .dot) : Tidy [c] where
  readable := List.forall_mem_singleton.mpr readable
  starts := fun same => solid (Option.some.inj same)
  dots := .singleton c

theorem append (hf : f.Tidy) (hg : g.Tidy) : Tidy (f ++ g) where
  readable := List.forall_mem_append.mpr ⟨hf.readable, hg.readable⟩
  starts := by
    cases f with
    | nil => exact hg.starts
    | cons c f => exact hf.starts
  dots := by
    refine List.isChain_append.mpr ⟨hf.dots, hg.dots, ?_⟩
    rintro c _ d first rfl
    exact absurd first hg.starts

theorem parens (h : f.Tidy) : f.parens.Tidy :=
  ((single (c := .leftParen) trivial nofun).append h).append (single trivial nofun)

theorem path (segments : List String) : (path segments).Tidy := by
  cases segments with
  | nil => exact nil
  | cons first rest =>
    rw [path_cons]
    induction rest generalizing first with
    | nil => exact single trivial nofun
    | cons second rest ih =>
      obtain ⟨readable, _, dots⟩ := ih second
      have whole : Chunk.name first :: dotted (second :: rest) =
          .name first :: .dot :: .name second :: dotted rest := rfl
      rw [whole]
      refine ⟨?_, nofun, ?_⟩
      · exact List.forall_mem_cons.mpr ⟨trivial, List.forall_mem_cons.mpr ⟨trivial, readable⟩⟩
      · exact .cons_cons (fun _ => ⟨first, rfl⟩) (.cons_cons nofun dots)

theorem closed : Closed Tidy where
  nil := nil
  append := append
  parens := parens
  path := path
  relation _ := single trivial nofun
  comma := single trivial nofun
  keyword _ := single trivial nofun

end Fragment.Tidy

theorem Comparator.finite_of_admits {c : Comparator} {k : Kind} {o : Operand}
    (h : c.admits k o = true) : ∀ v ∈ o.values, v.Finite := by
  unfold admits at h
  obtain ⟨_, suits⟩ := (Bool.and_eq_true ..).mp h
  intro v mem
  cases o with
  | literal w =>
    obtain rfl := List.mem_singleton.mp mem
    cases v with
    | null => nofun
    | _ => exact Value.finite_of_accepts ((Bool.and_eq_true ..).mp suits).2
  | list vs =>
    obtain ⟨_, all⟩ := (Bool.and_eq_true ..).mp suits
    exact Value.finite_of_accepts (List.all_eq_true.mp all v mem)
  | subquery s => cases mem

namespace Statement

variable {t : Statement}

theorem tidy_assemble {pieces : List (Chunk × Fragment)}
    (words : ∀ p ∈ pieces, p.1.opensClause = true) (all : ∀ p ∈ pieces, p.2.Tidy) :
    (Fragment.assemble pieces).Tidy := by
  induction pieces with
  | nil => exact .nil
  | cons p rest ih =>
    obtain ⟨c, f⟩ := p
    have others := ih (fun p mem => words p (List.mem_cons_of_mem _ mem))
      fun p mem => all p (List.mem_cons_of_mem _ mem)
    obtain ⟨k, _, same⟩ := List.any_eq_true.mp (words _ List.mem_cons_self)
    obtain rfl : c = .keyword k := by simpa using same
    have word : Fragment.Tidy [.keyword k] := .single trivial nofun
    exact word.append ((all _ List.mem_cons_self).append others)

theorem tidy : ∀ t : Statement, t.query.Grounded → t.fragment.Tidy := by
  refine Statement.induction fun t grounded ih => ?_
  rw [fragment_eq]
  refine tidy_assemble (opensClause_pieces t) (pieces_closed Fragment.Tidy.closed grounded ?_ ?_ ?_ ?_)
  · exact .single rfl nofun
  · exact fun n => .single trivial nofun
  · intro c filter o taken v mem
    obtain ⟨_, comparator, kind, admitted⟩ := (grounded.made.here c filter).takes taken
    exact .single (Comparator.finite_of_admits admitted v mem) nofun
  · exact fun s encloses => (ih s encloses).parens

end Statement

/-- Whatever the query, if the names in its text are identifiers, a lexer finds the chunks in the
text, one lexeme for each: none is split and no two run together. -/
theorem Query.text_lexed {q : Query} (reachable : q.Reachable)
    (named : ∀ s ∈ q.fragment.names, Text.IsWord s.toList) :
    Text.lexemes? q.text.toList = some (q.fragment.map fun c => c.text.toList) := by
  have tidy : q.fragment.Tidy := Statement.tidy q.statement reachable.grounded
  exact Fragment.lexemes?_write tidy.readable tidy.dots named

theorem Sample.accountsWithUsers_lexemes : accountsWithUsers.Reachable ∧
    (∀ s ∈ accountsWithUsers.fragment.names, Text.IsWord s.toList) ∧
      Text.lexemes? accountsWithUsers.text.toList =
        some (accountsWithUsers.fragment.map fun c => c.text.toList) := by
  have named : ∀ s ∈ accountsWithUsers.fragment.names, Text.IsWord s.toList := by decide
  exact ⟨accountsWithUsers_reachable, named, Query.text_lexed accountsWithUsers_reachable named⟩

end RecordQuery
