import RecordQuery.Proofs.Query.Operands
import RecordQuery.Proofs.Text.Literals

/-!
# Fragments read back

The spaces that are put in when a fragment is written keep its chunks apart. Where no space stands,
one of the two chunks is punctuation, and a dot stands behind names only, so no chunk runs into the
next. A lexer that only sees the text finds one lexeme for each chunk.
-/

namespace RecordQuery

open Text (IsWord lexeme? lexemes?)

namespace Chunk

/-- The text of the chunk is one lexeme, if it is no name. -/
def Readable : Chunk → Prop
  | raw s => s = "COUNT()"
  | literal v => v.Finite
  | _ => True

def name? : Chunk → Option String
  | name s => some s
  | _ => none

/-- What may stand behind the chunk for its text to be over. -/
def Leaves (c : Chunk) (t : List Char) : Prop :=
  (∃ p, c = .token (.punctuation p)) ∨
    ∀ x ∈ t.head?, x = ' ' ∨ x = ')' ∨ x = ',' ∨ x = '.' ∧ ∃ s, c = .name s

variable {c d : Chunk} {t : List Char}

theorem keyword_isWord (k : Keyword) : IsWord k.text.toList := by
  cases k <;> decide

theorem lexeme?_relation (r : Relation) (ends : ∀ x ∈ t.head?, x ≠ '=') :
    lexeme? (r.text.toList ++ t) = some (r.text.toList, t) := by
  cases t with
  | nil => cases r <;> rfl
  | cons x t =>
    have other := ends x rfl
    cases r with
    | less =>
      show Text.splitSign? ('<' :: x :: t) = _
      rw [Text.splitSign?]
      · rfl
      · rintro _ ⟨⟩
        exact other rfl
    | greater =>
      show Text.splitSign? ('>' :: x :: t) = _
      rw [Text.splitSign?]
      · rfl
      · rintro _ ⟨⟩
        exact other rfl
    | _ => rfl

theorem Leaves.ends (h : c.Leaves t) (solid : ∀ p, c ≠ .token (.punctuation p)) : Text.Ends t := by
  rcases h with ⟨p, same⟩ | ends
  · exact absurd same (solid p)
  · intro x mem
    rcases ends x mem with same | same | same | ⟨same, _⟩
    · exact .inl same
    · exact .inr (.inl same)
    · exact .inr (.inr (.inl same))
    · exact .inr (.inr (.inr same))

/-- No dot stands behind anything but a name. -/
theorem Leaves.undotted (h : c.Leaves t) (solid : ∀ p, c ≠ .token (.punctuation p))
    (unnamed : ∀ s, c ≠ .name s) : ∀ x ∈ t.head?, x = ' ' ∨ x = ')' ∨ x = ',' := by
  rcases h with ⟨p, same⟩ | ends
  · exact absurd same (solid p)
  · intro x mem
    rcases ends x mem with same | same | same | ⟨_, s, same⟩
    · exact .inl same
    · exact .inr (.inl same)
    · exact .inr (.inr same)
    · exact absurd same (unnamed s)

theorem lexeme?_text (readable : c.Readable) (named : ∀ s, c = .name s → IsWord s.toList)
    (leaves : c.Leaves t) : lexeme? (c.text.toList ++ t) = some (c.text.toList, t) := by
  cases c with
  | token k =>
    cases k with
    | punctuation p => cases p <;> exact Text.lexeme?_punctuation rfl t
    | keyword k => exact Text.lexeme?_word (keyword_isWord k) (leaves.ends nofun)
    | relation r =>
      refine lexeme?_relation r fun x mem => ?_
      rcases leaves.undotted nofun nofun x mem with rfl | rfl | rfl
      · decide
      · decide
      · decide
  | name s => exact Text.lexeme?_word (named s rfl) (leaves.ends nofun)
  | raw s =>
    obtain rfl : s = "COUNT()" := readable
    exact Text.lexeme?_count t
  | number n =>
    have digits : (number n).text.toList = Text.Numeral.digits n := String.toList_ofList
    rw [digits]
    refine Text.lexeme?_numeral (.digits n) fun x mem => ?_
    rcases leaves.undotted nofun nofun x mem with rfl | rfl | rfl
    · rfl
    · rfl
    · rfl
  | literal v =>
    rw [Fragment.toList_text_literal]
    exact Value.lexeme?_literal readable (leaves.undotted nofun nofun)

/-- Where no space stands, one of the two chunks is punctuation. -/
theorem of_not_spaced (close : c.spaced d = false) :
    (∃ p, c = .token (.punctuation p)) ∨ d = .rightParen ∨ d = .comma ∨ d = .dot := by
  unfold spaced at close
  split at close
  · exact .inr (.inl rfl)
  · exact .inr (.inr (.inl rfl))
  · exact .inr (.inr (.inr rfl))
  · exact .inl ⟨_, rfl⟩
  · exact .inl ⟨_, rfl⟩
  · cases close
  · exact .inl ⟨_, rfl⟩
  · cases close

end Chunk

namespace Fragment

variable {f g : Fragment} {c d : Chunk}

/-- Every chunk that is no name is one lexeme, and dots stand behind names. -/
structure Tidy (f : Fragment) : Prop where
  readable : ∀ c ∈ f, c.Readable
  starts : f.head? ≠ some .dot
  dots : f.IsChain fun c d => d = .dot → ∃ s, c = .name s

/-- The names in a fragment. -/
def names (f : Fragment) : List String := f.filterMap Chunk.name?

theorem mem_names {s : String} : s ∈ f.names ↔ Chunk.name s ∈ f := by
  simp only [names, List.mem_filterMap]
  constructor
  · intro h
    obtain ⟨c, mem, same⟩ := h
    cases c with
    | name t =>
      obtain rfl := Option.some.inj same
      exact mem
    | _ => cases same
  · exact fun mem => ⟨_, mem, rfl⟩

theorem exists_write (d : Chunk) (rest : Fragment) :
    ∃ t, (write (d :: rest)).toList = d.text.toList ++ t := by
  cases rest with
  | nil => exact ⟨[], (List.append_nil _).symm⟩
  | cons e rest => exact ⟨_, write_cons d e rest⟩

/-- What is written behind a chunk lets it end. -/
theorem leaves_write (dots : d = .dot → ∃ s, c = .name s) (rest : Fragment) :
    c.Leaves ((if c.spaced d then " " else "").toList ++ (write (d :: rest)).toList) := by
  obtain ⟨t, written⟩ := exists_write d rest
  cases close : c.spaced d with
  | true => exact .inr fun x mem => .inl (Option.some.inj mem).symm
  | false =>
    rcases Chunk.of_not_spaced close with punctuation | rfl | rfl | rfl
    · exact .inl punctuation
    · rw [written]
      exact .inr fun x mem => .inr (.inl (Option.some.inj mem).symm)
    · rw [written]
      exact .inr fun x mem => .inr (.inr (.inl (Option.some.inj mem).symm))
    · rw [written]
      exact .inr fun x mem => .inr (.inr (.inr ⟨(Option.some.inj mem).symm, dots rfl⟩))

theorem lexemes?_behind (s : List Char) (space : Bool) :
    lexemes? ((if space then " " else "").toList ++ s) = lexemes? s := by
  cases space with
  | true => exact Text.lexemes?_space s
  | false => rfl

/-- A lexer finds the chunks in the text, one lexeme for each. -/
theorem lexemes?_write (readable : ∀ c ∈ f, c.Readable)
    (dots : f.IsChain fun c d => d = .dot → ∃ s, c = .name s)
    (named : ∀ s ∈ f.names, IsWord s.toList) :
    lexemes? f.write.toList = some (f.map fun c => c.text.toList) := by
  induction f with
  | nil => exact Text.lexemes?_nil
  | cons c rest ih =>
    have first : c.Readable := readable c List.mem_cons_self
    have word (s : String) (same : c = .name s) : IsWord s.toList :=
      named s (mem_names.mpr (same ▸ List.mem_cons_self))
    have others := ih (fun d mem => readable d (List.mem_cons_of_mem _ mem)) dots.of_cons
      fun s mem => named s (mem_names.mpr (List.mem_cons_of_mem _ (mem_names.mp mem)))
    cases rest with
    | nil =>
      have alone := Chunk.lexeme?_text first word (t := []) (.inr nofun)
      rw [List.append_nil] at alone
      rw [write, Text.lexemes?_lexeme alone, Text.lexemes?_nil]
      rfl
    | cons d rest =>
      have behind := (List.isChain_cons_cons.mp dots).1
      have found := Chunk.lexeme?_text first word (leaves_write behind rest)
      rw [write_cons, Text.lexemes?_lexeme found, lexemes?_behind, others]
      rfl

end Fragment

end RecordQuery
