import RecordQuery.Proofs.Text.Digits
import RecordQuery.Proofs.Text.Quoting

/-!
# Lexemes of query text

How a reader who knows nothing of chunks cuts a text into lexemes: quoted strings, words, runs of
digits with the signs and marks of numbers, dates and times, comparison signs, and punctuation.
Spaces only separate, and `COUNT()` is one lexeme. Each lexeme is as long as possible, so a lexeme is
found again if what follows it cannot go on with it.
-/

namespace RecordQuery.Text

/-! ### The lexer -/

/-- A letter or an underscore. Every character beyond ASCII passes as a letter. -/
def startsWord (c : Char) : Bool := c.isAlpha || c == '_' || decide (128 ≤ c.toNat)

def partOfWord (c : Char) : Bool := startsWord c || c.isDigit

def startsNumeral (c : Char) : Bool := c.isDigit || c == '+' || c == '-'

def partOfNumeral (c : Char) : Bool := startsNumeral c || c == '.' || c == ':' || c == 'T'

def isPunctuation (c : Char) : Bool := c == '(' || c == ')' || c == ',' || c == '.'

/-- A word with the text behind it, where the parentheses of a count belong to the word. -/
def closeCount (word : List Char) : List Char → List Char × List Char
  | '(' :: ')' :: rest =>
    if word = ['C', 'O', 'U', 'N', 'T'] then (word ++ ['(', ')'], rest)
    else (word, '(' :: ')' :: rest)
  | rest => (word, rest)

/-- Splits off a comparison sign. -/
def splitSign? : List Char → Option (List Char × List Char)
  | '!' :: '=' :: rest => some (['!', '='], rest)
  | '<' :: '=' :: rest => some (['<', '='], rest)
  | '>' :: '=' :: rest => some (['>', '='], rest)
  | '=' :: rest => some (['='], rest)
  | '<' :: rest => some (['<'], rest)
  | '>' :: rest => some (['>'], rest)
  | _ => none

/-- The lexeme at the start of a text that does not start with a space, and the rest. -/
def lexeme? : List Char → Option (List Char × List Char)
  | [] => none
  | c :: rest =>
    let s := c :: rest
    if c = '\'' then (Quoted.scan rest).map fun (body, after) => ('\'' :: body ++ ['\''], after)
    else if startsWord c then some (closeCount (s.takeWhile partOfWord) (s.dropWhile partOfWord))
    else if startsNumeral c then some (s.takeWhile partOfNumeral, s.dropWhile partOfNumeral)
    else if isPunctuation c then some ([c], rest)
    else splitSign? s

/-! ### Nothing is lost -/

theorem Quoted.scan_eq_some {s body after : List Char} (h : Quoted.scan s = some (body, after)) :
    s = body ++ '\'' :: after := by
  fun_induction Quoted.scan s generalizing body with
  | case1 => cases h
  | case2 => cases h
  | case3 c rest ih =>
    obtain ⟨⟨inner, behind⟩, read, same⟩ := Option.map_eq_some_iff.mp h
    cases same
    rw [ih read]
    rfl
  | case4 rest =>
    cases h
    rfl
  | case5 c rest _ _ _ ih =>
    obtain ⟨⟨inner, behind⟩, read, same⟩ := Option.map_eq_some_iff.mp h
    cases same
    rw [ih read]
    rfl

theorem closeCount_append (word s : List Char) :
    (closeCount word s).1 ++ (closeCount word s).2 = word ++ s := by
  unfold closeCount
  split
  · split
    · simp
    · rfl
  · rfl

theorem closeCount_ne_nil {word : List Char} (filled : word ≠ []) (s : List Char) :
    (closeCount word s).1 ≠ [] := by
  unfold closeCount
  split
  · split
    · exact List.append_ne_nil_of_left_ne_nil filled _
    · exact filled
  · exact filled

theorem splitSign?_eq_some {s l t : List Char} (h : splitSign? s = some (l, t)) :
    l ≠ [] ∧ s = l ++ t := by
  unfold splitSign? at h
  split at h <;> cases h <;> exact ⟨List.cons_ne_nil _ _, rfl⟩

/-- A lexeme is a part of the text, and not an empty one. -/
theorem lexeme?_eq_some {s l t : List Char} (h : lexeme? s = some (l, t)) : l ≠ [] ∧ s = l ++ t := by
  cases s with
  | nil => cases h
  | cons c rest =>
    simp only [lexeme?] at h
    split at h
    · next quote =>
      obtain ⟨⟨body, after⟩, read, same⟩ := Option.map_eq_some_iff.mp h
      cases same
      rw [quote, Quoted.scan_eq_some read]
      exact ⟨List.cons_ne_nil _ _, by simp⟩
    split at h
    · next start =>
      have part : partOfWord c = true := by rw [partOfWord, start]; rfl
      have word : (c :: rest).takeWhile partOfWord ≠ [] := by
        rw [List.takeWhile_cons_of_pos part]
        exact List.cons_ne_nil _ _
      have filled := closeCount_ne_nil word ((c :: rest).dropWhile partOfWord)
      have whole := closeCount_append ((c :: rest).takeWhile partOfWord)
        ((c :: rest).dropWhile partOfWord)
      rw [Option.some.inj h, List.takeWhile_append_dropWhile] at whole
      rw [Option.some.inj h] at filled
      exact ⟨filled, whole.symm⟩
    split at h
    · next start =>
      cases h
      have part : partOfNumeral c = true := by rw [partOfNumeral, start]; rfl
      refine ⟨?_, List.takeWhile_append_dropWhile.symm⟩
      rw [List.takeWhile_cons_of_pos part]
      exact List.cons_ne_nil _ _
    split at h
    · cases h
      exact ⟨List.cons_ne_nil _ _, rfl⟩
    · exact splitSign?_eq_some h

/-- All lexemes of a text, if it is one lexeme after another. -/
def lexemes? : List Char → Option (List (List Char))
  | [] => some []
  | c :: rest =>
    if c = ' ' then lexemes? rest
    else match _read : lexeme? (c :: rest) with
      | none => none
      | some (l, after) => (lexemes? after).map (l :: ·)
termination_by s => s.length
decreasing_by
  · simp
  · obtain ⟨filled, same⟩ := lexeme?_eq_some _read
    have positive := List.length_pos_iff.mpr filled
    rw [same, List.length_append]
    omega

theorem lexemes?_nil : lexemes? [] = some [] := by
  rw [lexemes?]

theorem lexemes?_space (s : List Char) : lexemes? (' ' :: s) = lexemes? s := by
  rw [lexemes?, if_pos rfl]

theorem lexemes?_lexeme {s l t : List Char} (h : lexeme? s = some (l, t)) :
    lexemes? s = (lexemes? t).map (l :: ·) := by
  cases s with
  | nil => cases h
  | cons c rest =>
    have solid : c ≠ ' ' := by
      rintro rfl
      cases h
    rw [lexemes?, if_neg solid]
    split
    · next read =>
      rw [read] at h
      cases h
    · next read =>
      rw [read] at h
      cases h
      rfl

/-! ### Lexemes found again -/

/-- The text is over, or a space, a closing parenthesis, a comma or a dot follows. -/
def Ends (t : List Char) : Prop := ∀ c ∈ t.head?, c = ' ' ∨ c = ')' ∨ c = ',' ∨ c = '.'

/-- A run of word characters that starts like a word. -/
structure IsWord (l : List Char) : Prop where
  starts : ∃ c ∈ l.head?, startsWord c = true
  parts : ∀ c ∈ l, partOfWord c = true

theorem isWord_iff (l : List Char) :
    (l.head?.any startsWord && l.all partOfWord) = true ↔ IsWord l := by
  rw [Bool.and_eq_true, Option.any_eq_true, List.all_eq_true]
  exact ⟨fun h => ⟨h.1, h.2⟩, fun h => ⟨h.starts, h.parts⟩⟩

instance (l : List Char) : Decidable (IsWord l) := decidable_of_iff _ (isWord_iff l)

/-- A run of numeral characters that starts with a digit or a sign. -/
structure IsNumeral (l : List Char) : Prop where
  starts : ∃ c ∈ l.head?, startsNumeral c = true
  parts : ∀ c ∈ l, partOfNumeral c = true

theorem startsWord_of_startsNumeral {c : Char} (start : startsNumeral c = true) :
    startsWord c = false := by
  simp only [startsNumeral, Bool.or_eq_true, beq_iff_eq, or_assoc] at start
  rcases start with digit | rfl | rfl
  · have range := digit_range digit
    have underscore : c ≠ '_' := by
      rintro rfl
      cases digit
    have letter : c.isAlpha = false := by
      show (decide (c.val ≥ 'A'.val ∧ c.val ≤ 'Z'.val) ||
        (decide (c.val ≥ 'a'.val) && decide (c.val ≤ 'z'.val))) = false
      simp [UInt32.le_iff_toNat_le]
      omega
    simp only [startsWord, letter, Bool.false_or, Bool.or_eq_false_iff, beq_eq_false_iff_ne,
      decide_eq_false_iff_not]
    exact ⟨underscore, by omega⟩
  · rfl
  · rfl

theorem closeCount_of_ends (word : List Char) {t : List Char} (ends : Ends t) :
    closeCount word t = (word, t) := by
  unfold closeCount
  split
  · next rest =>
    have first := ends '(' rfl
    simp at first
  · rfl

theorem lexeme?_word {l t : List Char} (word : IsWord l) (ends : Ends t) :
    lexeme? (l ++ t) = some (l, t) := by
  obtain ⟨⟨c, first, start⟩, parts⟩ := word
  cases l with
  | nil => cases first
  | cons d rest =>
    obtain rfl : d = c := Option.some.inj first
    have quote : d ≠ '\'' := by
      rintro rfl
      cases start
    have stops (c : Char) (mem : c ∈ t.head?) : partOfWord c = false := by
      rcases ends c mem with rfl | rfl | rfl | rfl <;> rfl
    obtain ⟨run, behind⟩ := takeWhile_run parts stops
    rw [List.cons_append] at run behind
    rw [List.cons_append]
    simp only [lexeme?, if_neg quote, if_pos start, run, behind, closeCount_of_ends _ ends]

theorem lexeme?_count (t : List Char) :
    lexeme? (['C', 'O', 'U', 'N', 'T', '(', ')'] ++ t) =
      some (['C', 'O', 'U', 'N', 'T', '(', ')'], t) := rfl

theorem lexeme?_numeral {l t : List Char} (numeral : IsNumeral l)
    (stops : ∀ c ∈ t.head?, partOfNumeral c = false) : lexeme? (l ++ t) = some (l, t) := by
  obtain ⟨⟨c, first, start⟩, parts⟩ := numeral
  cases l with
  | nil => cases first
  | cons d rest =>
    obtain rfl : d = c := Option.some.inj first
    have quote : d ≠ '\'' := by
      rintro rfl
      cases start
    have word : startsWord d = false := startsWord_of_startsNumeral start
    obtain ⟨run, behind⟩ := takeWhile_run parts stops
    rw [List.cons_append] at run behind
    rw [List.cons_append]
    simp only [lexeme?, if_neg quote, word, if_pos start, run, behind]
    rfl

theorem lexeme?_quote (s t : List Char) :
    lexeme? (Quoted.quote s ++ t) = some (Quoted.quote s, t) := by
  have closing : Quoted.quote s ++ t = '\'' :: (Quoted.encode s ++ '\'' :: t) := by
    simp [Quoted.quote]
  rw [closing]
  simp only [lexeme?, if_pos, Quoted.scan_encode, Option.map_some]
  rfl

theorem lexeme?_punctuation {c : Char} (mark : isPunctuation c = true) (t : List Char) :
    lexeme? (c :: t) = some ([c], t) := by
  simp only [isPunctuation, Bool.or_eq_true, beq_iff_eq, or_assoc] at mark
  rcases mark with rfl | rfl | rfl | rfl <;> rfl

/-! ### Numerals -/

namespace IsNumeral

open Numeral (digits padded sign signed)

variable {l m : List Char}

theorem part_of_isDigit {c : Char} (digit : c.isDigit = true) : partOfNumeral c = true := by
  rw [partOfNumeral, startsNumeral, digit]
  rfl

theorem of_digits (filled : l ≠ []) (all : ∀ c ∈ l, c.isDigit = true) : IsNumeral l := by
  obtain ⟨c, rest, rfl⟩ := List.exists_cons_of_ne_nil filled
  refine ⟨⟨c, rfl, ?_⟩, fun d mem => part_of_isDigit (all d mem)⟩
  rw [startsNumeral, all c List.mem_cons_self]
  rfl

theorem append (h : IsNumeral l) (more : ∀ c ∈ m, partOfNumeral c = true) : IsNumeral (l ++ m) := by
  obtain ⟨⟨c, first, start⟩, parts⟩ := h
  refine ⟨⟨c, ?_, start⟩, List.forall_mem_append.mpr ⟨parts, more⟩⟩
  cases l with
  | nil => cases first
  | cons d rest => exact first

theorem cons {c : Char} (start : startsNumeral c = true) (rest : ∀ c ∈ l, partOfNumeral c = true) :
    IsNumeral (c :: l) := by
  refine ⟨⟨c, rfl, start⟩, List.forall_mem_cons.mpr ⟨?_, rest⟩⟩
  rw [partOfNumeral, start]
  rfl

theorem digits (n : Nat) : IsNumeral (digits n) :=
  of_digits Nat.toDigits_ne_nil fun _ mem => Numeral.isDigit_of_mem_digits mem

theorem padded (width n : Nat) : IsNumeral (padded width n) :=
  of_digits (Numeral.padded_ne_nil width n) fun _ mem => Numeral.isDigit_of_mem_padded mem

theorem signs (negative : Bool) (h : IsNumeral l) : IsNumeral (sign negative ++ l) := by
  cases negative with
  | true => exact cons rfl h.parts
  | false => exact h

theorem signed (n : Int) : IsNumeral (signed n) := signs _ (digits _)

end IsNumeral

end RecordQuery.Text
