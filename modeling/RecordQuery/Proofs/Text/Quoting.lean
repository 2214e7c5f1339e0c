import RecordQuery.Text.Quoted

/-!
# Reading quoted strings

A reader of query text that has met an opening quote takes a backslash together with the character
behind it and stops at the first quote that is not taken so. On a quoted string it stops at the
closing quote, whatever the string holds and whatever comes after it.
-/

namespace RecordQuery.Text.Quoted

/-- Splits the text behind an opening quote at the quote that closes it. -/
def scan : List Char → Option (List Char × List Char)
  | [] => none
  | ['\\'] => none
  | '\\' :: c :: rest => (scan rest).map fun (body, after) => ('\\' :: c :: body, after)
  | '\'' :: rest => some ([], rest)
  | c :: rest => (scan rest).map fun (body, after) => (c :: body, after)

/-- What stands between the quotes of a quoted string at the start of the text, and what follows
it. -/
def read? : List Char → Option (List Char × List Char)
  | '\'' :: rest => scan rest
  | _ => none

/-- The string that the text between quotes stands for. -/
def decode : List Char → Option (List Char)
  | [] => some []
  | ['\\'] => none
  | '\\' :: c :: rest => do return (← unescape? c) :: (← decode rest)
  | c :: rest => (decode rest).map (c :: ·)

/-- A character is either escaped or is neither of the two that the reader looks for. -/
theorem encodeChar_cases (c : Char) :
    (∃ e, escape? c = some e ∧ encodeChar c = ['\\', e]) ∨
      (c ≠ '\\' ∧ c ≠ '\'' ∧ encodeChar c = [c]) := by
  cases written : escape? c with
  | some e => exact .inl ⟨e, rfl, by simp only [encodeChar, written]⟩
  | none =>
    refine .inr ⟨?_, ?_, by simp only [encodeChar, written]⟩
    · rintro rfl
      cases written
    · rintro rfl
      cases written

theorem encode_cons (c : Char) (s : List Char) : encode (c :: s) = encodeChar c ++ encode s := rfl

theorem scan_plain {c : Char} (slash : c ≠ '\\') (quote : c ≠ '\'') (rest : List Char) :
    scan (c :: rest) = (scan rest).map fun (body, after) => (c :: body, after) := by
  rw [scan]
  all_goals simp_all

theorem decode_plain {c : Char} (slash : c ≠ '\\') (rest : List Char) :
    decode (c :: rest) = (decode rest).map (c :: ·) := by
  rw [decode]
  all_goals simp_all

theorem scan_encode (s t : List Char) : scan (encode s ++ '\'' :: t) = some (encode s, t) := by
  induction s with
  | nil => rfl
  | cons c s ih =>
    rw [encode_cons]
    obtain ⟨e, _, written⟩ | ⟨slash, quote, written⟩ := encodeChar_cases c
    · rw [written]
      simp only [List.cons_append, List.nil_append, scan, ih, Option.map_some]
    · rw [written]
      simp only [List.cons_append, List.nil_append, scan_plain slash quote, ih, Option.map_some]

/-- The reader stops behind the closing quote, whatever follows. -/
theorem read?_quote (s t : List Char) : read? (quote s ++ t) = some (encode s, t) := by
  have closing : quote s ++ t = '\'' :: (encode s ++ '\'' :: t) := by simp [quote]
  rw [closing]
  exact scan_encode s t

theorem decode_encode (s : List Char) : decode (encode s) = some s := by
  induction s with
  | nil => rfl
  | cons c s ih =>
    rw [encode_cons]
    obtain ⟨e, escaped, written⟩ | ⟨slash, _, written⟩ := encodeChar_cases c
    · rw [written]
      simp [decode, unescape_escape escaped, ih]
    · rw [written]
      simp only [List.cons_append, List.nil_append, decode_plain slash, ih, Option.map_some]

theorem encode_injective : Function.Injective encode := by
  intro s t same
  have decoded := congrArg decode same
  rw [decode_encode, decode_encode] at decoded
  exact Option.some.inj decoded

theorem quote_injective : Function.Injective quote := by
  intro s t same
  have between := read?_quote s []
  rw [same, read?_quote t []] at between
  simp only [Option.some.injEq, Prod.mk.injEq, and_true] at between
  exact encode_injective between.symm

end RecordQuery.Text.Quoted
