/-!
# Quoted strings

A quoted string stands between single quotes. A character that would end the string or break the
line is written as a backslash and one more character; every other character stands for itself.
-/

namespace RecordQuery.Text.Quoted

/-- The character that follows the backslash when `c` is escaped. -/
def escape? (c : Char) : Option Char :=
  match c with
  | '\\' => some '\\'
  | '\'' => some '\''
  | '"' => some '"'
  | '\n' => some 'n'
  | '\r' => some 'r'
  | '\t' => some 't'
  | '\x08' => some 'b'
  | '\x0c' => some 'f'
  | _ => none

def encodeChar (c : Char) : List Char :=
  match escape? c with
  | some e => ['\\', e]
  | none => [c]

/-- The text between the quotes. -/
def encode (s : List Char) : List Char := s.flatMap encodeChar

def quote (s : List Char) : List Char := '\'' :: encode s ++ ['\'']

/-- The character that an escape letter stands for. -/
def unescape? (c : Char) : Option Char :=
  match c with
  | '\\' => some '\\'
  | '\'' => some '\''
  | '"' => some '"'
  | 'n' => some '\n'
  | 'r' => some '\r'
  | 't' => some '\t'
  | 'b' => some '\x08'
  | 'f' => some '\x0c'
  | _ => none

@[simp] theorem unescape_escape {c e : Char} (h : escape? c = some e) :
    unescape? e = some c := by
  unfold escape? at h
  split at h <;> cases h <;> rfl

end RecordQuery.Text.Quoted
