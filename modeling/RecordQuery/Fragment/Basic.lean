import RecordQuery.Fragment.Token
import RecordQuery.Value.Literal

/-!
# Fragments

A piece of query text is a sequence of chunks. The spaces are no chunks: whether one stands
between two chunks follows from the two alone, and they are put in when the text is written.
-/

namespace RecordQuery

inductive Chunk where
  | token (t : Token)
  | name (s : String)
  | raw (s : String)
  | number (n : Nat)
  | literal (v : Value)
deriving DecidableEq

namespace Chunk

def keyword (k : Keyword) : Chunk := .token (.keyword k)

def relation (r : Relation) : Chunk := .token (.relation r)

def leftParen : Chunk := .token (.punctuation .leftParen)

def rightParen : Chunk := .token (.punctuation .rightParen)

def comma : Chunk := .token (.punctuation .comma)

def dot : Chunk := .token (.punctuation .dot)

def text : Chunk → String
  | token t => t.text
  | name s => s
  | raw s => s
  | number n => String.ofList (Text.Numeral.digits n)
  | literal v => v.literal

/-- Everything but signs and punctuation reads like a word. -/
def isWord : Chunk → Bool
  | token (.keyword _) => true
  | token _ => false
  | _ => true

/-- Whether a space stands between two chunks. Nothing is spaced from closing punctuation and
dots, nor from what an opening parenthesis encloses; a comma is followed by a space, a comparison
sign stands between spaces, and so does a word between words. -/
def spaced : Chunk → Chunk → Bool
  | _, token (.punctuation .rightParen) => false
  | _, token (.punctuation .comma) => false
  | _, token (.punctuation .dot) => false
  | token (.punctuation .leftParen), _ => false
  | token (.punctuation .dot), _ => false
  | token (.punctuation .comma), _ => true
  | token (.punctuation .rightParen), next => next.isWord
  | _, _ => true

end Chunk

abbrev Fragment := List Chunk

namespace Fragment

def write : Fragment → String
  | [] => ""
  | [c] => c.text
  | c :: d :: rest => c.text ++ (if c.spaced d then " " else "") ++ write (d :: rest)

def parens (f : Fragment) : Fragment := .leftParen :: f ++ [.rightParen]

/-- The fragments with a separator between each two. -/
def separated (separator : Chunk) : List Fragment → Fragment
  | [] => []
  | [f] => f
  | f :: rest => f ++ separator :: separated separator rest

/-- Names with dots between them. -/
def path (segments : List String) : Fragment :=
  separated .dot (segments.map fun s => [.name s])

end Fragment

end RecordQuery
