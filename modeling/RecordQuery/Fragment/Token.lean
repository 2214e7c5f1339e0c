/-!
# Tokens

The fixed words and signs of the query language.
-/

namespace RecordQuery

inductive Keyword where
  | SELECT
  | FROM
  | WHERE
  | ORDER
  | BY
  | LIMIT
  | OFFSET
  | ASC
  | DESC
  | NULLS
  | FIRST
  | LAST
  | AND
  | OR
  | NOT
  | IN
  | LIKE
  | INCLUDES
  | EXCLUDES
deriving DecidableEq

def Keyword.text : Keyword → String
  | SELECT => "SELECT"
  | FROM => "FROM"
  | WHERE => "WHERE"
  | ORDER => "ORDER"
  | BY => "BY"
  | LIMIT => "LIMIT"
  | OFFSET => "OFFSET"
  | ASC => "ASC"
  | DESC => "DESC"
  | NULLS => "NULLS"
  | FIRST => "FIRST"
  | LAST => "LAST"
  | AND => "AND"
  | OR => "OR"
  | NOT => "NOT"
  | IN => "IN"
  | LIKE => "LIKE"
  | INCLUDES => "INCLUDES"
  | EXCLUDES => "EXCLUDES"

/-- The comparison signs. -/
inductive Relation where
  | equal
  | notEqual
  | less
  | greater
  | atMost
  | atLeast
deriving DecidableEq

def Relation.text : Relation → String
  | equal => "="
  | notEqual => "!="
  | less => "<"
  | greater => ">"
  | atMost => "<="
  | atLeast => ">="

/-- The name of a sign in the vocabulary of operators. -/
def Relation.name : Relation → String
  | equal => "eq"
  | notEqual => "ne"
  | less => "lt"
  | greater => "gt"
  | atMost => "le"
  | atLeast => "ge"

inductive Punctuation where
  | leftParen
  | rightParen
  | comma
  | dot
deriving DecidableEq

def Punctuation.text : Punctuation → String
  | leftParen => "("
  | rightParen => ")"
  | comma => ","
  | dot => "."

inductive Token where
  | keyword (k : Keyword)
  | relation (r : Relation)
  | punctuation (p : Punctuation)
deriving DecidableEq

namespace Token

def text : Token → String
  | keyword k => k.text
  | relation r => r.text
  | punctuation p => p.text

def isRelation : Token → Bool
  | relation _ => true
  | _ => false

def isPunctuation : Token → Bool
  | punctuation _ => true
  | _ => false

end Token

end RecordQuery
