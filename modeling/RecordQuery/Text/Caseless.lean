/-!
# Letters without case

Some words are read in any mixture of upper and lower case. Only the ASCII letters have a case
here.
-/

namespace RecordQuery.Text

/-- Lower case for ASCII letters; other characters stay. -/
def lower (s : List Char) : List Char := s.map Char.toLower

end RecordQuery.Text
