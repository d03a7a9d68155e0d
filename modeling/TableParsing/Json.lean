/-! JSON values, as far as a reader of tables tells them apart: natural numbers are
kept, any other number is only known to be one. Escapes in a string can name halves
of surrogate pairs; a string that spells no text is `none`, and may stand only where
the value is passed over. -/

namespace TableParsing

inductive Json
  | null
  | bool (b : Bool)
  | natural (n : Nat)
  | number
  | text (t : Option String)
  | array (items : List Json)
  | object (fields : List (Option String × Json))

namespace Json

def string (t : String) : Json := text (some t)

def isBlank (c : Char) : Bool := c = ' ' || c = '\n' || c = '\t' || c = '\r'

def skipBlanks (cs : List Char) : List Char := cs.dropWhile isBlank

end Json

end TableParsing
