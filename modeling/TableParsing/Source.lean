/-! What the parsing engines read: tokens with their places in the text, or lexical
errors. A source is the list of everything that reading it yields; after the last
item every read is the end of input. -/

namespace TableParsing

/-- A stretch of text, from its first to its last line and column. -/
structure Location where
  firstLine : Nat
  firstColumn : Nat
  lastLine : Nat
  lastColumn : Nat
  deriving DecidableEq

namespace Location

def zero : Location := ⟨0, 0, 0, 0⟩

instance : Inhabited Location := ⟨zero⟩

def merge (a b : Location) : Location := ⟨a.firstLine, a.firstColumn, b.lastLine, b.lastColumn⟩

def ending (a : Location) : Location := ⟨a.lastLine, a.lastColumn, a.lastLine, a.lastColumn⟩

def render (a : Location) : String :=
  Nat.repr a.firstLine ++ ":" ++ Nat.repr a.firstColumn ++ "-" ++
    Nat.repr a.lastLine ++ ":" ++ Nat.repr a.lastColumn

def mergesFrom : Location → List Location → List Location
  | _, [] => []
  | a, b :: rest => a.merge b :: mergesFrom (a.merge b) rest

def merges : List Location → List Location
  | [] => []
  | a :: rest => a :: mergesFrom a rest

end Location

structure Token (V : Type) where
  name : String
  text : String
  value : V
  location : Location

structure LexError where
  message : String
  line : Nat
  context : String
  deriving DecidableEq

def LexError.render (e : LexError) : String :=
  "Lexical error on line " ++ Nat.repr e.line ++ ": " ++ e.message ++ "\n" ++ e.context

abbrev Source (V : Type) := List (Except LexError (Token V))

end TableParsing
