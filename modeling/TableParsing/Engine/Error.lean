import TableParsing.Source

/-! How a parse can fail. -/

namespace TableParsing

structure SyntaxError where
  message : String
  text : String
  token : String
  line : Nat
  location : Location
  expected : List String
  recoverable : Bool
  deriving DecidableEq

def SyntaxError.report {V : Type} (token : Option (Token V)) (location : Location)
    (expected : List String) (recoverable : Bool) : SyntaxError :=
  let quoted := expected.map fun name => "'" ++ name ++ "'"
  let line := location.firstLine
  let start := "Parse error on line " ++ Nat.repr line ++ ": "
  match token with
  | some t =>
    { message := start ++ "Expecting " ++ ", ".intercalate quoted ++ ", got '" ++ t.name ++ "'"
      text := t.text
      token := t.name
      line, location, recoverable
      expected := quoted }
  | none =>
    { message := start ++ "Unexpected end of input"
      text := ""
      token := "$end"
      line, location, recoverable
      expected := quoted }

inductive ParseError
  | unexpected (e : SyntaxError)
  | lexical (e : LexError)
  | aborted
  /-- A further error before any token was shifted after a recovery, with nothing
  left to discard. -/
  | recoveryHalted (e : SyntaxError)
  | missingGoto
  | emptyStack
  | leftRecursion (symbol : String)
  | unfinished
  deriving DecidableEq

namespace ParseError

def message : ParseError → String
  | unexpected e => e.message
  | lexical e => e.render
  | aborted => "parse aborted by semantic action"
  | recoveryHalted e =>
    "Parsing halted while starting to recover from another error: " ++ e.message
  | missingGoto => "missing goto entry in parse table"
  | emptyStack => "empty parse stack"
  | leftRecursion symbol => "left recursion on `" ++ symbol ++ "' without consuming input"
  | unfinished => "parse unfinished"

def kind : ParseError → String
  | unexpected _ => "Syntax"
  | lexical _ => "Lex"
  | aborted => "Aborted"
  | recoveryHalted _ => "RecoveryHalted"
  | missingGoto => "MissingGoto"
  | emptyStack => "EmptyStack"
  | leftRecursion _ => "LeftRecursion"
  | unfinished => "Unfinished"

end ParseError

end TableParsing
