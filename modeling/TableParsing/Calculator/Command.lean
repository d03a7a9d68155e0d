import TableParsing.Calculator
import TableParsing.Calculator.Options
import TableParsing.Encoded.Format

/-! The calculator's command. It may write the table to files, then evaluates one
expression. Writing is a parameter, so the command runs in any monad. -/

namespace TableParsing.Calculator

structure Outcome where
  stdout : String
  stderr : String
  code : Nat

/-- An error in a context: the lines of the cause are indented. -/
def failure (stdout context cause : String) : Outcome :=
  let indented := cause.toList.flatMap fun c =>
    if c = '\n' then ['\n', ' ', ' ', ' ', ' '] else [c]
  ⟨stdout, "Error: " ++ context ++ "\n\nCaused by:\n    " ++ String.ofList indented ++ "\n", 1⟩

def warning (table : Table) : String :=
  let count := table.conflictCount
  if count = 0 then ""
  else
    "[warning] The parse table has " ++ Nat.repr count ++ " conflict" ++
      (if count = 1 then "" else "s") ++ ".\n"

def dump (c : Calculator) : String := c.grammar.render ++ "\n" ++ c.table.render c.grammar

def report (p : Parsed) : String :=
  String.join (p.errors.map fun e => "[recovered] " ++ e.message ++ "\n") ++
  "parsed: " ++ p.expr.render ++ "\n" ++
  "value: " ++ (match p.expr.eval with
    | some x => renderFloat x
    | none => "<unavailable>") ++ "\n"

def evaluate (c : Calculator) (fuel : Nat) (stdout text : String) : Outcome :=
  match c.parse fuel text with
  | .ok p => ⟨stdout ++ report p, "", 0⟩
  | .error e => failure stdout "parser error" e.message

def writeIfGiven {m : Type → Type} [Monad m] (write : String → String → m (Option String))
    (path : Option String) (content : String) : m (Option String) :=
  match path with
  | some path => write path content
  | none => pure none

def perform {m : Type → Type} [Monad m] (write : String → String → m (Option String))
    (fuel : Nat) (o : Options) : m Outcome := do
  match build o.method with
  | .error e => return ⟨"", "Error: " ++ e.message ++ "\n", 1⟩
  | .ok c =>
    let stdout := warning c.table
    match ← writeIfGiven write o.dump (dump c) with
    | some cause => return failure stdout "writing the table dump" cause
    | none =>
      match ← writeIfGiven write o.encode c.table.encode.renderPretty with
      | some cause => return failure stdout "writing the encoded table" cause
      | none => return evaluate c fuel stdout o.input

def usage : String :=
  "Usage: calc [--method <lr0|slr|lalr|lr1>] [--dump <PATH>] [--encode <PATH>] [--] <INPUT>\n"

def command {m : Type → Type} [Monad m] (write : String → String → m (Option String))
    (fuel : Nat) (args : List String) : m Outcome :=
  match Request.ofArguments args with
  | .evaluate o => perform write fuel o
  | .help => pure ⟨usage, "", 0⟩
  | .version => pure ⟨"calc 0.0.0\n", "", 0⟩
  | .misuse => pure ⟨"", usage, 2⟩

end TableParsing.Calculator
