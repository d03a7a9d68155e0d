import TableParsing.Automaton.Method

/-! The arguments of the calculator's command line: one expression, and options with a
value, given as the next argument or after an equals sign. After `--` everything is an
expression. -/

namespace TableParsing.Calculator

structure Options where
  input : String
  method : Method
  dump : Option String
  encode : Option String

inductive Request
  | evaluate (o : Options)
  | help
  | version
  | misuse

structure Given where
  input : Option String
  method : Option Method
  dump : Option String
  encode : Option String

def methodNamed? : String → Option Method
  | "lr0" => some .lr0
  | "slr" => some .slr
  | "lalr" => some .lalr
  | "lr1" => some .lr1
  | _ => none

def path? (text : String) : Option String := if text.isEmpty then none else some text

def Given.set (g : Given) (name value : String) : Option Given :=
  match name with
  | "method" =>
    match g.method, methodNamed? value with
    | none, some m => some { g with method := some m }
    | _, _ => none
  | "dump" =>
    match g.dump, path? value with
    | none, some p => some { g with dump := some p }
    | _, _ => none
  | "encode" =>
    match g.encode, path? value with
    | none, some p => some { g with encode := some p }
    | _, _ => none
  | _ => none

def Given.position (g : Given) (text : String) : Option Given :=
  match g.input with
  | none => some { g with input := some text }
  | some _ => none

def Given.finish (g : Given) : Request :=
  match g.input with
  | some input => .evaluate ⟨input, g.method.getD .lalr, g.dump, g.encode⟩
  | none => .misuse

/-- An argument that begins with a hyphen and has more to it cannot be a value. -/
def isValue (text : String) : Bool :=
  match text.toList with
  | '-' :: _ :: _ => false
  | _ => true

def isOption (name : String) : Bool := ["method", "dump", "encode"].contains name

def positions : Given → List String → Request
  | g, [] => g.finish
  | g, text :: rest =>
    match g.position text with
    | some g => positions g rest
    | none => .misuse

def arguments : Given → List String → Request
  | g, [] => g.finish
  | g, text :: rest =>
    match text.toList with
    | ['-', '-'] => positions g rest
    | '-' :: '-' :: long =>
      let name := String.ofList (long.takeWhile (· ≠ '='))
      match long.dropWhile (· ≠ '='), rest with
      | '=' :: value, rest =>
        match g.set name (String.ofList value) with
        | some g => arguments g rest
        | none => .misuse
      | _, rest =>
        if name = "help" then .help
        else if name = "version" then .version
        else if isOption name then
          match rest with
          | value :: rest =>
            if isValue value then
              match g.set name value with
              | some g => arguments g rest
              | none => .misuse
            else .misuse
          | [] => .misuse
        else .misuse
    | '-' :: c :: _ => if c = 'h' then .help else if c = 'V' then .version else .misuse
    | _ =>
      match g.position text with
      | some g => arguments g rest
      | none => .misuse

def Request.ofArguments (args : List String) : Request := arguments ⟨none, none, none, none⟩ args

end TableParsing.Calculator
