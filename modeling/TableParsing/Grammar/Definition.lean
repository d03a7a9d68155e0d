import TableParsing.Grammar.Production
import TableParsing.Numbering

/-! Grammars are defined by declarations made one after another, with symbols
referred to by name. A declaration that fails may already have taken effect in
part: the names before the offending one stay declared. -/

namespace TableParsing

inductive GrammarError
  | undefinedSymbol (symbol rule : String)
  | terminalAsStart (name : String)
  | unknownStartSymbol (name : String)
  | unreachableNonterminal (name : String)
  | duplicateProduction (left : String)
  | emptyGrammar
  | unknownPrecedence (name : String)
  | reservedName (name : String)
  | tooManySymbols
  deriving DecidableEq

namespace GrammarError

def quoted (name : String) : String := "`" ++ name ++ "'"

def message : GrammarError → String
  | undefinedSymbol symbol rule =>
    "undefined symbol " ++ quoted symbol ++ " in a production of " ++ quoted rule
  | terminalAsStart name => "the terminal " ++ quoted name ++ " cannot be the start symbol"
  | unknownStartSymbol name =>
    "the start symbol " ++ quoted name ++ " is not defined by any rule"
  | unreachableNonterminal name =>
    "the nonterminal " ++ quoted name ++ " is unreachable from the start symbol"
  | duplicateProduction left => "duplicate production rule for " ++ quoted left
  | emptyGrammar => "the grammar has no production rules"
  | unknownPrecedence name => "unknown precedence " ++ quoted name
  | reservedName name => quoted name ++ " is a reserved name"
  | tooManySymbols => "the grammar exceeds the 16-bit identifier space"

end GrammarError

/-- Indices of symbols and productions, right side positions and precedence
levels are all at most this. -/
def maxIndex : Nat := 65535

structure SymbolUse where
  name : String
  givenName : Option String
  deriving DecidableEq

namespace SymbolUse

def parse (text : String) : SymbolUse :=
  match text.toList.reverse with
  | ']' :: reversed =>
    let body := reversed.reverse
    match body.takeWhile (· ≠ '['), body.dropWhile (· ≠ '[') with
    | name@(_ :: _), '[' :: given@(_ :: _) => ⟨String.ofList name, some (String.ofList given)⟩
    | _, _ => ⟨text, none⟩
  | _ => ⟨text, none⟩

def calledName (s : SymbolUse) : String := s.givenName.getD s.name

end SymbolUse

structure Rule where
  left : String
  right : List SymbolUse
  precedence : Option String

def Rule.rightNames (r : Rule) : List String := r.right.map (·.name)

structure Definition where
  tokens : Numbering String
  precedences : List (String × Precedence)
  levels : Nat
  rules : Array Rule
  start : Option String

inductive Declaration
  | token (name : String)
  | tokens (names : List String)
  | precedence (assoc : Assoc) (names : List String)
  | start (name : String)
  | rule (left : String) (right : List String) (precedence : Option String)

def isReserved (name : String) : Bool :=
  name == Symbol.acceptName || name == Symbol.endName || name == ""

namespace Definition

def empty : Definition := ⟨.empty, [], 0, #[], none⟩

/-- `error` is always a terminal, so declaring it changes nothing. -/
def addToken (d : Definition) (name : String) : Definition :=
  if name == Symbol.errorName then d else { d with tokens := d.tokens.insert name }

def declareTokens : List String → Definition → Definition × Except GrammarError Unit
  | [], d => (d, .ok ())
  | name :: rest, d =>
    if isReserved name then (d, .error (.reservedName name))
    else declareTokens rest (d.addToken name)

def assignPrecedence (level : Precedence) :
    List String → Definition → Definition × Except GrammarError Unit
  | [], d => (d, .ok ())
  | name :: rest, d =>
    if isReserved name then (d, .error (.reservedName name))
    else assignPrecedence level rest { d with precedences := (name, level) :: d.precedences }

def declarePrecedence (assoc : Assoc) (names : List String) (d : Definition) :
    Definition × Except GrammarError Unit :=
  if d.levels < maxIndex then
    assignPrecedence ⟨d.levels + 1, assoc⟩ names { d with levels := d.levels + 1 }
  else (d, .error .tooManySymbols)

def checkRule (d : Definition) (r : Rule) : Except GrammarError Unit :=
  if isReserved r.left || r.left == Symbol.errorName then .error (.reservedName r.left)
  else if r.right.length > maxIndex then .error .tooManySymbols
  else if d.rules.size ≥ maxIndex then .error .tooManySymbols
  else
    let names := r.rightNames
    if d.rules.any fun s => s.left == r.left && s.rightNames == names then
      .error (.duplicateProduction r.left)
    else .ok ()

def declareRule (r : Rule) (d : Definition) : Definition × Except GrammarError Nat :=
  match d.checkRule r with
  | .error e => (d, .error e)
  | .ok () => ({ d with rules := d.rules.push r }, .ok (d.rules.size + 1))

end Definition

namespace Declaration

/-- The definition after a declaration, and its answer: the index of the new
production for a rule, nothing for any other. -/
def apply (d : Definition) : Declaration → Definition × Except GrammarError (Option Nat)
  | token name =>
    let (d, answer) := d.declareTokens [name]
    (d, answer.map fun () => none)
  | tokens names =>
    let (d, answer) := d.declareTokens names
    (d, answer.map fun () => none)
  | precedence assoc names =>
    let (d, answer) := d.declarePrecedence assoc names
    (d, answer.map fun () => none)
  | start name => ({ d with start := some name }, .ok none)
  | rule left right level =>
    let (d, answer) := d.declareRule ⟨left, right.map SymbolUse.parse, level⟩
    (d, answer.map some)

def applyAll : List Declaration → Definition → Definition × Except GrammarError (Option Nat)
  | [], d => (d, .ok none)
  | [s], d => s.apply d
  | s :: rest, d =>
    match s.apply d with
    | (d, .ok _) => applyAll rest d
    | (d, .error e) => (d, .error e)

end Declaration

end TableParsing
