import TableParsing.Grammar.FirstFollow

/-! Augmented context-free grammars with operator precedence. Every grammar
carries its nullable, first and follow sets. -/

namespace TableParsing

structure Terminal where
  name : String
  precedence : Option Precedence
  deriving DecidableEq, Inhabited

structure Grammar where
  terminals : Array Terminal
  nonterminals : Array String
  productions : Array Production
  start : Nat
  sets : FirstFollow
  sets_eq : sets = FirstFollow.ofProductions nonterminals.size productions start

namespace Grammar

def ofProductions (terminals : Array Terminal) (nonterminals : Array String)
    (productions : Array Production) (start : Nat) : Grammar :=
  ⟨terminals, nonterminals, productions, start, _, rfl⟩

variable (g : Grammar)

def production (p : Nat) : Production := g.productions.getD p default

def productionsOf (n : Nat) : List Nat :=
  (List.range g.productions.size).filter fun p => (g.production p).left == n

def terminalName (t : Nat) : String := (g.terminals.getD t default).name

def terminalPrecedence (t : Nat) : Option Precedence := (g.terminals.getD t default).precedence

def nonterminalName (n : Nat) : String := g.nonterminals.getD n ""

def symbolName : Symbol → String
  | .terminal t => g.terminalName t
  | .nonterminal n => g.nonterminalName n

def terminal? (name : String) : Option Nat := g.terminals.findIdx? (·.name == name)

def nonterminal? (name : String) : Option Nat := g.nonterminals.findIdx? (· == name)

/-- Nonterminals are looked up before terminals. -/
def symbol? (name : String) : Option Symbol :=
  match g.nonterminal? name with
  | some n => some (.nonterminal n)
  | none => (g.terminal? name).map .terminal

def isNullable (n : Nat) : Bool := g.sets.nullable.getD n false

def first (n : Nat) : TerminalSet := g.sets.first.getD n ∅

def follow (n : Nat) : TerminalSet := g.sets.follow.getD n ∅

def prefixes (symbols : List Symbol) : Prefixes :=
  FirstFollow.prefixes g.sets.nullable g.sets.first symbols

def tail (p i : Nat) : Prefixes := (g.sets.tails.getD p #[]).getD i ⟨∅, true⟩

def nullables : List Nat := (List.range g.nonterminals.size).filter g.isNullable

/-- The precedence of a production is the one assigned to it, or else that of the
rightmost terminal of its right side. -/
def productionPrecedence (p : Nat) : Option Precedence :=
  let production := g.production p
  match production.precedence with
  | some precedence => some precedence
  | none =>
    match production.right.toList.reverse.findSome? Symbol.terminal? with
    | some t => g.terminalPrecedence t
    | none => none

def renderProduction (p : Nat) : String :=
  let production := g.production p
  let right :=
    if production.right.isEmpty then " ε"
    else production.right.foldl (fun text s => text ++ " " ++ g.symbolName s) ""
  g.nonterminalName production.left ++ " ->" ++ right

def renderTerminal (t : Terminal) : String :=
  match t.precedence with
  | some level => t.name ++ "(" ++ level.assoc.name ++ ", " ++ Nat.repr level.priority ++ ")"
  | none => t.name

def renderSet (s : TerminalSet) : String := " ".intercalate (s.toList.map g.terminalName)

def render : String :=
  "#### terminals: " ++ ", ".intercalate (g.terminals.toList.map renderTerminal) ++
  "\n#### nonterminals: " ++ ", ".intercalate g.nonterminals.toList ++
  "\n#### productions:\n" ++
  String.join ((List.range g.productions.size).map fun p => "- " ++ g.renderProduction p ++ "\n")

end Grammar

end TableParsing
