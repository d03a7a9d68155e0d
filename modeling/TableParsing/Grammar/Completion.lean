import TableParsing.Grammar
import TableParsing.Grammar.Definition
import TableParsing.Reachability

/-! A definition is completed into a grammar. Nonterminals are the left sides of
the rules in order of appearance. If any token was declared, every other symbol
must be declared; otherwise the remaining symbols are terminals in order of
appearance. -/

namespace TableParsing

namespace Definition

def nonterminals (d : Definition) : Numbering String :=
  Numbering.ofList (d.rules.toList.map (·.left))

def declaredTerminals (d : Definition) (nonterminals : Numbering String) : Numbering String :=
  Numbering.ofList (d.tokens.toList.filter fun name => !nonterminals.contains name)

def collectUse (explicit : Bool) (nonterminals : Numbering String) (left : String)
    (terminals : Numbering String) (use : SymbolUse) : Except GrammarError (Numbering String) :=
  if use.name == Symbol.errorName || nonterminals.contains use.name then .ok terminals
  else if isReserved use.name then .error (.reservedName use.name)
  else if explicit then
    if terminals.contains use.name then .ok terminals
    else .error (.undefinedSymbol use.name left)
  else .ok (terminals.insert use.name)

def terminals (d : Definition) (nonterminals : Numbering String) :
    Except GrammarError (Numbering String) :=
  d.rules.foldlM (fun known r =>
    r.right.foldlM (collectUse (d.tokens.size != 0) nonterminals r.left) known)
    (d.declaredTerminals nonterminals)

def startIndex (d : Definition) (nonterminals terminals : Numbering String) :
    Except GrammarError Nat :=
  let name := match d.start with
    | some name => name
    | none => nonterminals.keys.getD 0 ""
  if name == Symbol.errorName || terminals.contains name then .error (.terminalAsStart name)
  else
    match nonterminals.find? name with
    | some i => .ok (i + 1)
    | none => .error (.unknownStartSymbol name)

def resolveUse (nonterminals terminals : Numbering String) (use : SymbolUse) : Symbol :=
  match nonterminals.find? use.name with
  | some i => .nonterminal (i + 1)
  | none =>
    if use.name == Symbol.errorName then .terminal Symbol.errorToken
    else .terminal ((terminals.find? use.name).getD 0 + 2)

def numbered (name : String) (count : Nat) : String := name ++ Nat.repr count

structure Naming where
  position : Nat
  counts : Std.HashMap String Nat
  aliases : Array Alias

/-- A position answers to its name, if that is the first use of the name, and to
the name followed by how often it was used so far. -/
def Naming.add (s : Naming) (use : SymbolUse) : Naming :=
  let name := use.calledName
  let count := s.counts.getD name 0 + 1
  let position := UInt64.ofNat s.position
  let plain := if count = 1 then s.aliases.push ⟨name, position⟩ else s.aliases
  ⟨s.position + 1, s.counts.insert name count, plain.push ⟨numbered name count, position⟩⟩

def aliases (right : List SymbolUse) : List Alias :=
  (right.foldl Naming.add ⟨1, ∅, #[]⟩).aliases.toList

def precedenceOf (d : Definition) (name : String) : Option Precedence :=
  (d.precedences.find? (·.1 == name)).map (·.2)

def production (d : Definition) (nonterminals terminals : Numbering String) (r : Rule) :
    Except GrammarError Production := do
  let precedence ← match r.precedence with
    | none => .ok none
    | some name =>
      match d.precedenceOf name with
      | some level => .ok (some level)
      | none => .error (.unknownPrecedence name)
  return {
    left := (nonterminals.find? r.left).getD 0 + 1
    right := (r.right.map (resolveUse nonterminals terminals)).toArray
    precedence
    aliases := aliases r.right }

def acceptProduction (start : Nat) : Production :=
  ⟨Symbol.accept, #[.nonterminal start, .terminal Symbol.endOfInput], none, []⟩

def neighbours (productions : Array Production) (n : Nat) : List Nat :=
  (productions.toList.filter (·.left == n)).flatMap fun p =>
    p.right.toList.filterMap Symbol.nonterminal?

def unreachable? (count : Nat) (productions : Array Production) (start : Nat) : Option Nat :=
  let reached := Reachability.reach count (neighbours productions) [start]
  (List.range count).find? fun n => n != Symbol.accept && !reached.contains n

/-- The terminal limit is the only index limit left to check: there are at most as
many nonterminals as rules, and the number of rules is bounded already. -/
def complete (d : Definition) : Except GrammarError Grammar := do
  if d.rules.isEmpty then throw .emptyGrammar
  let nonterminals := d.nonterminals
  let terminals ← d.terminals nonterminals
  let start ← d.startIndex nonterminals terminals
  if terminals.size + 2 > maxIndex + 1 then throw .tooManySymbols
  let rules ← d.rules.mapM (d.production nonterminals terminals)
  let productions := #[acceptProduction start] ++ rules
  let nonterminalNames := #[Symbol.acceptName] ++ nonterminals.keys
  match unreachable? nonterminalNames.size productions start with
  | some n => throw (.unreachableNonterminal (nonterminalNames.getD n ""))
  | none =>
    let reserved : Array Terminal := #[⟨Symbol.endName, none⟩, ⟨Symbol.errorName, none⟩]
    let named := terminals.keys.map fun name => ⟨name, d.precedenceOf name⟩
    return Grammar.ofProductions (reserved ++ named) nonterminalNames productions start

end Definition

/-- Runs groups of declarations in order. Without `lenient` the first failing group
ends the definition; with it, failures are only noted. The answers of the groups
that ran come with the grammar or the error. -/
def define (lenient : Bool) :
    List (List Declaration) → Definition →
      List (Except GrammarError (Option Nat)) × Except GrammarError Grammar
  | [], d => ([], d.complete)
  | step :: rest, d =>
    match Declaration.applyAll step d with
    | (d, .ok answer) =>
      let (answers, result) := define lenient rest d
      (.ok answer :: answers, result)
    | (d, .error e) =>
      if lenient then
        let (answers, result) := define lenient rest d
        (.error e :: answers, result)
      else ([.error e], .error e)

end TableParsing
