import TableParsing.Engine.Action
import TableParsing.Table.Prediction

/-! The predictive engine. It keeps a stack of what is still to be recognised: symbols,
and after the symbols of a right side the reduction that ends it. Expanding a
nonterminal that is already open since the last token was consumed is left
recursion. -/

namespace TableParsing.Predictive

structure Parser (V P : Type) where
  table : PredictionTable
  actions : Actions V P

inductive Goal
  | symbol (x : Symbol)
  | reduce (production : Nat)

structure Lookahead (V : Type) where
  terminal : Option Nat
  token : Option (Token V)

/-- A nonterminal under expansion, with the number of goals beneath its reduction. -/
structure Expansion where
  symbol : Nat
  depth : Nat

structure Config (V P : Type) where
  goals : List Goal
  entries : List (Entry V)
  lookahead : Option (Lookahead V)
  input : Source V
  pending : List Expansion
  params : P
  reported : List SyntaxError

inductive Event (V P : Type)
  | consume (la : Lookahead V)
  | expand (production : Nat)
  | reduce (c : Context V P)

inductive Move (V P : Type)
  | next (event : Event V P) (c : Config V P)
  | stop (outcome : Except ParseError (Option V)) (c : Config V P)

variable {V P : Type}

def start (source : Source V) (params : P) : Config V P :=
  ⟨[.symbol (.nonterminal Symbol.accept)], [⟨none, .zero⟩], none, source, [], params, []⟩

namespace Parser

variable (parser : Parser V P) (env : Environment V P)

def look (c : Config V P) : Except LexError (Lookahead V × Source V) :=
  match c.lookahead with
  | some la => .ok (la, c.input)
  | none =>
    match c.input with
    | [] => .ok (⟨some Symbol.endOfInput, none⟩, [])
    | .ok token :: rest => .ok (⟨parser.table.terminal? token.name, some token⟩, rest)
    | .error e :: _ => .error e

def syntaxError (c : Config V P) (la : Lookahead V) (expected : List Nat) : SyntaxError :=
  let location := match la.token with
    | some token => token.location
    | none => topLocation c.entries
  .report la.token location (expected.map parser.table.terminalName) false

def fail (c : Config V P) (la : Lookahead V) (expected : List Nat) : Move V P :=
  let error := parser.syntaxError c la expected
  let reported := { c with reported := error :: c.reported }
  match env.onError c.reported error with
  | some e => .stop (.error e) reported
  | none => .stop (.error (.unexpected error)) reported

/-- Matches the terminal that the lookahead stands for. The end of input is matched
without being consumed. -/
def consume (c : Config V P) (la : Lookahead V) : Move V P :=
  match la.token with
  | some token => .next (.consume la)
      { c with
        lookahead := none
        pending := []
        entries := ⟨some token.value, token.location⟩ :: c.entries }
  | none => .next (.consume la)
      { c with lookahead := some la, entries := ⟨none, topLocation c.entries⟩ :: c.entries }

def expand (c : Config V P) (la : Lookahead V) (n : Nat) : Move V P :=
  match la.terminal.bind (parser.table.predict n) with
  | none => parser.fail env c la (parser.table.expected n)
  | some p =>
    if c.pending.any (·.symbol == n) then
      .stop (.error (.leftRecursion (parser.table.nonterminalName n))) c
    else
      let right := (parser.table.production p).right.toList.map Goal.symbol
      .next (.expand p)
        { c with
          goals := right ++ .reduce p :: c.goals
          pending := c.pending ++ [⟨n, c.goals.length⟩]
          lookahead := some la }

def reduce (c : Config V P) (p : Nat) : Move V P :=
  let production := parser.table.production p
  let length := production.right.size
  if c.entries.length < length then .stop (.error .emptyStack) c
  else
    let below := c.entries.drop length
    let context := Context.ofReduction p production.aliases (c.entries.take length).reverse below
      c.params
    let (reply, after) := parser.actions.run env.nested context
    let c := { c with params := after.params }
    match reply with
    | .accept v => .stop (.ok v) c
    | .abort => .stop (.error .aborted) c
    | .value v => .next (.reduce context) { c with entries := ⟨v, after.location⟩ :: below }

def step (c : Config V P) : Move V P :=
  match c.goals with
  | [] => .stop (.ok (c.entries.head?.bind (·.value))) c
  | goal :: goals =>
    match parser.look c with
    | .error e => .stop (.error (.lexical e)) c
    | .ok (la, input) =>
      let c := { c with goals, input }
      match goal with
      | .symbol (.terminal t) =>
        if la.terminal = some t then consume c la else parser.fail env c la [t]
      | .symbol (.nonterminal n) => parser.expand env c la n
      | .reduce p =>
        parser.reduce env
          { c with
            pending := c.pending.filter fun e => e.depth < goals.length
            lookahead := some la } p

def run : Nat → Config V P → Option (Result V P)
  | 0, _ => none
  | fuel + 1, c =>
    match parser.step env c with
    | .next _ c => run fuel c
    | .stop outcome c => some ⟨outcome, c.params, c.reported.reverse⟩

def nested (fuel : Nat) : Nat → Nested V P
  | 0 => fun _ params => (.error .unfinished, params)
  | depth + 1 => fun source params =>
    match parser.run ⟨nested fuel depth, fun _ _ => none⟩ fuel (start source params) with
    | some r => (r.outcome, r.params)
    | none => (.error .unfinished, params)

def parse (fuel depth : Nat) (onError : List SyntaxError → SyntaxError → Option ParseError)
    (source : Source V) (params : P) : Result V P :=
  (parser.run ⟨parser.nested fuel depth, onError⟩ fuel (start source params)).getD
    (.unfinished params)

end Parser

end TableParsing.Predictive
