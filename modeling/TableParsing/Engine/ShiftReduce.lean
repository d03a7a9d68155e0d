import TableParsing.Encoded
import TableParsing.Engine.Action
import TableParsing.Table

/-! The shift-reduce engine. A state with a default reduction takes it without a look
at the input; otherwise the next token decides. On an error the stack is cut down to
the nearest state that shifts the recovery token, and tokens are discarded until the
state after it can go on. Errors are reported again once three tokens were shifted
after a recovery. -/

namespace TableParsing.ShiftReduce

structure Tables where
  terminal? : String → Option Nat
  terminalName : Nat → String
  action : Nat → Nat → Action
  goto : Nat → Nat → Option Nat
  defaultReduction : Nat → Option Nat
  production : Nat → ProductionShape
  expected : Nat → List Nat

def Tables.ofTable (t : Table) : Tables where
  terminal? := t.terminal?
  terminalName := t.terminalName
  action := t.action
  goto := t.goto
  defaultReduction := t.defaultReduction
  production := t.production
  expected := t.expected

def Tables.ofEncoded (e : EncodedTable) : Tables where
  terminal? := e.terminal?
  terminalName := e.terminalName
  action := e.action
  goto := e.goto
  defaultReduction := e.defaultReduction
  production p :=
    let shape := e.production p
    ⟨shape.left.toNat, shape.length.toNat, shape.aliases⟩
  expected := e.expected

structure Parser (V P : Type) where
  tables : Tables
  actions : Actions V P

structure Lookahead (V : Type) where
  terminal : Option Nat
  location : Location
  token : Option (Token V)

def Lookahead.isEnd {V : Type} (la : Lookahead V) : Bool := la.token.isNone

structure Config (V P : Type) where
  states : List Nat
  entries : List (Entry V)
  lookahead : Option (Lookahead V)
  input : Source V
  /-- How many tokens are still to be shifted before errors are reported again. -/
  recovering : Nat
  params : P
  reported : List SyntaxError

inductive Event (V P : Type)
  | shift (la : Lookahead V)
  | reduce (c : Context V P)
  | recover (popped : Nat) (discarded : List (Lookahead V))

inductive Move (V P : Type)
  | next (event : Event V P) (c : Config V P)
  | stop (outcome : Except ParseError (Option V)) (c : Config V P)

def recoveryShifts : Nat := 3

variable {V P : Type}

def start (source : Source V) (params : P) : Config V P :=
  ⟨[0], [⟨none, .zero⟩], none, source, 0, params, []⟩

def Tables.ofToken (t : Tables) (token : Token V) : Lookahead V :=
  ⟨t.terminal? token.name, token.location, some token⟩

/-- The end of input stands where the top of the stack ends. -/
def endLookahead (entries : List (Entry V)) : Lookahead V :=
  ⟨some Symbol.endOfInput, (topLocation entries).ending, none⟩

def Tables.read (t : Tables) (entries : List (Entry V)) (input : Source V) :
    Except LexError (Lookahead V × Source V) :=
  match input with
  | [] => .ok (endLookahead entries, [])
  | .ok token :: rest => .ok (t.ofToken token, rest)
  | .error e :: _ => .error e

def Tables.actionOn (t : Tables) (state : Nat) (la : Lookahead V) : Action :=
  match la.terminal with
  | some terminal => t.action state terminal
  | none => .error

def Tables.shiftsError (t : Tables) (state : Nat) : Option Nat :=
  match t.action state Symbol.errorToken with
  | .shift next => some next
  | _ => none

def Tables.syntaxError (t : Tables) (state : Nat) (la : Lookahead V) (states : List Nat) :
    SyntaxError :=
  .report la.token la.location ((t.expected state).map t.terminalName)
    (states.any fun s => (t.shiftsError s).isSome)

def Tables.handles (t : Tables) (state : Nat) (la : Lookahead V) : Bool :=
  (t.defaultReduction state).isSome || t.actionOn state la != .error

/-- How many states to pop to reach the nearest one that shifts the recovery token, and
the state after that shift. -/
def Tables.recoveryPoint (t : Tables) : List Nat → Nat → Option (Nat × Nat)
  | [], _ => none
  | s :: rest, popped =>
    match t.shiftsError s with
    | some next => some (popped, next)
    | none => t.recoveryPoint rest (popped + 1)

inductive Discarding (V : Type)
  | found (la : Lookahead V) (input : Source V) (discarded : List (Lookahead V))
  | halted (la : Lookahead V)
  | failed (e : LexError)

def Tables.discard (t : Tables) (state : Nat) (entries : List (Entry V)) :
    Source V → Lookahead V → List (Lookahead V) → Discarding V
  | [], la, discarded =>
    if t.handles state la then .found la [] discarded.reverse
    else if la.isEnd then .halted la
    else
      let atEnd := endLookahead entries
      if t.handles state atEnd then .found atEnd [] (la :: discarded).reverse else .halted atEnd
  | item :: rest, la, discarded =>
    if t.handles state la then .found la (item :: rest) discarded.reverse
    else if la.isEnd then .halted la
    else
      match item with
      | .ok token => t.discard state entries rest (t.ofToken token) (la :: discarded)
      | .error e => .failed e

namespace Parser

variable (parser : Parser V P) (env : Environment V P)

def reduce (c : Config V P) (p : Nat) : Move V P :=
  let shape := parser.tables.production p
  match c.states.drop shape.length with
  | [] => .stop (.error .emptyStack) c
  | state :: deeper =>
    let below := c.entries.drop shape.length
    let context := Context.ofReduction p shape.aliases (c.entries.take shape.length).reverse below
      c.params
    let (reply, after) := parser.actions.run env.nested context
    let c := { c with params := after.params }
    match reply with
    | .accept v => .stop (.ok v) c
    | .abort => .stop (.error .aborted) c
    | .value v =>
      match parser.tables.goto state shape.left with
      | none => .stop (.error .missingGoto) c
      | some next => .next (.reduce context)
          { c with states := next :: state :: deeper, entries := ⟨v, after.location⟩ :: below }

def recover (c : Config V P) (error : SyntaxError) (la : Lookahead V)
    (discarded : List (Lookahead V)) : Move V P :=
  match parser.tables.recoveryPoint c.states 0 with
  | none => .stop (.error (.unexpected error)) c
  | some (popped, next) =>
    let states := next :: c.states.drop popped
    let entries := ⟨none, la.location⟩ :: c.entries.drop popped
    match parser.tables.discard next entries c.input la discarded with
    | .found la input discarded => .next (.recover popped discarded)
        { c with states, entries, input, lookahead := some la, recovering := recoveryShifts }
    | .halted la =>
      .stop (.error (.recoveryHalted (parser.tables.syntaxError next la states))) c
    | .failed e => .stop (.error (.lexical e)) c

/-- An error in the given state. It is reported unless the run is still recovering; if
no token was shifted since the last recovery, the offending token is discarded. -/
def fail (c : Config V P) (state : Nat) (la : Lookahead V) : Move V P :=
  let error := parser.tables.syntaxError state la c.states
  if c.recovering = 0 then
    let reported := { c with reported := error :: c.reported }
    match env.onError c.reported error with
    | some e => .stop (.error e) reported
    | none =>
      if error.recoverable then parser.recover reported error la []
      else .stop (.error (.unexpected error)) reported
  else if c.recovering = recoveryShifts then
    if la.isEnd then .stop (.error (.recoveryHalted error)) c
    else
      match parser.tables.read c.entries c.input with
      | .error e => .stop (.error (.lexical e)) c
      | .ok (next, input) => parser.recover { c with input } error next [la]
  else parser.recover c error la []

def look (c : Config V P) : Except LexError (Lookahead V × Source V) :=
  match c.lookahead with
  | some la => .ok (la, c.input)
  | none => parser.tables.read c.entries c.input

def step (c : Config V P) : Move V P :=
  match c.states with
  | [] => .stop (.error .emptyStack) c
  | state :: _ =>
    match parser.tables.defaultReduction state with
    | some p => parser.reduce env c p
    | none =>
      match parser.look c with
      | .error e => .stop (.error (.lexical e)) c
      | .ok (la, input) =>
        let c := { c with lookahead := none, input }
        match parser.tables.actionOn state la with
        | .shift next => .next (.shift la)
            { c with
              states := next :: c.states
              entries := ⟨la.token.map (·.value), la.location⟩ :: c.entries
              recovering := c.recovering - 1 }
        | .reduce p => parser.reduce env { c with lookahead := some la } p
        | .accept => .stop (.ok (c.entries.head?.bind (·.value))) c
        | .error => parser.fail env c state la

def run : Nat → Config V P → Option (Result V P)
  | 0, _ => none
  | fuel + 1, c =>
    match parser.step env c with
    | .next _ c => run fuel c
    | .stop outcome c => some ⟨outcome, c.params, c.reported.reverse⟩

def nested (fuel : Nat) : Nat → Nested V P
  | 0 => fun _ params => (.error .unfinished, params)
  | depth + 1 => fun source params =>
    match parser.run ⟨nested fuel depth, fun _ _ => none⟩ fuel (start source params) with
    | some r => (r.outcome, r.params)
    | none => (.error .unfinished, params)

def parse (fuel depth : Nat) (onError : List SyntaxError → SyntaxError → Option ParseError)
    (source : Source V) (params : P) : Result V P :=
  (parser.run ⟨parser.nested fuel depth, onError⟩ fuel (start source params)).getD
    (.unfinished params)

end Parser

end TableParsing.ShiftReduce
