import TableParsing.Engine.Action

/-! Semantic actions written as data. Values are atoms and lists, and an action is a list
of expressions to log and a way to return. Every action run uses one unit of fuel, which
nested parses share, so that scripted parses cannot go on for ever. -/

namespace TableParsing.Script

inductive Value
  | atom (text : String)
  | list (items : List (Option Value))

mutual

def Value.render : Value → String
  | .atom text => text
  | .list items => "(" ++ " ".intercalate (renderItems items) ++ ")"

def renderItems : List (Option Value) → List String
  | [] => []
  | none :: rest => "_" :: renderItems rest
  | some v :: rest => v.render :: renderItems rest

end

def renderOption : Option Value → String
  | some v => v.render
  | none => "_"

structure Session where
  log : Array String
  fuel : Nat

def Session.write (s : Session) (line : String) : Session := { s with log := s.log.push line }

inductive Expr
  | absent
  | atom (text : String)
  | list (items : List Expr)
  | get (i : Int)
  | take (i : Nat)
  | named (name : String)
  | takeNamed (name : String)
  | location (i : Int)
  | resultLocation
  | setLocation (l : Location)
  | length
  | isEmpty
  | production
  | logged
  | append (a b : Expr)
  | nested (text : String)

/-- The characters of a text as tokens named by themselves. Blanks are passed over, and
`#` cannot be read. -/
def characters (line column : Nat) : List Char → Source Value
  | [] => []
  | c :: rest =>
    if c = '\n' then characters (line + 1) 0 rest
    else if c = ' ' ∨ c = '\t' then characters line (column + 1) rest
    else
      let text := String.singleton c
      let item := if c = '#' then .error ⟨"unrecognized text", line, text⟩
        else .ok ⟨text, text, .atom text, ⟨line, column, line, column + 1⟩⟩
      item :: characters line (column + 1) rest

def ofText (text : String) : Source Value := characters 1 0 text.toList

def items : Option Value → List (Option Value)
  | some (.list items) => items
  | _ => []

abbrev ScriptContext := Context Value Session

def number (n : Nat) : Option Value := some (.atom (Nat.repr n))

mutual

def Expr.eval (run : Nested Value Session) : Expr → ScriptContext → Option Value × ScriptContext
  | .absent, c => (none, c)
  | .atom text, c => (some (.atom text), c)
  | .list items, c =>
    let (values, c) := evalAll run items c
    (some (.list values), c)
  | .get i, c => (c.get i, c)
  | .take i, c => c.take i
  | .named name, c => (c.named name, c)
  | .takeNamed name, c => c.takeNamed name
  | .location i, c => ((c.locationAt i).map fun l => .atom l.render, c)
  | .resultLocation, c => (some (.atom c.location.render), c)
  | .setLocation l, c => (none, { c with location := l })
  | .length, c => (number c.length, c)
  | .isEmpty, c => (some (.atom (if c.isEmpty then "true" else "false")), c)
  | .production, c => (number c.production, c)
  | .logged, c => (number c.params.log.size, c)
  | .append a b, c =>
    let (a, c) := a.eval run c
    let (b, c) := b.eval run c
    (some (.list (items a ++ b.toList.map some)), c)
  | .nested text, c =>
    let (outcome, params) := run (ofText text) c.params
    let value := match outcome with
      | .ok v => v
      | .error e => some (.atom ("!" ++ e.kind))
    (value, { c with params })

def evalAll (run : Nested Value Session) :
    List Expr → ScriptContext → List (Option Value) × ScriptContext
  | [], c => ([], c)
  | e :: rest, c =>
    let (v, c) := e.eval run c
    let (vs, c) := evalAll run rest c
    (v :: vs, c)

end

inductive Return
  | default
  | abort
  | accept (e : Expr)
  | value (e : Expr)

structure Spec where
  log : List Expr
  ret : Return

def write (line : String) (c : ScriptContext) : ScriptContext :=
  { c with params := c.params.write line }

def logAll (run : Nested Value Session) : List Expr → ScriptContext → ScriptContext
  | [], c => c
  | e :: rest, c =>
    let (v, c) := e.eval run c
    logAll run rest (write (renderOption v) c)

def Spec.perform (s : Spec) (run : Nested Value Session) (c : ScriptContext) :
    Control Value × ScriptContext :=
  let c := logAll run s.log c
  match s.ret with
  | .default => (.default, c)
  | .abort => (.abort, c)
  | .accept e =>
    let (v, c) := e.eval run c
    (.accept v, c)
  | .value e =>
    match e.eval run c with
    | (some v, c) => (.value v, c)
    | (none, c) => (.default, c)

inductive Mode
  | tree
  | trace
  | none
  deriving DecidableEq

def treeNode (c : ScriptContext) : Value :=
  .list (some (.atom ("p" ++ Nat.repr c.production)) :: c.handle.map (·.value))

def announce (c : ScriptContext) : String :=
  "reduce " ++ Nat.repr c.production ++ " " ++ c.location.render ++ " " ++ Nat.repr c.length

def action (mode : Mode) (quiet : Bool) (spec : Option Spec) : SemanticAction Value Session :=
  fun run c =>
    let c := if quiet then c else write (announce c) c
    match c.params.fuel with
    | 0 => (.abort, write "out of fuel" c)
    | fuel + 1 =>
      let c := { c with params := { c.params with fuel } }
      match spec with
      | some spec => spec.perform run c
      | Option.none => if mode = .tree then (.value (treeNode c), c) else (.default, c)

def actions (mode : Mode) (quiet : Bool) (count : Nat) (spec : Nat → Option Spec) :
    Actions Value Session :=
  (List.range count).foldl (fun actions p =>
    match mode, spec p with
    | .none, Option.none => actions
    | _, s => actions.bind p (action mode quiet s)) #[]

end TableParsing.Script
