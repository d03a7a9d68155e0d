import TableParsing.Engine.Error
import TableParsing.Grammar.Production

/-! Semantic actions. An action sees the entries of the right side being reduced and
those beneath them on the stack, may move values out of the right side, may change
the location of the result and the parameters of the parse, and may run nested
parses with the parser that runs it. -/

namespace TableParsing

structure Entry (V : Type) where
  value : Option V
  location : Location
  deriving Inhabited

def topLocation {V : Type} (entries : List (Entry V)) : Location :=
  match entries with
  | top :: _ => top.location
  | [] => .zero

inductive Control (V : Type)
  | default
  | value (v : V)
  | accept (v : Option V)
  | abort

structure Context (V P : Type) where
  production : Nat
  handle : List (Entry V)
  below : List (Entry V)
  aliases : List Alias
  location : Location
  params : P

namespace Context

variable {V P : Type} (c : Context V P)

def length : Nat := c.handle.length

def isEmpty : Bool := c.handle.isEmpty

/-- Positions from one on address the right side; zero is the nearest entry beneath,
and negative positions go deeper. -/
def entry? (i : Int) : Option (Entry V) :=
  if 0 < i then c.handle[i.toNat - 1]? else c.below[(-i).toNat]?

def get (i : Int) : Option V := (c.entry? i).bind (·.value)

def locationAt (i : Int) : Option Location := (c.entry? i).map (·.location)

def take (i : Nat) : Option V × Context V P :=
  match i with
  | 0 => (none, c)
  | k + 1 => ((c.handle[k]?).bind (·.value),
      { c with handle := c.handle.modify k fun e => { e with value := none } })

/-- Positions are words; read as a signed number, the upper half is negative. -/
def named (name : String) : Option V :=
  match resolveAlias c.aliases name with
  | some position => c.get position.toInt64.toInt
  | none => none

def takeNamed (name : String) : Option V × Context V P :=
  match resolveAlias c.aliases name with
  | some position => c.take position.toNat
  | none => (none, c)

/-- The context of a reduction: the location of the result spans the right side, and
is that of the nearest entry beneath if the right side is empty. -/
def ofReduction (production : Nat) (aliases : List Alias) (handle below : List (Entry V))
    (params : P) : Context V P :=
  let location := match handle.head?, handle.getLast? with
    | some first, some last => first.location.merge last.location
    | _, _ => topLocation below
  { production, handle, below, aliases, location, params }

end Context

abbrev Nested (V P : Type) := Source V → P → Except ParseError (Option V) × P

abbrev SemanticAction (V P : Type) := Nested V P → Context V P → Control V × Context V P

abbrev Actions (V P : Type) := Array (Option (SemanticAction V P))

/-- What surrounds a run of an engine: nested parses, and the answer to an error report.
The answer may depend on the earlier reports, newest first; an error in it ends the
run. -/
structure Environment (V P : Type) where
  nested : Nested V P
  onError : List SyntaxError → SyntaxError → Option ParseError

structure Result (V P : Type) where
  outcome : Except ParseError (Option V)
  params : P
  reported : List SyntaxError

def Result.unfinished {V P : Type} (params : P) : Result V P := ⟨.error .unfinished, params, []⟩

inductive Reply (V : Type)
  | value (v : Option V)
  | accept (v : Option V)
  | abort

namespace Actions

variable {V P : Type}

def bind (actions : Actions V P) (production : Nat) (action : SemanticAction V P) : Actions V P :=
  (actions ++ Array.replicate (production + 1 - actions.size) none).setIfInBounds production
    (some action)

def bound (actions : Actions V P) : List Bool := actions.toList.map (·.isSome)

def run (actions : Actions V P) (nested : Nested V P) (c : Context V P) :
    Reply V × Context V P :=
  let (control, c) := match actions.getD c.production none with
    | some action => action nested c
    | none => (.default, c)
  match control with
  | .default =>
    let (v, c) := c.take 1
    (.value v, c)
  | .value v => (.value (some v), c)
  | .accept v => (.accept v, c)
  | .abort => (.abort, c)

end Actions

end TableParsing
