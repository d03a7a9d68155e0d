import TableParsing.Encoded

/-! Deterministic LR parse tables. A row decides an action for every terminal; if
all its actions reduce the same production, that is also its default reduction,
taken without a look at the input. -/

namespace TableParsing

structure Table.Row where
  actions : Array (Option Action)
  gotos : List (Nat × Nat)
  defaultReduction : Option Nat

structure ProductionShape where
  left : Nat
  length : Nat
  aliases : List Alias
  deriving DecidableEq, Inhabited

structure Table where
  rows : Array Table.Row
  conflicts : List Conflict
  terminals : Array String
  nonterminals : Array String
  productions : Array ProductionShape

namespace Table

def shiftOn (state : Automaton.State) (t : Nat) : Option Action :=
  match state.target? (.terminal t) with
  | some next => some (.shift next)
  | none => if t = Symbol.endOfInput ∧ state.accepts then some .accept else none

def reducesOn (state : Automaton.State) (t : Nat) : List Nat :=
  state.reduces.filterMap fun (p, lookaheads) => if lookaheads.contains t then some p else none

def cells (g : Grammar) (s : Nat) (state : Automaton.State) : List Cell :=
  (List.range g.terminals.size).map fun t =>
    resolve g s t (shiftOn state t) (reducesOn state t)

/-- The production that every action of a state reduces. A cell that holds an error
keeps the state from reducing by default. -/
def commonReduction : List Action → Option Nat
  | .reduce p :: rest => if rest.all (· == .reduce p) then some p else none
  | _ => none

def rowOf (state : Automaton.State) (cells : List Cell) : Row :=
  let actions := cells.map (·.action)
  ⟨actions.toArray, state.gotos, commonReduction (actions.filterMap id)⟩

def generate (g : Grammar) (a : Automaton) : Table :=
  let cells := a.states.mapIdx (cells g)
  { rows := a.states.zipWith rowOf cells
    conflicts := cells.toList.flatMap fun row => row.flatMap (·.conflicts)
    terminals := g.terminals.map (·.name)
    nonterminals := g.nonterminals
    productions := g.productions.map fun p => ⟨p.left, p.right.size, p.aliases⟩ }

variable (table : Table)

def conflictCount : Nat := table.conflicts.countP (·.counted)

def action (s t : Nat) : Action :=
  match table.rows[s]? with
  | some row => ((row.actions.getD t none).getD .error)
  | none => .error

def goto (s n : Nat) : Option Nat := (table.rows[s]?).bind (·.gotos.lookup n)

def defaultReduction (s : Nat) : Option Nat := (table.rows[s]?).bind (·.defaultReduction)

def expected (s : Nat) : List Nat :=
  (List.range table.terminals.size).filter fun t =>
    t ≠ Symbol.endOfInput ∧ t ≠ Symbol.errorToken ∧ table.action s t ≠ .error

def terminal? (name : String) : Option Nat := table.terminals.findIdx? (· == name)

def terminalName (t : Nat) : String := table.terminals.getD t ""

def production (p : Nat) : ProductionShape := table.productions.getD p default

def encodeAction : Option Action → UInt8 × UInt32
  | some (.shift s) => (Kind.shift, UInt32.ofNat s)
  | some (.reduce p) => (Kind.reduce, UInt32.ofNat p)
  | some .accept => (Kind.accept, 0)
  | some .error => (Kind.error, 0)
  | none => (Kind.error, 0)

def encodeRow (row : Row) : Array (UInt8 × UInt32) :=
  let gotos := (Array.range table.nonterminals.size).map fun n =>
    match row.gotos.lookup n with
    | some next => (Kind.shift, UInt32.ofNat next)
    | none => (Kind.error, 0)
  row.actions.map encodeAction ++ gotos

def encode : EncodedTable where
  terminals := table.terminals
  nonterminals := table.nonterminals
  productions := table.productions.map fun p =>
    ⟨UInt64.ofNat p.left, UInt64.ofNat p.length, p.aliases⟩
  rows := table.rows.map table.encodeRow
  defaultReductions := table.rows.map fun row => row.defaultReduction.map UInt32.ofNat
  conflicts := UInt64.ofNat table.conflictCount

def Row.render (g : Grammar) (row : Row) : String :=
  let actions := row.actions.toList.zipIdx.filterMap fun (action, t) =>
    action.map fun action => "- " ++ g.terminalName t ++ " => " ++ action.render g ++ "\n"
  let default := match row.defaultReduction with
    | some p => "- $default => " ++ (Action.reduce p).render g ++ "\n"
    | none => ""
  let gotos := row.gotos.map fun (n, next) =>
    "- " ++ g.nonterminalName n ++ " => goto(" ++ stateLabel next ++ ")\n"
  "## actions\n" ++ String.join actions ++ default ++
    if gotos.isEmpty then "" else "## gotos\n" ++ String.join gotos

def renderConflicts (g : Grammar) : String :=
  if table.conflicts.isEmpty then ""
  else
    "\n#### conflicts (" ++ Nat.repr table.conflictCount ++ " counted)\n" ++
    String.join (table.conflicts.map fun c =>
      (if c.counted then "! " else "- ") ++ c.render g ++ "\n")

def render (g : Grammar) : String :=
  "\n".intercalate (table.rows.toList.zipIdx.map fun (row, s) =>
    "#### State " ++ stateLabel s ++ "\n" ++ row.render g) ++ table.renderConflicts g

end Table

end TableParsing
