import TableParsing.Table.Conflict

/-! A parse table in self-contained dense form. Symbols are columns, the terminals
before the nonterminals; a cell is a kind and a target. -/

namespace TableParsing

structure EncodedProduction where
  left : UInt64
  length : UInt64
  aliases : List Alias
  deriving DecidableEq, Inhabited

structure EncodedTable where
  terminals : Array String
  nonterminals : Array String
  productions : Array EncodedProduction
  rows : Array (Array (UInt8 × UInt32))
  /-- For each state, the production reduced without a look at the input; an empty
  list means that there is none anywhere. -/
  defaultReductions : Array (Option UInt32)
  conflicts : UInt64
  deriving DecidableEq, Inhabited

namespace Kind

def error : UInt8 := 0
/-- Shift in a terminal column, goto in a nonterminal column. -/
def shift : UInt8 := 1
def reduce : UInt8 := 2
def accept : UInt8 := 3

end Kind

inductive DecodeError
  | json
  | actionKind (state symbol kind : Nat)
  | targetOutOfRange (state symbol target : Nat)
  | rowWidth (state expected found : Nat)
  | defaultReductionCount (expected found : Nat)
  | defaultReduction (state target : Nat)
  deriving DecidableEq

namespace DecodeError

def message : DecodeError → String
  | json => "malformed table"
  | actionKind state symbol kind =>
    "unknown action kind " ++ Nat.repr kind ++ " at state " ++ Nat.repr state ++ ", symbol " ++
      Nat.repr symbol
  | targetOutOfRange state symbol target =>
    "action target " ++ Nat.repr target ++ " out of range at state " ++ Nat.repr state ++
      ", symbol " ++ Nat.repr symbol
  | rowWidth state expected found =>
    "row " ++ Nat.repr state ++ " has " ++ Nat.repr found ++ " cells, expected " ++
      Nat.repr expected
  | defaultReductionCount expected found =>
    Nat.repr found ++ " default reductions for " ++ Nat.repr expected ++ " states"
  | defaultReduction state target =>
    "default reduction of state " ++ Nat.repr state ++ " names unknown production " ++
      Nat.repr target

end DecodeError

namespace EncodedTable

variable (e : EncodedTable)

def width : Nat := e.terminals.size + e.nonterminals.size

def checkCell (state symbol : Nat) (cell : UInt8 × UInt32) : Except DecodeError Unit :=
  let within (bound : Nat) : Except DecodeError Unit :=
    if cell.2.toNat < bound then .ok ()
    else .error (.targetOutOfRange state symbol cell.2.toNat)
  if cell.1 = Kind.error ∨ cell.1 = Kind.accept then .ok ()
  else if cell.1 = Kind.shift then within e.rows.size
  else if cell.1 = Kind.reduce then within e.productions.size
  else .error (.actionKind state symbol cell.1.toNat)

def checkRow (state : Nat) (row : Array (UInt8 × UInt32)) : Except DecodeError Unit :=
  if row.size ≠ e.width then .error (.rowWidth state e.width row.size)
  else row.toList.zipIdx.forM fun (cell, symbol) => e.checkCell state symbol cell

def checkDefault (state : Nat) : Option UInt32 → Except DecodeError Unit
  | none => .ok ()
  | some target =>
    if target.toNat < e.productions.size then .ok ()
    else .error (.defaultReduction state target.toNat)

def checkDefaults : Except DecodeError Unit :=
  if e.defaultReductions.size ≠ 0 ∧ e.defaultReductions.size ≠ e.rows.size then
    .error (.defaultReductionCount e.rows.size e.defaultReductions.size)
  else e.defaultReductions.toList.zipIdx.forM fun (target, state) => e.checkDefault state target

/-- An unknown left side is reported by its low 32 bits. -/
def checkProduction (index : Nat) (p : EncodedProduction) : Except DecodeError Unit :=
  if p.left.toNat < e.nonterminals.size then .ok ()
  else .error (.targetOutOfRange 0 index p.left.toUInt32.toNat)

def validate : Except DecodeError Unit := do
  e.rows.toList.zipIdx.forM fun (row, state) => e.checkRow state row
  e.checkDefaults
  e.productions.toList.zipIdx.forM fun (p, index) => e.checkProduction index p

def cell (state symbol : Nat) : UInt8 × UInt32 :=
  (e.rows.getD state #[]).getD symbol (Kind.error, 0)

def action (state terminal : Nat) : Action :=
  let (kind, target) := e.cell state terminal
  if kind = Kind.shift then .shift target.toNat
  else if kind = Kind.reduce then .reduce target.toNat
  else if kind = Kind.accept then .accept
  else .error

def goto (state nonterminal : Nat) : Option Nat :=
  let (kind, target) := e.cell state (e.terminals.size + nonterminal)
  if kind = Kind.shift then some target.toNat else none

def defaultReduction (state : Nat) : Option Nat :=
  (e.defaultReductions.getD state none).map UInt32.toNat

def expected (state : Nat) : List Nat :=
  (List.range' 2 (e.terminals.size - 2)).filter fun t => (e.cell state t).1 ≠ Kind.error

def terminal? (name : String) : Option Nat := e.terminals.findIdx? (· == name)

def terminalName (t : Nat) : String := e.terminals.getD t ""

def production (p : Nat) : EncodedProduction := e.productions.getD p default

end EncodedTable

end TableParsing
