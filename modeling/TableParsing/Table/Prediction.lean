import TableParsing.Table

/-! LL(1) prediction tables. A production is predicted on what can begin its right
side, and if that can be empty on what follows its left side. The first prediction
of a cell stays; later ones are recorded as conflicts. -/

namespace TableParsing

structure PredictionConflict where
  symbol : Nat
  lookahead : Nat
  kept : Nat
  rejected : Nat
  deriving DecidableEq

structure PredictionTable where
  /-- For every nonterminal, the predicted productions by terminal, in order of
  entry. -/
  rows : Array (List (Nat × Nat))
  conflicts : List PredictionConflict
  terminals : Array String
  nonterminals : Array String
  productions : Array Production

namespace PredictionTable

def lookaheads (g : Grammar) (p : Nat) : TerminalSet :=
  let whole := g.tail p 0
  if whole.nullable then whole.first ∪ g.follow (g.production p).left else whole.first

structure Draft where
  row : List (Nat × Nat)
  conflicts : List PredictionConflict

def Draft.enter (symbol p : Nat) (d : Draft) (t : Nat) : Draft :=
  match d.row.lookup t with
  | some kept => { d with conflicts := d.conflicts ++ [⟨symbol, t, kept, p⟩] }
  | none => { d with row := d.row ++ [(t, p)] }

def enter (g : Grammar) (state : Array (List (Nat × Nat)) × List PredictionConflict) (p : Nat) :
    Array (List (Nat × Nat)) × List PredictionConflict :=
  let left := (g.production p).left
  let draft := (lookaheads g p).toList.foldl (Draft.enter left p) ⟨state.1.getD left [], []⟩
  (state.1.setIfInBounds left draft.row, state.2 ++ draft.conflicts)

def generate (g : Grammar) : PredictionTable :=
  let (rows, conflicts) := (List.range g.productions.size).foldl (enter g)
    (Array.replicate g.nonterminals.size [], [])
  { rows, conflicts
    terminals := g.terminals.map (·.name)
    nonterminals := g.nonterminals
    productions := g.productions }

variable (table : PredictionTable)

def predict (n t : Nat) : Option Nat := (table.rows.getD n []).lookup t

def expected (n : Nat) : List Nat :=
  (((table.rows.getD n []).map (·.1)).filter fun t =>
    t ≠ Symbol.endOfInput ∧ t ≠ Symbol.errorToken).mergeSort (· ≤ ·)

def terminal? (name : String) : Option Nat := table.terminals.findIdx? (· == name)

def terminalName (t : Nat) : String := table.terminals.getD t ""

def nonterminalName (n : Nat) : String := table.nonterminals.getD n ""

def production (p : Nat) : Production := table.productions.getD p default

def render (g : Grammar) : String :=
  String.join (table.rows.toList.zipIdx.map fun (row, n) =>
    "## " ++ g.nonterminalName n ++ "\n" ++
    String.join (row.map fun (t, p) =>
      "- " ++ g.terminalName t ++ " => " ++ g.renderProduction p ++ "\n"))

end PredictionTable

end TableParsing
