import TableParsing.Automaton.LR0
import TableParsing.Propagation.Traversal

/-! Look-ahead sets of reductions over the LR(0) collection. What follows a
nonterminal transition is what can be read after it, through transitions on
nullable nonterminals, together with what follows the transitions whose right sides
can end with it. A reduction takes in what follows each transition that its right
side leads back to. -/

namespace TableParsing.Lookahead

structure Goto where
  state : Nat
  symbol : Nat
  deriving DecidableEq, Hashable, Inhabited

def Goto.label (t : Goto) : String :=
  "(" ++ stateLabel t.state ++ "," ++ nonterminalLabel t.symbol ++ ")"

structure Reduction where
  state : Nat
  production : Nat
  deriving DecidableEq, Hashable, Inhabited

def Reduction.label (r : Reduction) : String :=
  "(" ++ stateLabel r.state ++ "," ++ productionLabel r.production ++ ")"

def stateAt (c : LR0.Collection) (s : Nat) : LR0.State := c.getD s ⟨[], [], [], false⟩

def gotos (c : LR0.Collection) : List (Goto × Nat) :=
  c.toList.zipIdx.flatMap fun (state, s) => state.gotos.map fun (n, next) => (⟨s, n⟩, next)

def reductions (c : LR0.Collection) : List Reduction :=
  c.toList.zipIdx.flatMap fun (state, s) => state.reduces.map fun p => ⟨s, p⟩

def directRead (c : LR0.Collection) (target : Nat) : TerminalSet :=
  let state := stateAt c target
  let shifted := TerminalSet.ofList (state.shifts.map (·.1))
  if state.accepts then shifted.insert Symbol.endOfInput else shifted

def readsOf (g : Grammar) (c : LR0.Collection) (target : Nat) : List Goto :=
  ((stateAt c target).gotos.filter fun (n, _) => g.isNullable n).map fun (n, _) => ⟨target, n⟩

structure Walk where
  current : Option Nat
  passed : List (Nat × Symbol)

def Walk.step (c : LR0.Collection) (w : Walk) (x : Symbol) : Walk :=
  match w.current with
  | some s => ⟨(stateAt c s).target? x, (s, x) :: w.passed⟩
  | none => w

def walk (c : LR0.Collection) (s : Nat) (right : Array Symbol) : Walk :=
  right.foldl (Walk.step c) ⟨some s, []⟩

/-- The transitions that production `p`, read from state `s`, passes with only
nullable symbols left. -/
def endings (g : Grammar) (c : LR0.Collection) (s p : Nat) : List Goto :=
  let passed := (walk c s (g.production p).right).passed.reverse
  passed.zipIdx.filterMap fun ((state, x), i) =>
    match x with
    | .nonterminal n => if (g.tail p (i + 1)).nullable then some ⟨state, n⟩ else none
    | .terminal _ => none

def readsPairs (g : Grammar) (c : LR0.Collection) (keys : Numbering Goto) : List (Nat × Nat) :=
  (gotos c).zipIdx.flatMap fun ((_, target), i) =>
    (readsOf g c target).filterMap fun r => (keys.find? r).map (i, ·)

/-- The numbers of transitions that include what follows the transition whose right
side they can end. -/
def includesPairs (g : Grammar) (c : LR0.Collection) (keys : Numbering Goto) : List (Nat × Nat) :=
  (gotos c).zipIdx.flatMap fun ((t, _), i) =>
    (g.productionsOf t.symbol).flatMap fun p =>
      (endings g c t.state p).filterMap fun e => (keys.find? e).map (·, i)

def follows (g : Grammar) (c : LR0.Collection) (keys : Numbering Goto) : Array TerminalSet :=
  let direct := ((gotos c).map fun (_, target) => directRead c target).toArray
  let read := Propagation.traverse (Propagation.ofPairs keys.size (readsPairs g c keys)) direct
  Propagation.traverse (Propagation.ofPairs keys.size (includesPairs g c keys)) read

/-- For every production of a transition's nonterminal, what the reduction that its
right side leads to takes in. -/
def additions (g : Grammar) (c : LR0.Collection) (keys : Numbering Reduction)
    (follows : Array TerminalSet) : List (Nat × TerminalSet) :=
  (gotos c).zipIdx.flatMap fun ((t, _), i) =>
    (g.productionsOf t.symbol).filterMap fun p => do
      let q ← (walk c t.state (g.production p).right).current
      let r ← keys.find? ⟨q, p⟩
      return (r, follows.getD i ∅)

structure Sets where
  gotos : Numbering Goto
  follows : Array TerminalSet
  reductions : Numbering Reduction
  lookaheads : Array TerminalSet

def compute (g : Grammar) (c : LR0.Collection) : Sets :=
  let gotos := Numbering.ofList ((gotos c).map (·.1))
  let follows := follows g c gotos
  let reductions := Numbering.ofList (reductions c)
  ⟨gotos, follows, reductions,
    Propagation.accumulate (Array.replicate reductions.size ∅) (additions g c reductions follows)⟩

namespace Sets

def lookahead? (sets : Sets) (state production : Nat) : Option TerminalSet :=
  (sets.reductions.find? ⟨state, production⟩).map fun i => sets.lookaheads.getD i ∅

def sortedFollows (sets : Sets) : List (Goto × TerminalSet) :=
  (sets.gotos.toList.zip sets.follows.toList).mergeSort fun a b =>
    a.1.state < b.1.state || (a.1.state == b.1.state && a.1.symbol ≤ b.1.symbol)

def sortedLookaheads (sets : Sets) : List (Reduction × TerminalSet) :=
  (sets.reductions.toList.zip sets.lookaheads.toList).mergeSort fun a b =>
    a.1.state < b.1.state || (a.1.state == b.1.state && a.1.production ≤ b.1.production)

end Sets

end TableParsing.Lookahead
