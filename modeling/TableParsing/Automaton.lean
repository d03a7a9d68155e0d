import TableParsing.Automaton.Lookahead

/-! LR automata whose reductions have look-ahead sets. -/

namespace TableParsing

namespace Automaton

structure State where
  kernel : List (Item × Option TerminalSet)
  transitions : List (Symbol × Nat)
  /-- The completed productions with the terminals on which each is reduced. -/
  reduces : List (Nat × TerminalSet)
  accepts : Bool
  deriving Inhabited

namespace State

def target? (s : State) (x : Symbol) : Option Nat := s.transitions.lookup x

def shifts (s : State) : List (Nat × Nat) :=
  s.transitions.filterMap fun (x, next) => x.terminal?.map (·, next)

def gotos (s : State) : List (Nat × Nat) :=
  s.transitions.filterMap fun (x, next) => x.nonterminal?.map (·, next)

def renderItem (g : Grammar) : Item × Option TerminalSet → String
  | (i, none) => i.render g
  | (i, some lookaheads) => i.render g ++ "  [" ++ g.renderSet lookaheads ++ "]"

def lines (g : Grammar) (s : State) : List String :=
  s.kernel.map (renderItem g) ++
  s.shifts.map (fun (t, next) => g.terminalName t ++ " => shift(" ++ stateLabel next ++ ")") ++
  s.gotos.map (fun (n, next) => g.nonterminalName n ++ " => goto(" ++ stateLabel next ++ ")") ++
  s.reduces.map (fun (p, lookaheads) =>
    "[" ++ g.renderSet lookaheads ++ "] => reduce(" ++ g.renderProduction p ++ ")") ++
  if s.accepts then [g.terminalName Symbol.endOfInput ++ " => accept"] else []

def render (g : Grammar) (s : State) : String :=
  "## items:\n" ++ String.join ((s.lines g).map fun line => "- " ++ line ++ "\n")

end State

end Automaton

structure Automaton where
  states : Array Automaton.State

namespace Automaton

def ofLR0 (c : LR0.Collection) (lookaheads : Nat → Nat → TerminalSet) : Automaton where
  states := c.mapIdx fun s state =>
    { kernel := state.kernel.map (·, none)
      transitions := state.transitions
      reduces := state.reduces.map fun p => (p, lookaheads s p)
      accepts := state.accepts }

def render (g : Grammar) (a : Automaton) : String :=
  "\n".intercalate (a.states.toList.zipIdx.map fun (s, i) =>
    "#### State " ++ stateLabel i ++ "\n" ++ s.render g)

end Automaton

end TableParsing
