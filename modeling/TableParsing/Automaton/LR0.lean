import TableParsing.Automaton.Exploration
import TableParsing.Automaton.Item

/-! The canonical collection of LR(0) item sets. The end of input is never shifted:
the state in which it comes next accepts. -/

namespace TableParsing.LR0

structure State where
  kernel : List Item
  transitions : List (Symbol × Nat)
  reduces : List Nat
  accepts : Bool

abbrev Collection := Array State

def closure (g : Grammar) (brought : Array (List Item)) (kernel : List Item) : List Item :=
  (kernel.flatMap fun i => i :: match i.nextNonterminal g with
    | some n => brought.getD n []
    | none => []).eraseDups

def moves (g : Grammar) (items : List Item) : List (Symbol × Item) :=
  items.filterMap fun i => match i.next g with
    | some x => if x = .terminal Symbol.endOfInput then none else some (x, i.advance)
    | none => none

def successors (g : Grammar) (items : List Item) : List (Symbol × List Item) :=
  let moves := moves g items
  (moves.map (·.1)).eraseDups.map fun x =>
    (x, (moves.filterMap fun m => if m.1 = x then some m.2 else none).mergeSort Item.le)

def completed (g : Grammar) (items : List Item) : List Nat :=
  items.filterMap fun i => if (i.next g).isNone then some i.production else none

def acceptsEnd (g : Grammar) (items : List Item) : Bool :=
  items.any fun i => i.next g == some (.terminal Symbol.endOfInput)

def State.ofNode (g : Grammar) (n : Node (List Item) (List Item)) : State :=
  ⟨n.kernel, n.transitions, completed g n.contents, acceptsEnd g n.contents⟩

def build (g : Grammar) : Except TooManyStates Collection :=
  let starts := StartItems.ofGrammar g
  let brought := (Array.range g.nonterminals.size).map fun n => starts.closure [n]
  match Exploration.explore maxStates (closure g brought) (successors g) [Item.start 0] with
  | .ok nodes => .ok (nodes.map (State.ofNode g))
  | .error e => .error e

namespace State

def target? (s : State) (x : Symbol) : Option Nat := s.transitions.lookup x

def shifts (s : State) : List (Nat × Nat) :=
  s.transitions.filterMap fun (x, next) => x.terminal?.map (·, next)

def gotos (s : State) : List (Nat × Nat) :=
  s.transitions.filterMap fun (x, next) => x.nonterminal?.map (·, next)

end State

/-- The states with a transition into `s`, each with its symbol. -/
def predecessors (c : Collection) (s : Nat) : List (Nat × Symbol) :=
  c.toList.zipIdx.filterMap fun (state, i) =>
    (state.transitions.find? (·.2 == s)).map fun (x, _) => (i, x)

def renderSection (title : String) (entries : List String) : String :=
  if entries.isEmpty then ""
  else "## " ++ title ++ ":\n" ++ String.join (entries.map fun e => "- " ++ e ++ "\n")

def State.render (g : Grammar) (s : State) : String :=
  "## kernels:\n" ++ String.join (s.kernel.map fun i => "- " ++ i.render g ++ "\n") ++
  renderSection "shifts"
    (s.shifts.map fun (t, next) => g.terminalName t ++ " => " ++ stateLabel next) ++
  renderSection "gotos"
    (s.gotos.map fun (n, next) => g.nonterminalName n ++ " => " ++ stateLabel next) ++
  renderSection "reduces" (s.reduces.map g.renderProduction) ++
  if s.accepts then "## accept on " ++ g.terminalName Symbol.endOfInput ++ "\n" else ""

def render (g : Grammar) (c : Collection) : String :=
  String.join (c.toList.zipIdx.map fun (s, i) =>
    "#### State " ++ stateLabel i ++ "\n" ++ s.render g)

end TableParsing.LR0
