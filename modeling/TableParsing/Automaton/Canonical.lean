import TableParsing.Automaton

/-! The canonical collection of LR(1) item sets, and its states merged by core. A closure is
found in rounds: every item gives what can follow the nonterminal after its dot to the start items
of that nonterminal, until a round changes nothing. -/

namespace TableParsing.Canonical

abbrev Kernel := List (Item × TerminalSet)

structure Expansion where
  items : List (Item × TerminalSet)
  changed : Bool

def extend (i : Item) (added : TerminalSet) : List (Item × TerminalSet) → List (Item × TerminalSet)
  | [] => [(i, added)]
  | (j, known) :: items =>
    if j = i then (j, known ∪ added) :: items else (j, known) :: extend i added items

def contribution (g : Grammar) : Item × TerminalSet → Option (Nat × TerminalSet)
  | (i, lookaheads) =>
    (i.nextNonterminal g).map fun n =>
      let rest := g.tail i.production (i.index + 1)
      (n, if rest.nullable then rest.first ∪ lookaheads else rest.first)

namespace Expansion

def give (added : TerminalSet) (e : Expansion) (i : Item) : Expansion :=
  if e.items.any fun x => x.1 == i && added.isSubset x.2 then e
  else ⟨extend i added e.items, true⟩

def visit (g : Grammar) (starts : StartItems) (e : Expansion) (k : Nat) : Expansion :=
  match e.items[k]?.bind (contribution g) with
  | some (n, added) => (starts.of n).foldl (give added) e
  | none => e

end Expansion

section Closure

variable (g : Grammar) (starts : StartItems)

/-- Visits the items that are there when the round begins. -/
def round (items : List (Item × TerminalSet)) : Expansion :=
  (List.range items.length).foldl (Expansion.visit g starts) ⟨items, false⟩

def settle : Nat → List (Item × TerminalSet) → List (Item × TerminalSet)
  | 0, items => items
  | fuel + 1, items =>
    match round g starts items with
    | ⟨items, true⟩ => settle fuel items
    | ⟨items, false⟩ => items

def width (kernel : Kernel) : Nat :=
  kernel.foldl (fun width e => max width e.2.width) g.terminals.size

/-- A bound on the rounds of a closure: each but the last adds an item, or a terminal to one. -/
def rounds (kernel : Kernel) : Nat :=
  (kernel.length + g.productions.size) * (width g kernel + 1) + 1

def closure (kernel : Kernel) : List (Item × TerminalSet) :=
  settle g starts (rounds g kernel) kernel

end Closure

def moves (g : Grammar) (items : List (Item × TerminalSet)) : List (Symbol × Item × TerminalSet) :=
  items.filterMap fun (i, lookaheads) => match i.next g with
    | some x =>
      if x = .terminal Symbol.endOfInput then none else some (x, i.advance, lookaheads)
    | none => none

def successors (g : Grammar) (items : List (Item × TerminalSet)) : List (Symbol × Kernel) :=
  let moves := moves g items
  (moves.map (·.1)).eraseDups.map fun x =>
    (x, (moves.filterMap fun m => if m.1 = x then some m.2 else none).mergeSort
      fun a b => a.1.le b.1)

def completed (g : Grammar) (items : List (Item × TerminalSet)) : List (Nat × TerminalSet) :=
  items.filterMap fun (i, lookaheads) =>
    if (i.next g).isNone then some (i.production, lookaheads) else none

def stateOfNode (g : Grammar) (n : Node Kernel (List (Item × TerminalSet))) : Automaton.State where
  kernel := n.kernel.map fun (i, lookaheads) => (i, some lookaheads)
  transitions := n.transitions
  reduces := completed g n.contents
  accepts := LR0.acceptsEnd g (n.contents.map (·.1))

def build (g : Grammar) : Except TooManyStates Automaton :=
  let starts := StartItems.ofGrammar g
  match Exploration.explore maxStates (closure g starts) (successors g) [(Item.start 0, ∅)] with
  | .ok nodes => .ok ⟨nodes.map (stateOfNode g)⟩
  | .error e => .error e

def core (s : Automaton.State) : List Item := s.kernel.map (·.1)

def uniteOptions : Option TerminalSet → Option TerminalSet → Option TerminalSet
  | some a, some b => some (a ∪ b)
  | a, _ => a

def uniteKernels (a b : List (Item × Option TerminalSet)) : List (Item × Option TerminalSet) :=
  a.zipWith (fun x y => (x.1, uniteOptions x.2 y.2)) b

def uniteReduction (reduces : List (Nat × TerminalSet)) (r : Nat × TerminalSet) :
    List (Nat × TerminalSet) :=
  if reduces.any (·.1 == r.1) then
    reduces.map fun x => if x.1 == r.1 then (x.1, x.2 ∪ r.2) else x
  else reduces ++ [r]

def unite (a b : Automaton.State) : Automaton.State :=
  { a with
    kernel := uniteKernels a.kernel b.kernel
    reduces := b.reduces.foldl uniteReduction a.reduces }

def renumber (numbers : Array Nat) (s : Automaton.State) : Automaton.State :=
  { s with transitions := s.transitions.map fun (x, next) => (x, numbers.getD next 0) }

def place (numbers : Array Nat) (merged : Array Automaton.State) (s : Automaton.State × Nat) :
    Array Automaton.State :=
  let target := numbers.getD s.2 0
  if target < merged.size then merged.modify target (unite · s.1)
  else merged.push (renumber numbers s.1)

/-- The states with equal cores merged, in order of first appearance. -/
def mergeCores (a : Automaton) : Automaton :=
  let cores := Numbering.ofList (a.states.toList.map core)
  let numbers := a.states.map fun s => (cores.find? (core s)).getD 0
  ⟨a.states.toList.zipIdx.foldl (place numbers) #[]⟩

end TableParsing.Canonical
