import TableParsing.Grammar
import TableParsing.Reachability

/-! Items: productions with a dot in their right side. An item whose dot stands
before a nonterminal brings in the start items of that nonterminal, of what their
dots stand before, and so on. -/

namespace TableParsing

structure Item where
  production : Nat
  index : Nat
  deriving DecidableEq, Hashable, Inhabited

namespace Item

def start (p : Nat) : Item := ⟨p, 0⟩

def advance (i : Item) : Item := ⟨i.production, i.index + 1⟩

def next (g : Grammar) (i : Item) : Option Symbol := (g.production i.production).right[i.index]?

def nextNonterminal (g : Grammar) (i : Item) : Option Nat :=
  (i.next g).bind Symbol.nonterminal?

def le (a b : Item) : Bool :=
  a.production < b.production || (a.production == b.production && a.index ≤ b.index)

def render (g : Grammar) (i : Item) : String :=
  let production := g.production i.production
  let names := production.right.toList.map fun s => " " ++ g.symbolName s
  g.nonterminalName production.left ++ " -> [" ++ String.join (names.take i.index) ++ " ." ++
    String.join (names.drop i.index) ++ " ]"

end Item

instance : LawfulBEq (List Item) := inferInstance

structure StartItems where
  items : Array (List Item)
  leads : Array (List Nat)

namespace StartItems

def ofGrammar (g : Grammar) : StartItems :=
  let items := (Array.range g.nonterminals.size).map fun n => (g.productionsOf n).map Item.start
  ⟨items, items.map fun items => items.filterMap (Item.nextNonterminal g)⟩

variable (s : StartItems)

def of (n : Nat) : List Item := s.items.getD n []

/-- The nonterminals whose start items belong to a closure that has the given ones
after a dot, in order of discovery. -/
def expanded (roots : List Nat) : List Nat :=
  Reachability.reach s.items.size (fun n => s.leads.getD n []) roots

def closure (roots : List Nat) : List Item := (s.expanded roots).flatMap s.of

end StartItems

end TableParsing
