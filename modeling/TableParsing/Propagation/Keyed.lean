import TableParsing.Numbering
import TableParsing.Propagation.Traversal

/-! Propagation over a graph whose nodes are named by keys, and the sets of integers. -/

namespace TableParsing

namespace Propagation

variable {κ α : Type} [BEq κ] [Hashable κ] [LawfulBEq κ]

/-- For every position of a map with distinct keys, the positions of its successors. A successor
that is no key is ignored. -/
def positions (nodes : List (κ × α)) (successors : κ → List κ) : Array (List Nat) :=
  let keys := Numbering.ofList (nodes.map Prod.fst)
  keys.keys.map fun k => (successors k).filterMap keys.find?

def closeMap [Union α] (nodes : List (κ × α)) (successors : κ → List κ) : List (κ × α) :=
  (nodes.map Prod.fst).zip
    (traverse (positions nodes successors) (nodes.map Prod.snd).toArray).toList

def collect (nodes : List (κ × α)) : List (κ × α) :=
  let reversed := nodes.reverse
  (Numbering.ofList (nodes.map Prod.fst)).toList.filterMap fun k =>
    (reversed.lookup k).map (k, ·)

def closeKeyed [Union α] (nodes : List (κ × α)) (edges : List (κ × κ)) : List (κ × α) :=
  closeMap (collect nodes) fun k => (edges.filter (·.1 == k)).map Prod.snd

end Propagation

structure IntegerSet where
  members : List Int
  deriving DecidableEq

namespace IntegerSet

def ofList (members : List Int) : IntegerSet := ⟨(members.mergeSort (· ≤ ·)).eraseDups⟩

instance : Union IntegerSet := ⟨fun a b => ofList (a.members ++ b.members)⟩

end IntegerSet

end TableParsing
