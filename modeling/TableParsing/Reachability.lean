/-! Breadth-first listing of the nodes reachable from a list of roots, in order
of discovery and without repetitions. -/

namespace TableParsing.Reachability

def addNew (seen : Array Nat) (n : Nat) : Array Nat :=
  if seen.contains n then seen else seen.push n

def visit (next : Nat → List Nat) : Nat → Nat → Array Nat → Array Nat
  | 0, _, seen => seen
  | fuel + 1, i, seen =>
    match seen[i]? with
    | none => seen
    | some n => visit next fuel (i + 1) ((next n).foldl addNew seen)

/-- Everything reachable from `roots` in a graph of at most `count` nodes. -/
def reach (count : Nat) (next : Nat → List Nat) (roots : List Nat) : List Nat :=
  (visit next count 0 (roots.foldl addNew #[])).toList

end TableParsing.Reachability
