/-! Sets flow backwards along the edges of a finite graph. The nodes are the
positions of an array, `edges[i]` lists the nodes whose sets node `i` takes in,
and after as many rounds as there are nodes every node holds the union of the
initial sets of all nodes that it reaches. -/

namespace TableParsing.Propagation

variable {α : Type} [Union α]

/-- Every node takes in the sets its successors had before the round. -/
def round (edges : Array (List Nat)) (sets : Array α) : Array α :=
  sets.mapIdx fun i s =>
    (edges.getD i []).foldl (fun acc j => match sets[j]? with
      | some t => acc ∪ t
      | none => acc) s

def settle [DecidableEq α] (edges : Array (List Nat)) : Nat → Array α → Array α
  | 0, sets => sets
  | n + 1, sets =>
    let next := round edges sets
    if next = sets then sets else settle edges n next

def close [DecidableEq α] (edges : Array (List Nat)) (sets : Array α) : Array α :=
  settle edges sets.size sets

def ofPairs (n : Nat) (pairs : List (Nat × Nat)) : Array (List Nat) :=
  pairs.foldl (fun edges e => edges.modify e.1 (e.2 :: ·)) (Array.replicate n [])

def accumulate (sets : Array α) (additions : List (Nat × α)) : Array α :=
  additions.foldl (fun sets a => sets.modify a.1 (· ∪ a.2)) sets

end TableParsing.Propagation
