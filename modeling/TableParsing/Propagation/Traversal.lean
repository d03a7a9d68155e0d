import TableParsing.Propagation

/-! Propagation in a single traversal. A node stands on a stack from its first visit until its
strongly connected component is complete, and its mark is the lowest place on the stack that it
is known to lead to. The node that leads no lower than its own place is the root of its
component: it has seen all the component reaches, and the members above it take in its set. -/

namespace TableParsing.Propagation

inductive Mark where
  | unseen
  | pending (low : Nat)
  | closed
  deriving DecidableEq

def Mark.lower : Mark → Mark → Mark
  | pending a, pending b => pending (min a b)
  | m, _ => m

structure Traversal (α : Type) where
  sets : Array α
  marks : Array Mark
  stack : List Nat

variable {α : Type} [Union α]

def unite (sets : Array α) (x y : Nat) : Array α :=
  match sets[y]? with
  | some s => sets.modify x (· ∪ s)
  | none => sets

namespace Traversal

def start (sets : Array α) : Traversal α := ⟨sets, Array.replicate sets.size .unseen, []⟩

def mark (t : Traversal α) (x : Nat) : Mark := t.marks.getD x .closed

def enter (t : Traversal α) (x : Nat) : Traversal α :=
  { t with marks := t.marks.setIfInBounds x (.pending t.stack.length), stack := x :: t.stack }

def takeIn (t : Traversal α) (x y : Nat) : Traversal α :=
  { t with
    sets := if x = y then t.sets else unite t.sets x y
    marks := t.marks.modify x (·.lower (t.mark y)) }

/-- Takes the component of `x` from the given stack: its members are closed, and those
above `x` take in the set of `x`. -/
def release (x : Nat) : List Nat → Traversal α → Traversal α
  | [], t => { t with stack := [] }
  | y :: rest, t =>
    let marks := t.marks.setIfInBounds y .closed
    if y = x then { t with marks, stack := rest }
    else release x rest { t with sets := unite t.sets y x, marks }

def visit (edges : Array (List Nat)) : Nat → Nat → Traversal α → Traversal α
  | 0, _, t => t
  | fuel + 1, x, t =>
    let explored := (edges.getD x []).foldl
      (fun t y => (if t.mark y = .unseen then visit edges fuel y t else t).takeIn x y) (t.enter x)
    if explored.mark x = .pending t.stack.length then release x explored.stack explored
    else explored

def run (edges : Array (List Nat)) (sets : Array α) : Traversal α :=
  (List.range sets.size).foldl
    (fun t x => if t.mark x = .unseen then visit edges sets.size x t else t) (start sets)

end Traversal

def traverse (edges : Array (List Nat)) (sets : Array α) : Array α :=
  (Traversal.run edges sets).sets

end TableParsing.Propagation
