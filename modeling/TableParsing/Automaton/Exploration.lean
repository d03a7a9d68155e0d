import TableParsing.Numbering
import TableParsing.Symbol

/-! States are found breadth first and numbered in order of discovery. A state is
known by its kernel; expanding the kernel gives its contents, and the contents say
which kernels follow on which symbols. -/

namespace TableParsing

structure TooManyStates where
  deriving DecidableEq

def maxStates : Nat := 65536

def TooManyStates.message (_ : TooManyStates) : String :=
  "the automaton needs more than " ++ Nat.repr maxStates ++ " states"

structure Node (κ σ : Type) where
  kernel : κ
  contents : σ
  transitions : List (Symbol × Nat)

namespace Exploration

variable {κ σ : Type} [BEq κ] [Hashable κ] [LawfulBEq κ]

def number (limit : Nat) : List (Symbol × κ) → Numbering κ →
    Except TooManyStates (Numbering κ × List (Symbol × Nat))
  | [], known => .ok (known, [])
  | (x, k) :: rest, known =>
    match h : known.find? k with
    | some i =>
      match number limit rest known with
      | .ok (known, targets) => .ok (known, (x, i) :: targets)
      | .error e => .error e
    | none =>
      let i := known.size
      if i < limit then
        match number limit rest (known.push k h) with
        | .ok (known, targets) => .ok (known, (x, i) :: targets)
        | .error e => .error e
      else .error ⟨⟩

def expand (limit : Nat) (contents : κ → σ) (next : σ → List (Symbol × κ)) :
    Nat → Numbering κ → Array (Node κ σ) → Except TooManyStates (Array (Node κ σ))
  | 0, _, nodes => .ok nodes
  | fuel + 1, known, nodes =>
    match known.keys[nodes.size]? with
    | none => .ok nodes
    | some kernel =>
      let inside := contents kernel
      match number limit (next inside) known with
      | .error e => .error e
      | .ok (known, transitions) =>
        expand limit contents next fuel known (nodes.push ⟨kernel, inside, transitions⟩)

/-- Every state reachable from `start`, which has number `0`. The limit on the
number of states also bounds the number of expansions. -/
def explore (limit : Nat) (contents : κ → σ) (next : σ → List (Symbol × κ)) (start : κ) :
    Except TooManyStates (Array (Node κ σ)) :=
  expand limit contents next (limit + 1) (Numbering.empty.insert start) #[]

end Exploration

end TableParsing
