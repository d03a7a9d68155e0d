import TableParsing.Grammar.Production
import TableParsing.Propagation
import TableParsing.TerminalSet

/-! Which nonterminals derive the empty string, which terminals can begin what a
nonterminal derives, and which can follow it. Each is the least solution of its
defining equations: nullability by rounds over the productions, the two families
of sets by propagation along the containments between nonterminals. -/

namespace TableParsing

/-- What can begin a form derived from a sequence of symbols, and whether the
sequence derives the empty string. -/
structure Prefixes where
  first : TerminalSet
  nullable : Bool
  deriving DecidableEq, Inhabited

structure FirstFollow where
  nullable : Array Bool
  first : Array TerminalSet
  follow : Array TerminalSet
  tails : Array (Array Prefixes)
  deriving Inhabited

namespace FirstFollow

def isNullable (nullable : Array Bool) : Symbol → Bool
  | .terminal _ => false
  | .nonterminal n => nullable.getD n false

def nullableRound (productions : Array Production) (nullable : Array Bool) : Array Bool :=
  productions.foldl (fun known p =>
    if p.right.all (isNullable known) then known.setIfInBounds p.left true else known) nullable

def nullableSettle (productions : Array Production) : Nat → Array Bool → Array Bool
  | 0, nullable => nullable
  | n + 1, nullable =>
    let next := nullableRound productions nullable
    if next = nullable then nullable else nullableSettle productions n next

def leading (nullable : Array Bool) (right : List Symbol) : List Symbol :=
  right.takeWhile (isNullable nullable) ++ (right.dropWhile (isNullable nullable)).head?.toList

/-- The symbols that can stand first in a form reached from `n` in one step,
nullable ones before them erased. -/
def leadingOf (productions : Array Production) (nullable : Array Bool) (n : Nat) : List Symbol :=
  (productions.toList.filter (·.left == n)).flatMap fun p => leading nullable p.right.toList

def firstSets (count : Nat) (productions : Array Production) (nullable : Array Bool) :
    Array TerminalSet :=
  let leads := (Array.range count).map (leadingOf productions nullable)
  Propagation.close (leads.map (·.filterMap Symbol.nonterminal?))
    (leads.map fun symbols => TerminalSet.ofList (symbols.filterMap Symbol.terminal?))

def prepend (nullable : Array Bool) (first : Array TerminalSet) (s : Symbol) (rest : Prefixes) :
    Prefixes :=
  match s with
  | .terminal t => ⟨TerminalSet.singleton t, false⟩
  | .nonterminal n =>
    if nullable.getD n false then ⟨first.getD n ∅ ∪ rest.first, rest.nullable⟩
    else ⟨first.getD n ∅, false⟩

def prefixes (nullable : Array Bool) (first : Array TerminalSet) (symbols : List Symbol) :
    Prefixes :=
  symbols.foldr (prepend nullable first) ⟨∅, true⟩

def suffixPrefixes (nullable : Array Bool) (first : Array TerminalSet) (symbols : List Symbol) :
    List Prefixes :=
  symbols.foldr (fun s later => match later with
    | [] => []
    | rest :: _ => prepend nullable first s rest :: later) [⟨∅, true⟩]

def occurrences (right : Array Symbol) (tails : Array Prefixes) : List (Nat × Prefixes) :=
  (right.toList.zip tails.toList.tail).filterMap fun (s, rest) => s.nonterminal?.map (·, rest)

def followSets (count : Nat) (productions : Array Production) (tails : Array (Array Prefixes))
    (start : Nat) : Array TerminalSet :=
  let uses := (productions.toList.zip tails.toList).flatMap fun (p, tails) =>
    (occurrences p.right tails).map fun (n, rest) => (p.left, n, rest)
  let additions := uses.map fun (_, n, rest) => (n, rest.first)
  let inherits := uses.filterMap fun (left, n, rest) =>
    if rest.nullable then some (n, left) else none
  Propagation.close (Propagation.ofPairs count inherits)
    (Propagation.accumulate (Array.replicate count ∅)
      ((start, TerminalSet.singleton Symbol.endOfInput) :: additions))

def ofProductions (count : Nat) (productions : Array Production) (start : Nat) : FirstFollow :=
  let nullable := nullableSettle productions count (Array.replicate count false)
  let first := firstSets count productions nullable
  let tails := productions.map fun p => (suffixPrefixes nullable first p.right.toList).toArray
  ⟨nullable, first, followSets count productions tails start, tails⟩

end FirstFollow

end TableParsing
