import TableParsing.Automaton.Canonical

/-! The ways to build an LR automaton for a grammar. Look-ahead sets are propagated over
the LR(0) collection by `lalr`, and `merged` unites the canonical states with equal cores. -/

namespace TableParsing

inductive Method
  | lr0
  | slr
  | lalr
  | lr1
  | merged
  deriving DecidableEq

def Method.automaton (g : Grammar) : Method → Except TooManyStates Automaton
  | lr0 => (LR0.build g).map fun c => Automaton.ofLR0 c fun _ _ => .below g.terminals.size
  | slr => (LR0.build g).map fun c => Automaton.ofLR0 c fun _ p => g.follow (g.production p).left
  | lalr => (LR0.build g).map fun c =>
    let sets := Lookahead.compute g c
    Automaton.ofLR0 c fun s p => (sets.lookahead? s p).getD ∅
  | lr1 => Canonical.build g
  | merged => (Canonical.build g).map Canonical.mergeCores

end TableParsing
