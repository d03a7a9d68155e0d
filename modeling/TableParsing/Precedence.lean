/-! Operator precedence: levels that bind tighter have the greater priority, and
the associativity of a level decides between operators of the same level. -/

namespace TableParsing

inductive Assoc
  | left
  | right
  | nonassoc
  deriving DecidableEq

def Assoc.name : Assoc → String
  | left => "left"
  | right => "right"
  | nonassoc => "nonassoc"

structure Precedence where
  priority : Nat
  assoc : Assoc
  deriving DecidableEq

end TableParsing
