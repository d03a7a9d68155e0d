import TableParsing.Precedence
import TableParsing.Symbol

/-! Productions and the names that refer to the positions of their right sides. -/

namespace TableParsing

/-- A name for one position of a right side. Positions count from one and are
64-bit words. -/
structure Alias where
  name : String
  position : UInt64
  deriving DecidableEq

def resolveAlias (aliases : List Alias) (name : String) : Option UInt64 :=
  (aliases.find? (·.name == name)).map (·.position)

structure Production where
  left : Nat
  right : Array Symbol
  precedence : Option Precedence
  aliases : List Alias
  deriving DecidableEq, Inhabited

end TableParsing
