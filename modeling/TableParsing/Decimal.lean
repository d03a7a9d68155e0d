/-! Decimals and their positional text. -/

namespace TableParsing

structure Decimal where
  digits : Nat
  exponent : Int
  deriving DecidableEq

namespace Decimal

def trim : Nat → Decimal → Decimal
  | 0, d => d
  | n + 1, d =>
    if d.digits ≠ 0 ∧ d.digits % 10 = 0 then trim n ⟨d.digits / 10, d.exponent + 1⟩ else d

/-- The text without an exponent: zeros fill up to the point, and a whole number has no
point. -/
def positional (d : Decimal) : String :=
  let digits := Nat.toDigits 10 d.digits
  let zeros (n : Nat) := List.replicate n '0'
  if 0 ≤ d.exponent then String.ofList (digits ++ zeros d.exponent.toNat)
  else
    let places := (-d.exponent).toNat
    let filled := zeros (places + 1 - digits.length) ++ digits
    let whole := filled.length - places
    String.ofList (filled.take whole ++ '.' :: filled.drop whole)

end Decimal

end TableParsing
