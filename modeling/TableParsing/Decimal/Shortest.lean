import TableParsing.Decimal

/-! The decimal with the fewest digits that reads back as a given binary floating-point
number, and of those the nearest to it. A decimal reads back if it lies between the
midpoints to the neighbouring numbers; the midpoints themselves count if the significand
is even. For each number of digits the two grid points around the number are tried. -/

namespace TableParsing.Decimal

def twos (n : Nat) : Nat := Nat.pow 2 n

def tens (n : Nat) : Nat := Nat.pow 10 n

structure Surroundings where
  low : Nat
  mid : Nat
  high : Nat
  den : Nat
  closed : Bool

/-- The surroundings of `significand * 2 ^ exponent`; below a power of two the next number
is only half as far away. -/
def Surroundings.of (significand : Nat) (exponent : Int) (narrowBelow : Bool) : Surroundings :=
  let factor := twos (exponent - 2).toNat
  { low := (4 * significand - if narrowBelow then 1 else 2) * factor
    mid := 4 * significand * factor
    high := (4 * significand + 2) * factor
    den := twos (2 - exponent).toNat
    closed := significand % 2 = 0 }

def Surroundings.magnitude (x : Surroundings) : Int :=
  if x.den ≤ x.mid then (Nat.toDigits 10 (x.mid / x.den)).length - 1
  else -((Nat.toDigits 10 ((x.den + x.mid - 1) / x.mid - 1)).length : Int)

def Surroundings.readsBack (x : Surroundings) (c : Nat) (k : Int) : Bool :=
  let point := c * tens k.toNat * x.den
  let low := x.low * tens (-k).toNat
  let high := x.high * tens (-k).toNat
  if x.closed then low ≤ point && point ≤ high else low < point && point < high

def Surroundings.onGrid (x : Surroundings) (k : Int) : Option Nat :=
  let step := tens k.toNat * x.den
  let mid := x.mid * tens (-k).toNat
  let down := mid / step
  match x.readsBack down k, x.readsBack (down + 1) k with
  | true, true => some (if 2 * mid < (2 * down + 1) * step then down else down + 1)
  | true, false => some down
  | false, true => some (down + 1)
  | false, false => none

def Surroundings.search (x : Surroundings) : Nat → Int → Decimal
  | 0, k => ⟨x.mid * tens (-k).toNat / (tens k.toNat * x.den), k⟩
  | n + 1, k =>
    match x.onGrid k with
    | some c => ⟨c, k⟩
    | none => x.search n (k - 1)

def Surroundings.shortest (x : Surroundings) : Decimal := (x.search 17 x.magnitude).trim 17

end TableParsing.Decimal
