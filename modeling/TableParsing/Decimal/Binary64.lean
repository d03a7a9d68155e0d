import TableParsing.Decimal.Shortest

/-! The text of double precision numbers: positional with the fewest digits that read
back, whole numbers without a point, a sign also for negative zero. -/

namespace TableParsing

structure Binary64 where
  negative : Bool
  exponent : Nat
  fraction : Nat

namespace Binary64

def fractionSize : Nat := Decimal.twos 52

def exponentSize : Nat := Decimal.twos 11

def ofFloat (x : Float) : Binary64 :=
  let bits := x.toBits.toNat
  let upper := bits / fractionSize
  ⟨upper / exponentSize != 0, upper % exponentSize, bits % fractionSize⟩

/-- The magnitude of a finite number other than zero. The least exponent has no leading
digit. -/
def magnitude (x : Binary64) : Decimal :=
  if x.exponent = 0 then (Decimal.Surroundings.of x.fraction (-1074) false).shortest
  else
    (Decimal.Surroundings.of (fractionSize + x.fraction) ((x.exponent : Int) - 1075)
      (x.fraction == 0 && x.exponent > 1)).shortest

def render (x : Binary64) : String :=
  let sign := if x.negative then "-" else ""
  if x.exponent = exponentSize - 1 then if x.fraction = 0 then sign ++ "inf" else "NaN"
  else if x.exponent = 0 ∧ x.fraction = 0 then sign ++ "0"
  else sign ++ x.magnitude.positional

end Binary64

def renderFloat (x : Float) : String := (Binary64.ofFloat x).render

def readFloat (whole fraction : List Char) : Float :=
  let value := (whole ++ fraction).foldl (fun n c => n * 10 + (c.toNat - '0'.toNat)) 0
  Float.ofScientific value true fraction.length

end TableParsing
