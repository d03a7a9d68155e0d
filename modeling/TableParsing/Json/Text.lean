import TableParsing.Json

/-! JSON string literals. A quote, a backslash and the control characters are
escaped; everything else stands for itself. -/

namespace TableParsing.Json

def hexDigit (n : Nat) : Char := (Nat.toDigits 16 n).headD '0'

def hexValue? (c : Char) : Option Nat :=
  if '0' ≤ c ∧ c ≤ '9' then some (c.toNat - '0'.toNat)
  else if 'a' ≤ c ∧ c ≤ 'f' then some (c.toNat - 'a'.toNat + 10)
  else if 'A' ≤ c ∧ c ≤ 'F' then some (c.toNat - 'A'.toNat + 10)
  else none

def hexValues? (a b c d : Char) : Option Nat := do
  return ((← hexValue? a) * 16 + (← hexValue? b)) * 256 + ((← hexValue? c) * 16 + (← hexValue? d))

def escapeChar (c : Char) : List Char :=
  if c = '"' then ['\\', '"']
  else if c = '\\' then ['\\', '\\']
  else if c = '\n' then ['\\', 'n']
  else if c = '\r' then ['\\', 'r']
  else if c = '\t' then ['\\', 't']
  else if c = '\x08' then ['\\', 'b']
  else if c = '\x0c' then ['\\', 'f']
  else if c.toNat < 0x20 then
    ['\\', 'u', '0', '0', hexDigit (c.toNat / 16), hexDigit (c.toNat % 16)]
  else [c]

def quote (t : List Char) : List Char := '"' :: t.flatMap escapeChar ++ ['"']

/-- A piece of a string literal: a character, or a 16-bit unit written as `\u`. -/
inductive Piece
  | char (c : Char)
  | unit (n : Nat)

def simpleEscape? (c : Char) : Option Char :=
  if c = '"' then some '"'
  else if c = '\\' then some '\\'
  else if c = '/' then some '/'
  else if c = 'b' then some '\x08'
  else if c = 'f' then some '\x0c'
  else if c = 'n' then some '\n'
  else if c = 'r' then some '\r'
  else if c = 't' then some '\t'
  else none

def pieces : List Char → List Piece → Option (List Piece × List Char)
  | [], _ => none
  | '"' :: rest, read => some (read.reverse, rest)
  | '\\' :: 'u' :: a :: b :: c :: d :: rest, read =>
    match hexValues? a b c d with
    | some n => pieces rest (.unit n :: read)
    | none => none
  | '\\' :: c :: rest, read =>
    match simpleEscape? c with
    | some e => pieces rest (.char e :: read)
    | none => none
  | c :: rest, read => if c.toNat < 0x20 ∨ c = '\\' then none else pieces rest (.char c :: read)

def isLead (n : Nat) : Bool := 0xD800 ≤ n && n < 0xDC00

def isTrail (n : Nat) : Bool := 0xDC00 ≤ n && n < 0xE000

/-- The text that pieces spell, unless a surrogate stands alone. -/
def spell : List Piece → List Char → Option (List Char)
  | [], read => some read.reverse
  | .char c :: rest, read => spell rest (c :: read)
  | .unit n :: .unit m :: rest, read =>
    if isLead n && isTrail m then
      spell rest (Char.ofNat (0x10000 + (n - 0xD800) * 0x400 + (m - 0xDC00)) :: read)
    else if isLead n || isTrail n then none
    else spell (.unit m :: rest) (Char.ofNat n :: read)
  | .unit n :: rest, read =>
    if isLead n || isTrail n then none else spell rest (Char.ofNat n :: read)

def literal? (cs : List Char) : Option (Option String × List Char) :=
  (pieces cs []).map fun (read, rest) => ((spell read []).map String.ofList, rest)

end TableParsing.Json
