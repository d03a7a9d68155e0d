/-! Grammar symbols are addressed by dense indices. Three of them are reserved:
terminal `0` is the end of input, terminal `1` is the recovery token `error`,
and nonterminal `0` is the augmented start symbol, whose only production is
production `0`. -/

namespace TableParsing

inductive Symbol
  | terminal (t : Nat)
  | nonterminal (n : Nat)
  deriving DecidableEq, Hashable, Inhabited

namespace Symbol

def endOfInput : Nat := 0
def errorToken : Nat := 1
def accept : Nat := 0

def acceptName : String := "$accept"
def endName : String := "$end"
def errorName : String := "error"

def terminal? : Symbol → Option Nat
  | terminal t => some t
  | nonterminal _ => none

def nonterminal? : Symbol → Option Nat
  | terminal _ => none
  | nonterminal n => some n

end Symbol

def paddedIndex (n : Nat) : String :=
  let digits := Nat.toDigits 10 n
  String.ofList (List.replicate (3 - digits.length) '0' ++ digits)

def terminalLabel (t : Nat) : String :=
  if t = Symbol.endOfInput then "T#End"
  else if t = Symbol.errorToken then "T#Error"
  else "T#" ++ paddedIndex t

def nonterminalLabel (n : Nat) : String :=
  if n = Symbol.accept then "N#Accept" else "N#" ++ paddedIndex n

def productionLabel (p : Nat) : String :=
  if p = 0 then "P#Accept" else "P#" ++ paddedIndex p

def stateLabel (s : Nat) : String := "S#" ++ paddedIndex s

def Symbol.label : Symbol → String
  | .terminal t => terminalLabel t
  | .nonterminal n => nonterminalLabel n

end TableParsing
