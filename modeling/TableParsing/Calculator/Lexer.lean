import TableParsing.Calculator.Expr
import TableParsing.Source

/-! The tokens of arithmetic: operators, parentheses, and numbers with an optional
fraction. Any other character than a blank is an error of its own. A text is first cut
into lexemes, each at its offset; lines and columns are then found from the offsets at
which lines begin. Offsets and columns count bytes. -/

namespace TableParsing.Calculator

def isBlank (c : Char) : Bool :=
  c = ' ' || c = '\t' || c = '\r' || c = '\n' || c = '\x0c'

def isDigit (c : Char) : Bool := '0' ≤ c && c ≤ '9'

def byteCount : List Char → Nat
  | [] => 0
  | c :: cs => c.utf8Size + byteCount cs

structure Numeral where
  whole : List Char
  fraction : List Char
  deriving DecidableEq

def Numeral.text (n : Numeral) : List Char :=
  if n.fraction.isEmpty then n.whole else n.whole ++ '.' :: n.fraction

inductive Word
  | opening
  | closing
  | operator (op : Operator)
  | number (n : Numeral)
  deriving DecidableEq

namespace Word

def name : Word → String
  | opening => "("
  | closing => ")"
  | operator op => op.name
  | number _ => "NUM"

def text : Word → List Char
  | number n => n.text
  | w => w.name.toList

def value : Word → Value
  | number n => .expr (.number (readFloat n.whole n.fraction))
  | w => .token w.name

def ofChar? : Char → Option Word
  | '(' => some opening
  | ')' => some closing
  | '+' => some (operator .add)
  | '-' => some (operator .subtract)
  | '*' => some (operator .multiply)
  | '/' => some (operator .divide)
  | '^' => some (operator .power)
  | _ => none

end Word

/-- The longest number that begins with a given digit, and the rest after it. -/
def numeral (digit : Char) (cs : List Char) : Numeral × List Char :=
  let whole := digit :: cs.takeWhile isDigit
  match cs.dropWhile isDigit with
  | '.' :: rest =>
    match rest.takeWhile isDigit with
    | [] => (⟨whole, []⟩, '.' :: rest)
    | fraction => (⟨whole, fraction⟩, rest.dropWhile isDigit)
  | rest => (⟨whole, []⟩, rest)

theorem length_numeral_le (digit : Char) (cs : List Char) :
    (numeral digit cs).2.length ≤ cs.length := by
  have dropped := (List.dropWhile_sublist isDigit (l := cs)).length_le
  unfold numeral
  split
  case h_1 rest h =>
    rw [h] at dropped
    split
    · exact dropped
    · have fraction := (List.dropWhile_sublist isDigit (l := rest)).length_le
      exact Nat.le_trans fraction (Nat.le_trans (Nat.le_succ _) dropped)
  case h_2 => exact dropped

inductive Lexeme
  | word (w : Word)
  | unknown (c : Char)

namespace Lexeme

def text : Lexeme → List Char
  | word w => w.text
  | unknown c => [c]

def ofChar (c : Char) : Lexeme :=
  match Word.ofChar? c with
  | some w => word w
  | none => unknown c

end Lexeme

def lexemes (offset : Nat) : List Char → List (Nat × Lexeme)
  | [] => []
  | c :: rest =>
    if isBlank c then lexemes (offset + c.utf8Size) rest
    else if isDigit c then
      let read := numeral c rest
      (offset, .word (.number read.1)) :: lexemes (offset + byteCount read.1.text) read.2
    else (offset, .ofChar c) :: lexemes (offset + c.utf8Size) rest
termination_by cs => cs.length
decreasing_by
  · simp
  · exact Nat.lt_succ_of_le (length_numeral_le c rest)
  · simp

def breaks (offset : Nat) : List Char → List Nat
  | [] => []
  | c :: rest =>
    let next := offset + c.utf8Size
    if c = '\n' then next :: breaks next rest else breaks next rest

def lineStarts (cs : List Char) : List Nat := 0 :: breaks 0 cs

/-- The number of lines that begin at or before an offset, and the distance from the
beginning of the last of them. -/
def position (starts : List Nat) (offset : Nat) : Nat × Nat :=
  let line := (starts.takeWhile (· ≤ offset)).length
  (line, offset - starts.getD (line - 1) 0)

def Lexeme.read (starts : List Nat) (offset : Nat) (l : Lexeme) :
    Except LexError (Token Value) :=
  let (line, column) := position starts offset
  match l with
  | word w =>
    let (lastLine, lastColumn) := position starts (offset + byteCount w.text)
    .ok ⟨w.name, String.ofList w.text, w.value, ⟨line, column, lastLine, lastColumn⟩⟩
  | unknown c => .error ⟨"unrecognized text", line, String.singleton c⟩

def tokens (text : String) : Source Value :=
  let cs := text.toList
  let starts := lineStarts cs
  (lexemes 0 cs).map fun (offset, l) => l.read starts offset

end TableParsing.Calculator
