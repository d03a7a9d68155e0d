import TableParsing.Decimal.Binary64

/-! Arithmetic expressions. A stretch of input that was passed over after an error is an
expression without a value. -/

namespace TableParsing.Calculator

inductive Operator
  | add
  | subtract
  | multiply
  | divide
  | power
  deriving DecidableEq

def Operator.name : Operator → String
  | add => "+"
  | subtract => "-"
  | multiply => "*"
  | divide => "/"
  | power => "^"

def Operator.apply : Operator → Float → Float → Float
  | add, a, b => a + b
  | subtract, a, b => a - b
  | multiply, a, b => a * b
  | divide, a, b => a / b
  | power, a, b => a.pow b

inductive Expr
  | binary (op : Operator) (a b : Expr)
  | negate (e : Expr)
  | paren (e : Expr)
  | number (x : Float)
  | error

namespace Expr

def eval : Expr → Option Float
  | binary op a b =>
    match a.eval, b.eval with
    | some x, some y => some (op.apply x y)
    | _, _ => none
  | negate e => e.eval.map fun x => -x
  | paren e => e.eval
  | number x => some x
  | error => none

/-- Operators stand before their operands, and parentheses only where operators do. -/
def render : Expr → String
  | binary op a b => "(" ++ op.name ++ " " ++ a.render ++ " " ++ b.render ++ ")"
  | negate e => "(neg " ++ e.render ++ ")"
  | paren e => e.render
  | number x => renderFloat x
  | error => "<error>"

end Expr

inductive Value
  | token (text : String)
  | expr (e : Expr)

def Value.expr? : Value → Option Expr
  | token _ => none
  | expr e => some e

end TableParsing.Calculator
