import TableParsing.Automaton.Method
import TableParsing.Calculator.Lexer
import TableParsing.Engine.ShiftReduce
import TableParsing.Grammar.Completion

/-! A calculator: the grammar of arithmetic with precedences, and its semantic actions. -/

namespace TableParsing

namespace Calculator

def operators : List Operator := [.add, .subtract, .multiply, .divide, .power]

/-- Addition and subtraction bind loosest, then multiplication and division, then negation;
powers bind tightest, to the right. -/
def declarations : List Declaration :=
  [.tokens ["(", ")", "+", "-", "*", "/", "^", "NUM"],
   .precedence .left ["+", "-"],
   .precedence .left ["*", "/"],
   .precedence .right ["NEG"],
   .precedence .right ["^"],
   .start "expr"] ++
  operators.map (fun op => .rule "expr" ["expr[lhs]", op.name, "expr[rhs]"] none) ++
  [.rule "expr" ["-", "expr"] (some "NEG"),
   .rule "expr" ["(", "expr", ")"] none,
   .rule "expr" ["NUM"] none,
   .rule "expr" ["error"] none]

def arithmetic : Except GrammarError Grammar :=
  (define false (declarations.map ([·])) .empty).2

abbrev CalculatorContext := Context Value Unit

def takeExpr (name : String) (c : CalculatorContext) : Option Expr × CalculatorContext :=
  let (v, c) := c.takeNamed name
  (v.bind Value.expr?, c)

def binaryAction (op : Operator) : SemanticAction Value Unit := fun _ c =>
  let (a, c) := takeExpr "lhs" c
  let (b, c) := takeExpr "rhs" c
  match a, b with
  | some a, some b => (.value (.expr (.binary op a b)), c)
  | _, _ => (.abort, c)

def unaryAction (build : Expr → Expr) : SemanticAction Value Unit := fun _ c =>
  match takeExpr "expr" c with
  | (some e, c) => (.value (.expr (build e)), c)
  | (none, c) => (.abort, c)

def actions : Actions Value Unit :=
  #[none] ++ (operators.map fun op => some (binaryAction op)).toArray ++
  #[some (unaryAction .negate), some (unaryAction .paren), none,
    some fun _ c => (.value (.expr .error), c)]

structure Parsed where
  expr : Expr
  errors : List SyntaxError

inductive Failure
  | parse (e : ParseError)
  | emptyResult
  | unexpectedItem

def Failure.message : Failure → String
  | parse e => e.message
  | emptyResult => "empty parse result"
  | unexpectedItem => "unexpected stack item"

inductive SetupError
  | grammar (e : GrammarError)
  | automaton (e : TooManyStates)

def SetupError.message : SetupError → String
  | grammar e => e.message
  | automaton e => e.message

end Calculator

structure Calculator where
  grammar : Grammar
  table : Table

namespace Calculator

def build (method : Method) : Except SetupError Calculator :=
  match arithmetic with
  | .error e => .error (.grammar e)
  | .ok g =>
    match method.automaton g with
    | .error e => .error (.automaton e)
    | .ok a => .ok ⟨g, Table.generate g a⟩

def parser (c : Calculator) : ShiftReduce.Parser Value Unit := ⟨.ofTable c.table, actions⟩

/-- Parses a text in at most `fuel` steps. No action asks for a nested parse. -/
def parse (c : Calculator) (fuel : Nat) (text : String) : Except Failure Parsed :=
  let result := c.parser.parse fuel 0 (fun _ _ => none) (tokens text) ()
  match result.outcome with
  | .error e => .error (.parse e)
  | .ok none => .error .emptyResult
  | .ok (some v) =>
    match v.expr? with
    | some e => .ok ⟨e, result.reported⟩
    | none => .error .unexpectedItem

end Calculator

end TableParsing
