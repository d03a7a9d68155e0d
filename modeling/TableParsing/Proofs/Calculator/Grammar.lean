import TableParsing.Calculator
import TableParsing.Proofs.Automaton.Method
import TableParsing.Proofs.Grammar.WellFormed

/-! The grammar of arithmetic as the calculator's declarations define it. It has one nonterminal
for expressions, a production for every operator, and productions for a negation, for parentheses,
for a number and for a stretch that an error was recovered from. Every method builds an automaton
for it. -/

namespace TableParsing

namespace Calculator

def Operator.terminal : Operator → Nat
  | add => 4
  | subtract => 5
  | multiply => 6
  | divide => 7
  | power => 8

def Operator.rule : Operator → Nat
  | add => 1
  | subtract => 2
  | multiply => 3
  | divide => 4
  | power => 5

def Operator.rank : Operator → Precedence
  | add => ⟨1, .left⟩
  | subtract => ⟨1, .left⟩
  | multiply => ⟨2, .left⟩
  | divide => ⟨2, .left⟩
  | power => ⟨4, .right⟩

def negationRank : Precedence := ⟨3, .right⟩

def Word.terminal : Word → Nat
  | opening => 2
  | closing => 3
  | operator op => op.terminal
  | number _ => 9

def operation (op : Operator) : Production :=
  ⟨1, #[.nonterminal 1, .terminal op.terminal, .nonterminal 1], none,
    [⟨"lhs", 1⟩, ⟨"lhs1", 1⟩, ⟨op.name, 2⟩, ⟨Definition.numbered op.name 1, 2⟩, ⟨"rhs", 3⟩,
      ⟨"rhs1", 3⟩]⟩

def productions : Array Production :=
  (operators.map operation).toArray ++
  #[⟨1, #[.terminal 5, .nonterminal 1], some negationRank,
      [⟨"-", 1⟩, ⟨"-1", 1⟩, ⟨"expr", 2⟩, ⟨"expr1", 2⟩]⟩,
    ⟨1, #[.terminal 2, .nonterminal 1, .terminal 3], none,
      [⟨"(", 1⟩, ⟨"(1", 1⟩, ⟨"expr", 2⟩, ⟨"expr1", 2⟩, ⟨")", 3⟩, ⟨")1", 3⟩]⟩,
    ⟨1, #[.terminal 9], none, [⟨"NUM", 1⟩, ⟨"NUM1", 1⟩]⟩,
    ⟨1, #[.terminal 1], none, [⟨"error", 1⟩, ⟨"error1", 1⟩]⟩]

end Calculator

def Grammar.calculator : Grammar :=
  .ofProductions
    (#[⟨"$end", none⟩, ⟨"error", none⟩, ⟨"(", none⟩, ⟨")", none⟩] ++
      (Calculator.operators.map fun op => ⟨op.name, some op.rank⟩).toArray ++ #[⟨"NUM", none⟩])
    #["$accept", "expr"] (#[Definition.acceptProduction 1] ++ Calculator.productions) 1

namespace Definition

open Calculator

def calculator : Definition where
  tokens := .ofList ["(", ")", "+", "-", "*", "/", "^", "NUM"]
  precedences := [("^", ⟨4, .right⟩), ("NEG", negationRank), ("/", ⟨2, .left⟩), ("*", ⟨2, .left⟩),
    ("-", ⟨1, .left⟩), ("+", ⟨1, .left⟩)]
  levels := 4
  rules := (operators.map fun op =>
      ⟨"expr", [⟨"expr", some "lhs"⟩, ⟨op.name, none⟩, ⟨"expr", some "rhs"⟩], none⟩).toArray ++
    #[⟨"expr", [⟨"-", none⟩, ⟨"expr", none⟩], some "NEG"⟩,
      ⟨"expr", [⟨"(", none⟩, ⟨"expr", none⟩, ⟨")", none⟩], none⟩,
      ⟨"expr", [⟨"NUM", none⟩], none⟩, ⟨"expr", [⟨"error", none⟩], none⟩]
  start := some "expr"

theorem arithmetic_eq : arithmetic = calculator.complete := by
  simp [arithmetic, declarations, operators, Operator.name, define, Declaration.applyAll,
    Declaration.apply, declareTokens, addToken, declarePrecedence, assignPrecedence, declareRule,
    checkRule, isReserved, SymbolUse.parse, Rule.rightNames, empty, calculator, Symbol.acceptName,
    Symbol.endName, Symbol.errorName, maxIndex, Except.map, Numbering.ofList, negationRank]

theorem keys_tokens_calculator :
    calculator.tokens.keys = #["(", ")", "+", "-", "*", "/", "^", "NUM"] := by
  simp [calculator, Numbering.ofList, Numbering.keys_insert, Numbering.empty]

theorem complete_calculator : calculator.complete = .ok Grammar.calculator := by
  refine complete_eq_ok ?_
  rw [keys_tokens_calculator]
  -- the numbering of the tokens is not looked at again, and does not evaluate
  change { calculator with tokens := .empty }.parts _ = _
  dsimp only [calculator]
  cbv

end Definition

theorem Grammar.calculator_defined : Grammar.calculator.Defined :=
  ⟨false, _, Definition.arithmetic_eq.trans Definition.complete_calculator⟩

/-- Operators are read after every expression, and after them, as everywhere where an expression is
needed, what it can begin with. -/
def LR0.calculator : Collection :=
  let operand (n : Nat) : List (Symbol × Nat) :=
    [(.nonterminal 1, n), (.terminal 5, 2), (.terminal 2, 3), (.terminal 9, 4), (.terminal 1, 5)]
  let operator : List (Symbol × Nat) :=
    [(.terminal 4, 6), (.terminal 5, 7), (.terminal 6, 8), (.terminal 7, 9), (.terminal 8, 10)]
  #[⟨[⟨0, 0⟩], operand 1, [], false⟩,
    ⟨[⟨0, 1⟩, ⟨1, 1⟩, ⟨2, 1⟩, ⟨3, 1⟩, ⟨4, 1⟩, ⟨5, 1⟩], operator, [], true⟩,
    ⟨[⟨6, 1⟩], operand 11, [], false⟩,
    ⟨[⟨7, 1⟩], operand 12, [], false⟩,
    ⟨[⟨8, 1⟩], [], [8], false⟩,
    ⟨[⟨9, 1⟩], [], [9], false⟩,
    ⟨[⟨1, 2⟩], operand 13, [], false⟩,
    ⟨[⟨2, 2⟩], operand 14, [], false⟩,
    ⟨[⟨3, 2⟩], operand 15, [], false⟩,
    ⟨[⟨4, 2⟩], operand 16, [], false⟩,
    ⟨[⟨5, 2⟩], operand 17, [], false⟩,
    ⟨[⟨1, 1⟩, ⟨2, 1⟩, ⟨3, 1⟩, ⟨4, 1⟩, ⟨5, 1⟩, ⟨6, 2⟩], operator, [6], false⟩,
    ⟨[⟨1, 1⟩, ⟨2, 1⟩, ⟨3, 1⟩, ⟨4, 1⟩, ⟨5, 1⟩, ⟨7, 2⟩], operator ++ [(.terminal 3, 18)], [], false⟩,
    ⟨[⟨1, 1⟩, ⟨1, 3⟩, ⟨2, 1⟩, ⟨3, 1⟩, ⟨4, 1⟩, ⟨5, 1⟩], operator, [1], false⟩,
    ⟨[⟨1, 1⟩, ⟨2, 1⟩, ⟨2, 3⟩, ⟨3, 1⟩, ⟨4, 1⟩, ⟨5, 1⟩], operator, [2], false⟩,
    ⟨[⟨1, 1⟩, ⟨2, 1⟩, ⟨3, 1⟩, ⟨3, 3⟩, ⟨4, 1⟩, ⟨5, 1⟩], operator, [3], false⟩,
    ⟨[⟨1, 1⟩, ⟨2, 1⟩, ⟨3, 1⟩, ⟨4, 1⟩, ⟨4, 3⟩, ⟨5, 1⟩], operator, [4], false⟩,
    ⟨[⟨1, 1⟩, ⟨2, 1⟩, ⟨3, 1⟩, ⟨4, 1⟩, ⟨5, 1⟩, ⟨5, 3⟩], operator, [5], false⟩,
    ⟨[⟨7, 3⟩], [], [7], false⟩]

theorem LR0.build_calculator : build .calculator = .ok calculator := by
  simp only [build, Exploration.explore_eq]
  cbv

set_option maxRecDepth 2000 in
theorem Canonical.build_calculator : (Canonical.build .calculator).isOk = true := by
  simp only [build, Exploration.explore_eq]
  cbv

def Automaton.calculator : Automaton :=
  .ofLR0 LR0.calculator fun _ _ => .below Grammar.calculator.terminals.size

theorem Method.lr0_calculator : lr0.automaton .calculator = .ok .calculator := by
  rw [automaton, LR0.build_calculator]
  rfl

theorem exists_of_isOk {ε α : Type} {x : Except ε α} (h : x.isOk = true) : ∃ a, x = .ok a := by
  cases x with
  | error e => cases h
  | ok a => exact ⟨a, rfl⟩

theorem Method.exists_calculator (m : Method) : ∃ a, m.automaton .calculator = .ok a := by
  obtain ⟨a, ha⟩ := exists_of_isOk Canonical.build_calculator
  cases m with
  | lr0 => exact ⟨_, lr0_calculator⟩
  | slr => exact ⟨_, by rw [automaton, LR0.build_calculator]; rfl⟩
  | lalr => exact ⟨_, by rw [automaton, LR0.build_calculator]; rfl⟩
  | lr1 => exact ⟨a, ha⟩
  | merged => exact ⟨_, by rw [automaton, ha]; rfl⟩

namespace Calculator

theorem build_of_automaton {m : Method} {a : Automaton} (ha : m.automaton .calculator = .ok a) :
    build m = .ok ⟨.calculator, .generate .calculator a⟩ := by
  rw [build, Definition.arithmetic_eq, Definition.complete_calculator]
  simp only [ha]

theorem exists_build (m : Method) : ∃ a, build m = .ok ⟨.calculator, .generate .calculator a⟩ ∧
    a.Faithful .calculator ∧ a.Covers .calculator := by
  obtain ⟨a, ha⟩ := m.exists_calculator
  exact ⟨a, build_of_automaton ha, Method.automaton_spec Grammar.calculator_defined.wellFormed ha⟩

theorem terminalName_word (w : Word) : Grammar.calculator.terminalName w.terminal = w.name := by
  cases w with
  | operator op => cases op <;> rfl
  | _ => rfl

theorem word_lt (w : Word) : w.terminal < Grammar.calculator.terminals.size := by
  have hsize : Grammar.calculator.terminals.size = 10 := rfl
  cases w with
  | operator op => cases op <;> decide
  | _ => simp [hsize, Word.terminal]

theorem terminalPrecedence_operator (op : Operator) :
    Grammar.calculator.terminalPrecedence op.terminal = some op.rank := by
  cases op <;> rfl

theorem Operator.terminal_injective {op op' : Operator} (h : op.terminal = op'.terminal) :
    op = op' := by
  revert h
  cases op <;> cases op' <;> decide

theorem Operator.terminal_bounds (op : Operator) : 4 ≤ op.terminal ∧ op.terminal ≤ 8 := by
  cases op <;> decide

inductive Form
  | operation (op : Operator)
  | negation
  | parenthesis
  | number
  | failure

namespace Form

def rule : Form → Nat
  | operation op => op.rule
  | negation => 6
  | parenthesis => 7
  | number => 8
  | failure => 9

def right : Form → List Symbol
  | operation op => [.nonterminal 1, .terminal op.terminal, .nonterminal 1]
  | negation => [.terminal 5, .nonterminal 1]
  | parenthesis => [.terminal 2, .nonterminal 1, .terminal 3]
  | number => [.terminal 9]
  | failure => [.terminal Symbol.errorToken]

theorem left_rule (f : Form) : (Grammar.calculator.production f.rule).left = 1 := by
  cases f with
  | operation op => cases op <;> rfl
  | _ => rfl

theorem right_rule (f : Form) :
    (Grammar.calculator.production f.rule).right.toList = f.right := by
  cases f with
  | operation op => cases op <;> rfl
  | _ => rfl

theorem rule_lt (f : Form) : f.rule < Grammar.calculator.productions.size := by
  cases f with
  | operation op => cases op <;> decide
  | _ => decide

theorem rule_ne_zero (f : Form) : f.rule ≠ 0 := by
  cases f with
  | operation op => cases op <;> decide
  | _ => decide

theorem exists_rule {p : Nat} (hp : p ≠ 0) (hlt : p < Grammar.calculator.productions.size) :
    ∃ f : Form, f.rule = p := by
  have hlt : p < 10 := hlt
  match p, hp, hlt with
  | 1, _, _ => exact ⟨.operation .add, rfl⟩
  | 2, _, _ => exact ⟨.operation .subtract, rfl⟩
  | 3, _, _ => exact ⟨.operation .multiply, rfl⟩
  | 4, _, _ => exact ⟨.operation .divide, rfl⟩
  | 5, _, _ => exact ⟨.operation .power, rfl⟩
  | 6, _, _ => exact ⟨.negation, rfl⟩
  | 7, _, _ => exact ⟨.parenthesis, rfl⟩
  | 8, _, _ => exact ⟨.number, rfl⟩
  | 9, _, _ => exact ⟨.failure, rfl⟩

theorem mem_productionsOf (f : Form) : f.rule ∈ Grammar.calculator.productionsOf 1 :=
  Grammar.mem_productionsOf.mpr ⟨f.rule_lt, f.left_rule⟩

end Form

end Calculator

end TableParsing
