import TableParsing.Proofs.Calculator.Stack
import TableParsing.Proofs.Operators.Parsing

/-! The engine over any of the calculator's tables does as precedence climbing. What climbing has
begun and not completed are the frames on the stack: where it reads an operand, the engine shifts
what the operand begins with; where it completes one, the engine reduces. -/

namespace TableParsing

namespace Calculator

open ShiftReduce

def nextOf : List Word → Nat
  | [] => Symbol.endOfInput
  | w :: _ => w.terminal

theorem nextTerminal_eq {a : Automaton} {ws : List Word} {tokens : List (Token Value)}
    (h : List.Forall₂ Word.StandsFor ws tokens) :
    nextTerminal (engine a).tables tokens = some (nextOf ws) := by
  cases h with
  | nil => rfl
  | @cons w token _ _ hw _ => rw [nextTerminal, nextOf, hw.1, terminal?_word]

theorem Climbs.closes {least : Nat} {left e : Expr} {ws rest : List Word} {fs : List Frame}
    (h : Climbs least (some left) ws e rest) (hrest : Closes fs (nextOf rest)) :
    Closes fs (nextOf ws) := by
  cases h with
  | binary _ _ _ => exact .operator fs _
  | stop _ => exact hrest

theorem Stops.lt {least : Nat} {ws : List Word} (h : Stops least ws) {op : Operator}
    (hop : nextOf ws = op.terminal) : op.rank.priority < least := by
  have hbounds := op.terminal_bounds
  cases ws with
  | nil =>
    have hzero : op.terminal = 0 := hop.symm
    omega
  | cons w ws =>
    have hw : w = .operator op := Word.eq_of_terminal hop (by simp only [Word.terminal]; omega)
    exact h op ws (by rw [hw])

section Climbing

variable {a : Automaton} (hf : a.Faithful .calculator) (hcovers : a.Covers .calculator)
  (env : Environment Value Unit) {c : Config Value Unit}

def leftSymbols : Option Expr → List Symbol
  | none => []
  | some _ => [.nonterminal 1]

def leftValues : Option Expr → List Value
  | none => []
  | some e => [.expr e]

theorem shift_step {γ : List Symbol} {values : List Value} {w : Word} {token : Token Value}
    {tokens : List (Token Value)}
    (h : Holding a (engine a).tables c γ values (token :: tokens)) (hw : w.StandsFor token)
    (haction : ∀ s, stateAfter a.step γ = some s →
      ∃ next, (Table.generate .calculator a).action s w.terminal = .shift next) :
    ∃ event c', (engine a).step env c = .next event c' ∧
      Holding a (engine a).tables c' (.terminal w.terminal :: γ) (w.value :: values) tokens := by
  have hname : (engine a).tables.terminal? token.name = some w.terminal := by
    rw [hw.1, terminal?_word]
  rw [← hw.2]
  exact Holding.shift_with actions env h hname haction

include hf

theorem build_step {f : Form} {γ : List Symbol} (children : List Value) {values : List Value}
    {e : Expr} {ws : List Word} {tokens : List (Token Value)}
    (h : Holding a (engine a).tables c (f.right.reverse ++ γ) (children.reverse ++ values) tokens)
    (hbuilds : Builds f (children.map some) e)
    (hws : List.Forall₂ Word.StandsFor ws tokens)
    (haction : ∀ s, stateAfter a.step (f.right.reverse ++ γ) = some s →
      (Table.generate .calculator a).action s (nextOf ws) = .reduce f.rule) :
    ∃ event c', (engine a).step env c = .next event c' ∧
      Holding a (engine a).tables c' (.nonterminal 1 :: γ) (.expr e :: values) tokens := by
  rw [← f.right_rule] at h haction
  have hlength : children.length = (Grammar.calculator.production f.rule).right.size := by
    rw [← Array.length_toList, f.right_rule, ← hbuilds.length_eq, List.length_map]
  have hstep := Holding.reduce_with actions env wellFormed hf (v := .expr e) children hlength h
    (nextTerminal_eq hws) haction fun context hproduction haliases hvalues =>
      hbuilds.run env.nested hproduction haliases hvalues
  rwa [f.left_rule] at hstep

omit hf in
/-- The engine gets to hold an expression after the frames, with the rest still to be read. -/
def Gets (a : Automaton) (env : Environment Value Unit) (c : Config Value Unit) (fs : List Frame)
    (values : List Value) (e : Expr) (rest : List Word) : Prop :=
  ∃ hist d tokens, Steps (engine a) env c hist d ∧
    Holding a (engine a).tables d (.nonterminal 1 :: spine fs) (.expr e :: values) tokens ∧
    List.Forall₂ Word.StandsFor rest tokens

omit hf in
theorem Gets.after {d : Config Value Unit} {hist : List (Config Value Unit × Move Value Unit)}
    {fs : List Frame} {values : List Value} {e : Expr} {rest : List Word}
    (hsteps : Steps (engine a) env c hist d) (h : Gets a env d fs values e rest) :
    Gets a env c fs values e rest := by
  obtain ⟨hist', d', tokens, hsteps', hd'⟩ := h
  exact ⟨_, d', tokens, hsteps.trans hsteps', hd'⟩

include hcovers

/-- The engine follows the recursion of climbing. -/
theorem Climbs.gets {least : Nat} {left : Option Expr} {ws rest : List Word} {e : Expr}
    (h : Climbs least left ws e rest) {fs : List Frame} {values : List Value}
    {tokens : List (Token Value)} (hfs : leastAfter fs = least)
    (hc : Holding a (engine a).tables c (leftSymbols left ++ spine fs) (leftValues left ++ values)
      tokens) (hws : List.Forall₂ Word.StandsFor ws tokens) (hrest : Closes fs (nextOf rest)) :
    Gets a env c fs values e rest := by
  induction h generalizing fs values tokens c with
  | @number least n ws rest e hclimbs ih =>
    obtain _ | ⟨hn, hws⟩ := hws
    obtain ⟨_, c₁, hshift, h₁⟩ := shift_step env hc hn fun s hs => action_first hf .number rfl hs
    obtain ⟨_, c₂, hbuild, h₂⟩ := build_step hf env (f := .number) [_] h₁ (.number _) hws
      fun s hs => action_read hf hcovers (Or.inl rfl) (hclimbs.closes hrest) hs
    exact .after env ((Steps.single hshift).trans (.single hbuild)) (ih hfs h₂ hws hrest)
  | @paren least ws later rest inner e hinner hclimbs ih ih' =>
    obtain _ | ⟨hopening, hws⟩ := hws
    obtain ⟨_, c₁, hshift, h₁⟩ := shift_step env hc hopening fun s hs =>
      action_first hf .parenthesis rfl hs
    have hread : Gets a env c₁ (.paren :: fs) (Word.opening.value :: values) inner
        (.closing :: later) := ih rfl h₁ hws (.closing fs)
    obtain ⟨_, c₂, tokens, hsteps, h₂, hlater⟩ := hread
    obtain _ | ⟨hclosing, hlater⟩ := hlater
    obtain ⟨_, c₃, hshift', h₃⟩ := shift_step env h₂ hclosing fun s hs => action_closing hf hs
    obtain ⟨_, c₄, hbuild, h₄⟩ := build_step hf env (f := .parenthesis) [_, _, _] h₃
      (.parenthesis inner _ _) hlater fun s hs =>
        action_read hf hcovers (Or.inr rfl) (hclimbs.closes hrest) hs
    exact .after env ((Steps.single hshift).trans (hsteps.trans
      ((Steps.single hshift').trans (.single hbuild)))) (ih' hfs h₄ hlater hrest)
  | @negate least ws later rest inner e hinner hclimbs ih ih' =>
    obtain _ | ⟨hminus, hws⟩ := hws
    obtain ⟨_, c₁, hshift, h₁⟩ := shift_step env hc hminus fun s hs =>
      action_first hf .negation rfl hs
    have hlater : Closes (.negation :: fs) (nextOf later) :=
      .inner (by simp) (hclimbs.closes hrest)
    have hread : Gets a env c₁ (.negation :: fs) ((Word.operator .subtract).value :: values) inner
        later := ih rfl h₁ hws hlater
    obtain ⟨_, c₂, tokens, hsteps, h₂, htokens⟩ := hread
    obtain ⟨_, c₃, hbuild, h₃⟩ := build_step hf env (f := .negation) [_, _] h₂
      (.negation inner _) htokens fun s hs =>
        action_leave hf hcovers rfl hlater (fun op => hinner.stops.lt) hs
    exact .after env ((Steps.single hshift).trans (hsteps.trans (.single hbuild)))
      (ih' hfs h₃ htokens hrest)
  | @binary least op ws later rest l right e hle hright hclimbs ih ih' =>
    obtain _ | ⟨hop, hws⟩ := hws
    obtain ⟨_, c₁, hshift, h₁⟩ := shift_step env hc hop fun s hs =>
      action_extend hf hcovers (hfs.trans_le hle) hs
    have hlater : Closes (.operation op :: fs) (nextOf later) :=
      .inner (by simp) (hclimbs.closes hrest)
    have hread : Gets a env c₁ (.operation op :: fs)
        ((Word.operator op).value :: .expr l :: values) right later := ih rfl h₁ hws hlater
    obtain ⟨_, c₂, tokens, hsteps, h₂, htokens⟩ := hread
    obtain ⟨_, c₃, hbuild, h₃⟩ := build_step hf env (f := .operation op) [_, _, _] h₂
      (.operation op l right _) htokens fun s hs =>
        action_leave hf hcovers rfl hlater (fun op => hright.stops.lt) hs
    exact .after env ((Steps.single hshift).trans (hsteps.trans (.single hbuild)))
      (ih' hfs h₃ htokens hrest)
  | stop => exact ⟨[], c, tokens, .refl c, hc, hws⟩

theorem run_of_group {ws : List Word} {e : Expr} (h : group ws = some e)
    {tokens : List (Token Value)} (hws : List.Forall₂ Word.StandsFor ws tokens) :
    Ends (engine a) env (start (tokens.map .ok) ()) fun r =>
      r.outcome = .ok (some (.expr e)) ∧ r.reported = [] := by
  have hgets : Gets a env (start (tokens.map .ok) ()) [] [] e [] :=
    (group_eq_some_iff.mp h).gets hf hcovers env rfl
      (holding_start (engine a).tables tokens ()) hws .ending
  obtain ⟨hist, d, later, hsteps, hd, hlater⟩ := hgets
  obtain _ | _ := hlater
  obtain ⟨d', hstop, hreported⟩ := Holding.accept_with actions env hd fun s hs =>
    action_ending hf hs
  exact hsteps.ends hstop ⟨rfl, by rw [hreported]; rfl⟩

end Climbing

end Calculator

end TableParsing
