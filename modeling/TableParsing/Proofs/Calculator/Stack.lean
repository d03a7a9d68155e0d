import TableParsing.Proofs.Calculator.Cells
import TableParsing.Proofs.Engine.FatalError
import TableParsing.Proofs.Engine.Termination

/-! What stands on the stack of the calculator. A token carries its word, the recovery token
nothing, and an expression a tree that spells the words read for it, unless an error was recovered
from within it: then it has no value. So every action finds the expressions that it takes, a run
accepts with an expression, and the expression has a value exactly if nothing was reported. -/

namespace TableParsing

namespace Calculator

open ShiftReduce

inductive Builds : Form → List (Option Value) → Expr → Prop
  | operation (op : Operator) (a b : Expr) (v : Option Value) :
      Builds (.operation op) [some (.expr a), v, some (.expr b)] (.binary op a b)
  | negation (e : Expr) (v : Option Value) : Builds .negation [v, some (.expr e)] (.negate e)
  | parenthesis (e : Expr) (v v' : Option Value) :
      Builds .parenthesis [v, some (.expr e), v'] (.paren e)
  | number (e : Expr) : Builds .number [some (.expr e)] e
  | failure (v : Option Value) : Builds .failure [v] .error

theorem Builds.run {f : Form} {values : List (Option Value)} {e : Expr} (h : Builds f values e)
    (nested : Nested Value Unit) {c : CalculatorContext} (hproduction : c.production = f.rule)
    (haliases : c.aliases = (Grammar.calculator.production f.rule).aliases)
    (hvalues : c.handle.map (·.value) = values) :
    ∃ after, actions.run nested c = (.value (some (.expr e)), after) := by
  obtain ⟨production, handle, below, aliases, location, params⟩ := c
  cases hproduction
  cases haliases
  cases h with
  | operation op a b v =>
    match handle, hvalues with
    | [⟨_, _⟩, ⟨_, _⟩, ⟨_, _⟩], hvalues =>
      cases hvalues
      cases op <;> exact ⟨_, rfl⟩
  | negation e v =>
    match handle, hvalues with
    | [⟨_, _⟩, ⟨_, _⟩], hvalues =>
      cases hvalues
      exact ⟨_, rfl⟩
  | parenthesis e v v' =>
    match handle, hvalues with
    | [⟨_, _⟩, ⟨_, _⟩, ⟨_, _⟩], hvalues =>
      cases hvalues
      exact ⟨_, rfl⟩
  | number e =>
    match handle, hvalues with
    | [⟨_, _⟩], hvalues =>
      cases hvalues
      exact ⟨_, rfl⟩
  | failure v => exact ⟨_, rfl⟩

theorem Builds.length_eq {f : Form} {values : List (Option Value)} {e : Expr}
    (h : Builds f values e) : values.length = f.right.length := by
  cases h <;> rfl

theorem Spells.isSome_eval {e : Expr} {ws : List Word} (h : Spells e ws) :
    e.eval.isSome = true := by
  induction h with
  | number n => rfl
  | paren _ ih => exact ih
  | negate _ ih => rwa [Expr.eval, Option.isSome_map]
  | binary op _ _ ih ih' =>
    obtain ⟨x, hx⟩ := Option.isSome_iff_exists.mp ih
    obtain ⟨y, hy⟩ := Option.isSome_iff_exists.mp ih'
    rw [Expr.eval, hx, hy]
    rfl

/-- The value of a symbol on the stack, and the words read for it, if no error was recovered from
among them. -/
inductive Carries : Symbol → Option Value → Option (List Word) → Prop
  | word (w : Word) : Carries (.terminal w.terminal) (some w.value) (some [w])
  | error : Carries (.terminal Symbol.errorToken) none none
  | spelled {e : Expr} {ws : List Word} : Spells e ws →
      Carries (.nonterminal 1) (some (.expr e)) (some ws)
  | flawed {e : Expr} : e.eval = none → Carries (.nonterminal 1) (some (.expr e)) none

abbrev joined (r r' : Option (List Word)) : Option (List Word) := Option.map₂ (· ++ ·) r r'

@[simp] theorem nil_joined (r : Option (List Word)) : joined (some []) r = r := by
  cases r <;> rfl

theorem joined_assoc (r r' r'' : Option (List Word)) :
    joined (joined r r') r'' = joined r (joined r' r'') :=
  Option.map₂_assoc List.append_assoc

inductive Carried : List Symbol → List (Entry Value) → Option (List Word) → Prop
  | base (location : Location) : Carried [] [⟨none, location⟩] (some [])
  | push {γ : List Symbol} {entries : List (Entry Value)} {x : Symbol} {entry : Entry Value}
      {r r' : Option (List Word)} : Carried γ entries r → Carries x entry.value r' →
      Carried (x :: γ) (entry :: entries) (joined r r')

theorem Carried.drop {γ : List Symbol} {entries : List (Entry Value)} {r : Option (List Word)}
    (h : Carried γ entries r) {k : Nat} (hk : k ≤ γ.length) :
    ∃ r', Carried (γ.drop k) (entries.drop k) r' := by
  induction h generalizing k with
  | base location =>
    obtain rfl := Nat.le_zero.mp hk
    exact ⟨_, .base location⟩
  | push h hx ih =>
    cases k with
    | zero => exact ⟨_, .push h hx⟩
    | succ k => exact ih (Nat.le_of_succ_le_succ hk)

theorem Word.eq_of_terminal {w w' : Word} (h : w'.terminal = w.terminal) (hw : w.terminal ≠ 9) :
    w' = w := by
  have hbounds := Operator.terminal_bounds
  cases w <;> cases w' <;> grind [Word.terminal, Operator.terminal_injective]

theorem Word.exists_number {w : Word} (h : w.terminal = 9) : ∃ n, w = .number n := by
  have hbounds := Operator.terminal_bounds
  cases w <;> grind [Word.terminal]

theorem Word.terminal_ne_reserved (w : Word) :
    w.terminal ≠ Symbol.endOfInput ∧ w.terminal ≠ Symbol.errorToken := by
  have hbounds := Operator.terminal_bounds
  cases w <;> grind [Word.terminal, Symbol.endOfInput, Symbol.errorToken]

namespace Carries

variable {v v' : Option Value} {r r' r'' : Option (List Word)}

theorem exists_word {t : Nat} (h : Carries (.terminal t) v r) (ht : t ≠ Symbol.errorToken) :
    ∃ w : Word, w.terminal = t ∧ v = some w.value ∧ r = some [w] := by
  cases h with
  | word w => exact ⟨w, rfl, rfl, rfl⟩
  | error => exact absurd rfl ht

theorem eq_word {w : Word} (h : Carries (.terminal w.terminal) v r) (hw : w.terminal ≠ 9) :
    r = some [w] := by
  obtain ⟨w', hw', -, rfl⟩ := h.exists_word w.terminal_ne_reserved.2
  rw [Word.eq_of_terminal hw' hw]

theorem eq_none (h : Carries (.terminal Symbol.errorToken) v r) : r = none := by
  generalize hx : Symbol.terminal Symbol.errorToken = x at h
  cases h with
  | word w => exact absurd (Symbol.terminal.inj hx).symm w.terminal_ne_reserved.2
  | error => rfl
  | spelled => cases hx
  | flawed => cases hx

theorem exists_expr (h : Carries (.nonterminal 1) v r) : ∃ e, v = some (.expr e) := by
  cases h with
  | spelled => exact ⟨_, rfl⟩
  | flawed => exact ⟨_, rfl⟩

theorem binary {a b : Expr} {op : Operator} (ha : Carries (.nonterminal 1) (some (.expr a)) r)
    (hop : Carries (.terminal op.terminal) v r')
    (hb : Carries (.nonterminal 1) (some (.expr b)) r'') :
    Carries (.nonterminal 1) (some (.expr (.binary op a b))) (joined r (joined r' r'')) := by
  have hne : op.terminal ≠ 9 := by
    have hbounds := op.terminal_bounds
    omega
  obtain rfl := eq_word (w := .operator op) hop hne
  cases ha with
  | flawed ha =>
    apply flawed
    rw [Expr.eval, ha]
  | spelled ha =>
    cases hb with
    | flawed hb =>
      apply flawed
      rw [Expr.eval, hb]
      cases a.eval <;> rfl
    | spelled hb => exact spelled (.binary op ha hb)

theorem negate {e : Expr} (hop : Carries (.terminal 5) v r)
    (he : Carries (.nonterminal 1) (some (.expr e)) r') :
    Carries (.nonterminal 1) (some (.expr (.negate e))) (joined r r') := by
  obtain rfl := eq_word (w := .operator .subtract) hop (by decide)
  cases he with
  | flawed he =>
    apply flawed
    rw [Expr.eval, he]
    rfl
  | spelled he => exact spelled (.negate he)

theorem paren {e : Expr} (hopening : Carries (.terminal 2) v r)
    (he : Carries (.nonterminal 1) (some (.expr e)) r') (hclosing : Carries (.terminal 3) v' r'') :
    Carries (.nonterminal 1) (some (.expr (.paren e))) (joined r (joined r' r'')) := by
  obtain rfl := eq_word (w := .opening) hopening (by decide)
  obtain rfl := eq_word (w := .closing) hclosing (by decide)
  cases he with
  | flawed he => exact flawed he
  | spelled he => exact spelled (.paren he)

end Carries

theorem Carried.reduce {f : Form} {δ : List Symbol} {entries : List (Entry Value)}
    {r : Option (List Word)} (h : Carried (f.right.reverse ++ δ) entries r) :
    ∃ e, Builds f ((entries.take f.right.length).reverse.map (·.value)) e ∧
      ∀ location, Carried (.nonterminal 1 :: δ)
        (⟨some (.expr e), location⟩ :: entries.drop f.right.length) r := by
  cases f with
  | operation op =>
    obtain _ | ⟨_ | ⟨_ | ⟨h, ha⟩, hop⟩, hb⟩ := h
    obtain ⟨a, hva⟩ := ha.exists_expr
    obtain ⟨b, hvb⟩ := hb.exists_expr
    refine ⟨.binary op a b, ?_, fun location => ?_⟩
    · change Builds _ [Entry.value _, _, Entry.value _] _
      rw [hva, hvb]
      exact .operation op a b _
    · rw [hva] at ha
      rw [hvb] at hb
      rw [joined_assoc, joined_assoc]
      exact .push h (ha.binary hop hb)
  | negation =>
    obtain _ | ⟨_ | ⟨h, hop⟩, he⟩ := h
    obtain ⟨e, hve⟩ := he.exists_expr
    refine ⟨.negate e, ?_, fun location => ?_⟩
    · change Builds _ [_, Entry.value _] _
      rw [hve]
      exact .negation e _
    · rw [hve] at he
      rw [joined_assoc]
      exact .push h (hop.negate he)
  | parenthesis =>
    obtain _ | ⟨_ | ⟨_ | ⟨h, hopening⟩, he⟩, hclosing⟩ := h
    obtain ⟨e, hve⟩ := he.exists_expr
    refine ⟨.paren e, ?_, fun location => ?_⟩
    · change Builds _ [_, Entry.value _, _] _
      rw [hve]
      exact .parenthesis e _ _
    · rw [hve] at he
      rw [joined_assoc, joined_assoc]
      exact .push h (hopening.paren he hclosing)
  | number =>
    obtain _ | ⟨h, hn⟩ := h
    obtain ⟨w, hw, hvn, rfl⟩ := hn.exists_word (by decide)
    obtain ⟨n, rfl⟩ := Word.exists_number hw
    refine ⟨.number (readFloat n.whole n.fraction), ?_, fun location => ?_⟩
    · change Builds _ [Entry.value _] _
      rw [hvn]
      exact .number _
    · exact .push h (.spelled (.number n))
  | failure =>
    obtain _ | ⟨h, hv⟩ := h
    obtain rfl := hv.eq_none
    exact ⟨.error, .failure _, fun location => .push h (.flawed rfl)⟩

def Word.StandsFor (w : Word) (token : Token Value) : Prop :=
  token.name = w.name ∧ token.value = w.value

section Steps

variable {a : Automaton}

abbrev engine (a : Automaton) : Parser Value Unit :=
  ⟨.ofTable (.generate .calculator a), actions⟩

theorem realizes (a : Automaton) : (engine a).tables.Realizes .calculator a := realizes_generate

theorem terminal?_word (a : Automaton) (w : Word) :
    (engine a).tables.terminal? w.name = some w.terminal := by
  have hname := Table.terminal?_terminalName (a := a) wellFormed (word_lt w)
  rwa [terminalName_word] at hname

def Named (a : Automaton) (la : Lookahead Value) : Prop :=
  ∀ token, la.token = some token → la.terminal = (engine a).tables.terminal? token.name

theorem supplies_named (a : Automaton) : (engine a).tables.Supplies (Named a) := by
  refine ⟨fun token token' h => ?_, fun entries token h => by cases h⟩
  cases h
  rfl

variable (hf : a.Faithful .calculator) (env : Environment Value Unit) {c c' : Config Value Unit}
  {γ : List Symbol} {r : Option (List Word)}

include hf

theorem exists_reduce {s p : Nat} {states : List Nat} (hγ : Stacked a γ c.states)
    (hcarried : Carried γ c.entries r) (hstates : c.states = s :: states)
    (hp : ∃ st, a.states[s]? = some st ∧ p ∈ st.reduces.map (·.1)) :
    ∃ context c' δ, (engine a).reduce env c p = .next (.reduce context) c' ∧
      Stacked a δ c'.states ∧ Carried δ c'.entries r := by
  obtain ⟨st, hst, hp⟩ := hp
  rw [hstates] at hγ
  have hd := hf.describes hγ.stateAfter_eq hst
  obtain ⟨f, -, rfl, -⟩ := completed_cases ((hd.completed p).mp hp)
  obtain ⟨δ, state, deeper, next, rfl, hdrop, hδ, hgoto⟩ := exists_goto wellFormed hf hγ hst hp
  have hsize : (Grammar.calculator.production f.rule).right.size = f.right.length := by
    rw [← f.right_rule, Array.length_toList]
  rw [f.right_rule] at hcarried
  obtain ⟨e, hbuilds, hnew⟩ := hcarried.reduce
  rw [← hstates] at hdrop
  obtain ⟨after, hrun⟩ := hbuilds.run env.nested (c := contextOf .calculator c f.rule) rfl rfl
    (by rw [contextOf, ← hsize]; rfl)
  refine ⟨_, _, .nonterminal 1 :: δ, reduce_of_run (realizes a) hrun hdrop hgoto, ?_, ?_⟩
  · simp only [reduced, hdrop]
    rw [f.left_rule] at hgoto
    exact .push hδ hgoto
  · simp only [reduced, hsize]
    exact hnew after.location

variable {env}

omit hf in
structure Steady (a : Automaton) (c : Config Value Unit) : Prop where
  reading : Reading a c
  overcome : Overcome c
  named : ∀ la, c.lookahead = some la → Named a la

theorem Steady.step {e : Event Value Unit} (h : Steady a c)
    (hstep : (engine a).step env c = .next e c') : Steady a c' where
  reading := (step_effect hstep).reading wellFormed hf (realizes a) h.reading
  overcome := h.overcome.step hstep
  named := (step_effect hstep).lookahead (supplies_named a) h.named

omit hf in
/-- The stack of a run over the given words. If no error was reported, it stands for the words
before those that are still to be read. -/
structure Standing (a : Automaton) (words : List Word) (c : Config Value Unit)
    (γ : List Symbol) (r : Option (List Word)) (rest : List Word) : Prop where
  stacked : Stacked a γ c.states
  carried : Carried γ c.entries r
  sound : r = none ↔ c.reported ≠ []
  unread : List.Forall₂ Word.StandsFor rest c.unread
  read : ∀ ws, r = some ws → words = ws ++ rest

section Standing

variable {words rest : List Word}

theorem Standing.shift {la : Lookahead Value} (h : Standing a words c γ r rest)
    (hc : Steady a c) (heffect : Effect (engine a) env c (.shift la) c') :
    ∃ γ' r' rest', Standing a words c' γ' r' rest' := by
  obtain ⟨token, htoken⟩ := heffect.shifts_token hf (realizes a) hc.reading rfl
  have hreported : c'.reported = c.reported := (heffect.quiet (heffect.clean (by simp))).1
  have hrest := h.unread
  rw [heffect.unread, Event.consumed, htoken] at hrest
  obtain _ | @⟨w, _, rest, _, ⟨hname, hvalue⟩, hrest⟩ := hrest
  obtain ⟨s, states, next, input, hstates, hlook, haction, rfl⟩ := heffect.of_shift
  refine ⟨.terminal w.terminal :: γ, joined r (some [w]), rest, ?_, ?_, ?_, hrest, ?_⟩
  · obtain ⟨u, hu, hcell⟩ := Tables.actionOn_eq haction (by simp)
    have hnamed := Parser.look_holds (supplies_named a) hlook hc.named token htoken
    rw [hu, hname, terminal?_word] at hnamed
    cases hnamed
    have hγ := h.stacked
    rw [hstates] at hγ
    rw [shifted, hstates]
    exact .push hγ ((realizes a).shift hcell)
  · refine .push h.carried ?_
    rw [htoken, Option.map_some, hvalue]
    exact .word w
  · rw [hreported, ← h.sound]
    cases r <;> simp
  · intro ws hws
    cases r with
    | none => cases hws
    | some before =>
      cases hws
      rw [h.read before rfl, List.append_assoc]
      rfl

theorem Standing.reduce {context : CalculatorContext} (h : Standing a words c γ r rest)
    (heffect : Effect (engine a) env c (.reduce context) c') :
    ∃ γ', Standing a words c' γ' r rest := by
  have hreported : c'.reported = c.reported := (heffect.quiet (heffect.clean (by simp))).1
  have hunread := heffect.unread
  obtain ⟨s, states, p, c₁, hstates, hstates₁, hentries₁, hp, hreduce⟩ :=
    heffect.of_reduce (realizes a)
  obtain ⟨_, _, δ, hnext, hstacked, hcarried⟩ := exists_reduce hf env (c := c₁)
    (hstates₁ ▸ h.stacked) (hentries₁ ▸ h.carried) (hstates₁.trans hstates) hp
  rw [hreduce] at hnext
  cases hnext
  refine ⟨δ, hstacked, hcarried, ?_, ?_, h.read⟩
  · rw [hreported]
    exact h.sound
  · rw [Event.consumed, List.nil_append] at hunread
    rw [← hunread]
    exact h.unread

omit hf in
theorem Standing.recover {popped : Nat} {discarded : List (Lookahead Value)}
    (h : Standing a words c γ r rest) (hc' : Steady a c')
    (heffect : Effect (engine a) env c (.recover popped discarded) c') :
    ∃ γ' rest', Standing a words c' γ' none rest' := by
  obtain ⟨s, below, next, hdrop, hs, hstates⟩ := heffect.resumed.kept
  obtain ⟨location, hentries⟩ := heffect.resumed.entries
  have hlt : popped < c.states.length := by
    by_contra hle
    rw [List.drop_eq_nil_of_le (by omega)] at hdrop
    cases hdrop
  have hstacked := h.stacked.drop hlt
  rw [hdrop] at hstacked
  have hle : popped ≤ γ.length := by
    have hlength := h.stacked.length_eq
    omega
  obtain ⟨r', hcarried⟩ := h.carried.drop hle
  have hdue : c'.recovering ≠ 0 := by
    rw [show c'.recovering = recoveryShifts from heffect.recovering]
    decide
  have hunread := h.unread
  rw [heffect.unread] at hunread
  refine ⟨.terminal Symbol.errorToken :: γ.drop popped, _, ?_, ?_, ?_,
    List.forall₂_drop_append _ _ _ hunread, ?_⟩
  · rw [hstates]
    exact .push hstacked ((realizes a).shift (Tables.action_of_shiftsError hs))
  · have hlost : joined r' none = none := Option.map₂_none_right _ r'
    rw [hentries, ← hlost]
    exact .push hcarried .error
  · exact ⟨fun _ => hc'.overcome.due hdue, fun _ => rfl⟩
  · simp

theorem Standing.step {e : Event Value Unit} (h : Standing a words c γ r rest) (hc : Steady a c)
    (hstep : (engine a).step env c = .next e c') :
    ∃ γ' r' rest', Standing a words c' γ' r' rest' := by
  have heffect := step_effect hstep
  cases e with
  | shift la => exact h.shift hf hc heffect
  | reduce context =>
    obtain ⟨γ', h'⟩ := h.reduce hf heffect
    exact ⟨γ', r, rest, h'⟩
  | recover popped discarded =>
    obtain ⟨γ', rest', h'⟩ := h.recover (hc.step hf hstep) heffect
    exact ⟨γ', none, rest', h'⟩

theorem Standing.steps {d : Config Value Unit} {hist : List (Config Value Unit × Move Value Unit)}
    (hsteps : Steps (engine a) env c hist d) (h : Standing a words c γ r rest) (hc : Steady a c) :
    Steady a d ∧ ∃ γ' r' rest', Standing a words d γ' r' rest' := by
  induction hsteps generalizing γ r rest with
  | refl => exact ⟨hc, γ, r, rest, h⟩
  | head hstep _ ih =>
    obtain ⟨γ', r', rest', h'⟩ := h.step hf hc hstep
    exact ih h' (hc.step hf hstep)

omit hf in
theorem Standing.token_eq_none {la : Lookahead Value} {input : Source Value}
    (h : Standing a words c γ r rest) (hc : Steady a c)
    (hlook : (engine a).look c = .ok (la, input)) (hend : la.terminal = some Symbol.endOfInput) :
    la.token = none := by
  cases htoken : la.token with
  | none => rfl
  | some token =>
    have hnamed := Parser.look_holds (supplies_named a) hlook hc.named token htoken
    have hunread := h.unread
    rw [Parser.unread_look hlook, htoken] at hunread
    obtain _ | @⟨w, _, _, _, ⟨hname, -⟩, -⟩ := hunread
    rw [hend, hname, terminal?_word] at hnamed
    exact absurd (Option.some.inj hnamed).symm w.terminal_ne_reserved.1

theorem Standing.accept {s : Nat} {states : List Nat} {la : Lookahead Value}
    {input : Source Value} (h : Standing a words c γ r rest) (hc : Steady a c)
    (hstates : c.states = s :: states) (hlook : (engine a).look c = .ok (la, input))
    (haction : (engine a).tables.actionOn s la = .accept) :
    la.token = none ∧ ∃ e, c.entries.head?.bind (·.value) = some (.expr e) ∧
      Carries (.nonterminal 1) (some (.expr e)) r := by
  obtain ⟨u, hu, hcell⟩ := Tables.actionOn_eq haction (by simp)
  obtain ⟨rfl, st, hst, haccepts⟩ := (realizes a).accept hcell
  refine ⟨h.token_eq_none hc hlook hu, ?_⟩
  have hγ := h.stacked
  rw [hstates] at hγ
  have hd := hf.describes hγ.stateAfter_eq hst
  obtain ⟨i, hi, hnext⟩ := hd.accepts.mp haccepts
  obtain rfl := wellFormed.accepting_prefix hi hnext
  have hcarried := h.carried
  generalize c.entries = entries at hcarried ⊢
  obtain _ | ⟨⟨location⟩, he⟩ := hcarried
  obtain ⟨e, hv⟩ := he.exists_expr
  rw [hv] at he
  exact ⟨e, hv, by rwa [nil_joined]⟩

theorem Standing.exists_shiftsError (h : Standing a words c γ r rest) :
    ∃ s ∈ c.states, (engine a).tables.shiftsError s ≠ none := by
  have hfirst : stateAfter a.step (spine []) = some 0 := rfl
  obtain ⟨next, hshift⟩ := action_first hf .failure rfl hfirst
  have herror : (engine a).tables.action 0 Symbol.errorToken = .shift next := hshift
  refine ⟨0, h.stacked.zero_mem, ?_⟩
  rw [Tables.shiftsError, herror]
  exact Option.some_ne_none next

theorem Standing.reduce_ne_stop {c₁ : Config Value Unit} {s p : Nat} {states : List Nat}
    {outcome : Except ParseError (Option Value)} (h : Standing a words c γ r rest)
    (hstates : c.states = s :: states) (hstates₁ : c₁.states = c.states)
    (hentries₁ : c₁.entries = c.entries)
    (hp : ∃ st, a.states[s]? = some st ∧ p ∈ st.reduces.map (·.1)) :
    (engine a).reduce env c₁ p ≠ .stop outcome c' := by
  intro hreduce
  obtain ⟨_, _, _, hnext, -⟩ := exists_reduce hf env (c := c₁)
    (hstates₁ ▸ h.stacked) (hentries₁ ▸ h.carried) (hstates₁.trans hstates) hp
  rw [hreduce] at hnext
  cases hnext

variable (hanswer : ∀ reported error, env.onError reported error = none)

include hanswer

theorem Standing.stop {outcome : Except ParseError (Option Value)}
    (h : Standing a words c γ r rest) (hc : Steady a c)
    (hstop : (engine a).step env c = .stop outcome c') :
    (∃ e, outcome = .error (.lexical e)) ∨ (∃ e, outcome = .error (.recoveryHalted e)) ∨
      ∃ e la input, (engine a).look c = .ok (la, input) ∧ la.token = none ∧
        outcome = .ok (some (.expr e)) ∧ c'.reported = c.reported ∧
        Carries (.nonterminal 1) (some (.expr e)) r := by
  cases step_cases (engine a) env c with
  | empty hstates _ =>
    obtain ⟨s, states, hcons, -⟩ := h.stacked.exists_top
    rw [hstates] at hcons
    cases hcons
  | lexical _ _ _ hmove =>
    rw [hmove] at hstop
    cases hstop
    exact Or.inl ⟨_, rfl⟩
  | shift _ _ _ _ hmove =>
    rw [hmove] at hstop
    cases hstop
  | reduce hstates hheld hmove =>
    rw [hmove] at hstop
    rcases hheld with ⟨rfl, hdefault⟩ | ⟨-, la, input, -, rfl, haction⟩
    · exact absurd hstop (h.reduce_ne_stop hf hstates rfl rfl ((realizes a).default hdefault))
    · obtain ⟨u, -, hcell⟩ := Tables.actionOn_eq haction (by simp)
      refine absurd hstop (h.reduce_ne_stop hf hstates ?_ ?_ ((realizes a).reduce hcell)) <;> rfl
  | accept hstates _ hlook haction hmove =>
    rw [hmove] at hstop
    cases hstop
    obtain ⟨htoken, e, hhead, he⟩ := h.accept hf hc hstates hlook haction
    exact Or.inr (Or.inr ⟨e, _, _, hlook, htoken, by rw [hhead], rfl, he⟩)
  | error _ _ _ _ hmove =>
    have hfail := hstop
    rw [hmove] at hfail
    rcases fail_stop hanswer hfail with hlexical | hhalted | ⟨e, rfl⟩
    · exact Or.inl hlexical
    · exact Or.inr (Or.inl hhalted)
    · -- nothing on the stack would shift the recovery token
      obtain ⟨s, hs, hshifts⟩ := h.exists_shiftsError hf
      exact absurd ((step_unexpected hanswer hstop).2.1 s hs) hshifts

end Standing

end Steps

end Calculator

end TableParsing
