import TableParsing.Engine.Predictive
import TableParsing.Proofs.Engine.Act
import TableParsing.Proofs.Engine.Move

/-! Runs of the predictive engine as sequences of steps: what a step can do that does not end the
run, how a run can end where no action ends it, and what is left of the tokens. -/

namespace TableParsing.Predictive

open ShiftReduce (Plain)

variable {V P : Type}

def Parser.events (parser : Parser V P) (env : Environment V P) :
    Nat → Config V P → List (Event V P)
  | 0, _ => []
  | fuel + 1, c =>
    match parser.step env c with
    | .next e c => e :: events parser env fuel c
    | .stop _ _ => []

def Event.context? : Event V P → Option (Context V P)
  | .consume _ => none
  | .expand _ => none
  | .reduce c => some c

def contexts (events : List (Event V P)) : List (Context V P) := events.filterMap Event.context?

def reductions (events : List (Event V P)) : List Nat := (contexts events).map (·.production)

variable {parser : Parser V P} {env : Environment V P} {c c' d : Config V P}

section Results

variable (c) (goals : List Goal) (la : Lookahead V) (input : Source V)

def taken (token : Token V) : Config V P :=
  { c with
    goals, input
    lookahead := none
    pending := []
    entries := ⟨some token.value, token.location⟩ :: c.entries }

/-- The end of input is matched without being consumed. -/
def ended : Config V P :=
  { c with
    goals, input
    lookahead := some la
    entries := ⟨none, topLocation c.entries⟩ :: c.entries }

def expanded (right : List Symbol) (n p : Nat) : Config V P :=
  { c with
    goals := right.map Goal.symbol ++ .reduce p :: goals
    input
    lookahead := some la
    pending := c.pending ++ [⟨n, goals.length⟩] }

def closed : Config V P :=
  { c with
    goals, input
    lookahead := some la
    pending := c.pending.filter fun e => e.depth < goals.length }

def reduced (size : Nat) (v : Option V) (after : Context V P) : Config V P :=
  { c with
    goals, input
    lookahead := some la
    pending := c.pending.filter fun e => e.depth < goals.length
    entries := ⟨v, after.location⟩ :: c.entries.drop size
    params := after.params }

end Results

inductive Effect (parser : Parser V P) (env : Environment V P) (c : Config V P) :
    Event V P → Config V P → Prop
  | consume {t : Nat} {goals : List Goal} {la : Lookahead V} {input : Source V}
      {token : Token V} : c.goals = .symbol (.terminal t) :: goals →
      parser.look c = .ok (la, input) → la.terminal = some t → la.token = some token →
      Effect parser env c (.consume la) (taken c goals input token)
  | ending {t : Nat} {goals : List Goal} {la : Lookahead V} {input : Source V} :
      c.goals = .symbol (.terminal t) :: goals → parser.look c = .ok (la, input) →
      la.terminal = some t → la.token = none →
      Effect parser env c (.consume la) (ended c goals la input)
  | expand {n t p : Nat} {goals : List Goal} {la : Lookahead V} {input : Source V} :
      c.goals = .symbol (.nonterminal n) :: goals → parser.look c = .ok (la, input) →
      la.terminal = some t → parser.table.predict n t = some p →
      (∀ e ∈ c.pending, e.symbol ≠ n) →
      Effect parser env c (.expand p)
        (expanded c goals la input (parser.table.production p).right.toList n p)
  | reduce {p : Nat} {goals : List Goal} {la : Lookahead V} {input : Source V} {v : Option V}
      {after context : Context V P} : c.goals = .reduce p :: goals →
      parser.look c = .ok (la, input) →
      (parser.table.production p).right.size ≤ c.entries.length →
      context = .ofReduction p (parser.table.production p).aliases
        (c.entries.take (parser.table.production p).right.size).reverse
        (c.entries.drop (parser.table.production p).right.size) c.params →
      parser.actions.run env.nested context = (.value v, after) →
      Effect parser env c (.reduce context)
        (reduced c goals la input (parser.table.production p).right.size v after)

def Refuses (table : PredictionTable) (x : Symbol) (la : Lookahead V) : Prop :=
  match x with
  | .terminal t => la.terminal ≠ some t
  | .nonterminal n => la.terminal.bind (table.predict n) = none

theorem fail_eq (parser : Parser V P) (env : Environment V P) (c : Config V P) (la : Lookahead V)
    (expected : List Nat) :
    let error := parser.syntaxError c la expected
    parser.fail env c la expected = .stop
      (.error ((env.onError c.reported error).getD (.unexpected error)))
      { c with reported := error :: c.reported } := by
  intro error
  cases hanswer : env.onError c.reported error <;>
    simp only [Parser.fail, error, hanswer, Option.getD_some, Option.getD_none]

/-- The ways in which a step is made: it has an effect that the run goes on after, or ends the
run. -/
inductive StepCase (parser : Parser V P) (env : Environment V P) (c : Config V P)
    (move : Move V P) : Prop
  | next {e : Event V P} {c' : Config V P} : Effect parser env c e c' → move = .next e c' →
      StepCase parser env c move
  | finished : c.goals = [] → move = .stop (.ok (c.entries.head?.bind (·.value))) c →
      StepCase parser env c move
  | lexical {goal : Goal} {goals : List Goal} {e : LexError} : c.goals = goal :: goals →
      parser.look c = .error e → move = .stop (.error (.lexical e)) c →
      StepCase parser env c move
  | refused {x : Symbol} {goals : List Goal} {la : Lookahead V} {input : Source V}
      {expected : List Nat} {error : SyntaxError} : c.goals = .symbol x :: goals →
      parser.look c = .ok (la, input) → Refuses parser.table x la →
      error = parser.syntaxError c la expected →
      move = .stop (.error ((env.onError c.reported error).getD (.unexpected error)))
        { c with goals := goals, input := input, reported := error :: c.reported } →
      StepCase parser env c move
  | recursive {n p : Nat} {goals : List Goal} {la : Lookahead V} {input : Source V}
      {e : Expansion} : c.goals = .symbol (.nonterminal n) :: goals →
      parser.look c = .ok (la, input) → la.terminal.bind (parser.table.predict n) = some p →
      e ∈ c.pending → e.symbol = n →
      move = .stop (.error (.leftRecursion (parser.table.nonterminalName n)))
        { c with goals := goals, input := input } → StepCase parser env c move
  | underflow {p : Nat} {goals : List Goal} {la : Lookahead V} {input : Source V} :
      c.goals = .reduce p :: goals → parser.look c = .ok (la, input) →
      c.entries.length < (parser.table.production p).right.size →
      move = .stop (.error .emptyStack) (closed c goals la input) → StepCase parser env c move
  | accept {goals : List Goal} {la : Lookahead V} {input : Source V} {v : Option V}
      {context after : Context V P} : parser.actions.run env.nested context = (.accept v, after) →
      move = .stop (.ok v) { closed c goals la input with params := after.params } →
      StepCase parser env c move
  | abort {goals : List Goal} {la : Lookahead V} {input : Source V}
      {context after : Context V P} : parser.actions.run env.nested context = (.abort, after) →
      move = .stop (.error .aborted) { closed c goals la input with params := after.params } →
      StepCase parser env c move

section Cases

variable {goals : List Goal} {la : Lookahead V} {input : Source V}

theorem consume_cases {t : Nat} (hgoals : c.goals = .symbol (.terminal t) :: goals)
    (hlook : parser.look c = .ok (la, input)) : StepCase parser env c (parser.step env c) := by
  by_cases hterminal : la.terminal = some t
  · cases htoken : la.token with
    | some token =>
      refine .next (.consume hgoals hlook hterminal htoken) ?_
      simp only [Parser.step, hgoals, hlook, if_pos hterminal, Parser.consume, htoken, taken]
    | none =>
      refine .next (.ending hgoals hlook hterminal htoken) ?_
      simp only [Parser.step, hgoals, hlook, if_pos hterminal, Parser.consume, htoken, ended]
  · have herror : _ = parser.syntaxError c la [t] := rfl
    refine .refused (x := .terminal t) hgoals hlook hterminal herror ?_
    simp only [Parser.step, hgoals, hlook, if_neg hterminal, fail_eq]
    rfl

theorem expand_cases {n : Nat} (hgoals : c.goals = .symbol (.nonterminal n) :: goals)
    (hlook : parser.look c = .ok (la, input)) : StepCase parser env c (parser.step env c) := by
  cases hp : la.terminal.bind (parser.table.predict n) with
  | none =>
    have herror : _ = parser.syntaxError c la (parser.table.expected n) := rfl
    refine .refused (x := .nonterminal n) hgoals hlook hp herror ?_
    simp only [Parser.step, hgoals, hlook, Parser.expand, hp, fail_eq]
    rfl
  | some p =>
    cases hany : c.pending.any (·.symbol == n) with
    | true =>
      obtain ⟨e, he, hsymbol⟩ := List.any_eq_true.mp hany
      refine .recursive hgoals hlook hp he (by simpa using hsymbol) ?_
      simp only [Parser.step, hgoals, hlook, Parser.expand, hp, hany, if_true]
    | false =>
      obtain ⟨t, ht, hpredict⟩ := Option.bind_eq_some_iff.mp hp
      refine .next (.expand hgoals hlook ht hpredict fun e he heq => ?_) ?_
      · exact List.any_eq_false.mp hany e he (by simp [heq])
      · simp only [Parser.step, hgoals, hlook, Parser.expand, hp, hany, Bool.false_eq_true,
          if_false, expanded]

theorem reduce_cases {p : Nat} (hgoals : c.goals = .reduce p :: goals)
    (hlook : parser.look c = .ok (la, input)) : StepCase parser env c (parser.step env c) := by
  by_cases hlt : c.entries.length < (parser.table.production p).right.size
  · refine .underflow hgoals hlook hlt ?_
    simp only [Parser.step, hgoals, hlook, Parser.reduce, if_pos hlt, closed]
  · cases hrun : parser.actions.run env.nested (.ofReduction p (parser.table.production p).aliases
        (c.entries.take (parser.table.production p).right.size).reverse
        (c.entries.drop (parser.table.production p).right.size) c.params) with
    | mk reply after =>
      cases reply with
      | accept v =>
        have hstop : parser.step env c =
            .stop (.ok v) { closed c goals la input with params := after.params } := by
          simp only [Parser.step, hgoals, hlook, Parser.reduce, if_neg hlt, hrun, closed]
        exact .accept hrun hstop
      | abort =>
        have hstop : parser.step env c =
            .stop (.error .aborted) { closed c goals la input with params := after.params } := by
          simp only [Parser.step, hgoals, hlook, Parser.reduce, if_neg hlt, hrun, closed]
        exact .abort hrun hstop
      | value v =>
        refine .next (.reduce hgoals hlook (by omega) rfl hrun) ?_
        simp only [Parser.step, hgoals, hlook, Parser.reduce, if_neg hlt, hrun, reduced]

end Cases

theorem step_cases (parser : Parser V P) (env : Environment V P) (c : Config V P) :
    StepCase parser env c (parser.step env c) := by
  cases hgoals : c.goals with
  | nil =>
    refine .finished hgoals ?_
    simp only [Parser.step, hgoals]
  | cons goal goals =>
    cases hlook : parser.look c with
    | error e =>
      refine .lexical hgoals hlook ?_
      simp only [Parser.step, hgoals, hlook]
    | ok r =>
      match goal with
      | .symbol (.terminal t) => exact consume_cases hgoals hlook
      | .symbol (.nonterminal n) => exact expand_cases hgoals hlook
      | .reduce p => exact reduce_cases hgoals hlook

theorem step_effect {e : Event V P} (h : parser.step env c = .next e c') :
    Effect parser env c e c' := by
  cases step_cases parser env c with
  | next heffect hmove =>
    rw [hmove] at h
    cases h
    exact heffect
  | finished _ hmove | lexical _ _ hmove | refused _ _ _ _ hmove | recursive _ _ _ _ _ hmove
  | underflow _ _ _ hmove | accept _ hmove | abort _ hmove =>
    rw [hmove] at h
    cases h

theorem Effect.reported {e : Event V P} (h : Effect parser env c e c') :
    c'.reported = c.reported := by
  cases h <;> rfl

inductive Steps (parser : Parser V P) (env : Environment V P) :
    Config V P → List (Event V P) → Config V P → Prop
  | refl (c : Config V P) : Steps parser env c [] c
  | head {c c' d : Config V P} {e : Event V P} {events : List (Event V P)} :
      parser.step env c = .next e c' → Steps parser env c' events d →
      Steps parser env c (e :: events) d

theorem Steps.reported {events : List (Event V P)} (h : Steps parser env c events d) :
    d.reported = c.reported := by
  induction h with
  | refl => rfl
  | head hstep _ ih => exact ih.trans (step_effect hstep).reported

theorem Steps.run {events : List (Event V P)} {outcome : Except ParseError (Option V)}
    (h : Steps parser env c events d) (hstop : parser.step env d = .stop outcome c') {fuel : Nat}
    (hfuel : events.length < fuel) :
    parser.run env fuel c = some ⟨outcome, c'.params, c'.reported.reverse⟩ ∧
      parser.events env fuel c = events := by
  induction h generalizing fuel with
  | refl =>
    obtain ⟨k, rfl⟩ := Nat.exists_eq_add_one_of_ne_zero (Nat.ne_zero_of_lt hfuel)
    simp only [Parser.run, Parser.events, hstop, and_self]
  | head hstep _ ih =>
    obtain ⟨k, rfl⟩ := Nat.exists_eq_add_one_of_ne_zero (Nat.ne_zero_of_lt hfuel)
    obtain ⟨hrun, hevents⟩ := ih hstop (Nat.lt_of_succ_lt_succ hfuel)
    simp only [Parser.run, Parser.events, hstep, hrun, hevents, and_self]

theorem exists_steps_of_run {fuel : Nat} {r : Result V P} (h : parser.run env fuel c = some r) :
    ∃ d outcome d', Steps parser env c (parser.events env fuel c) d ∧
      parser.step env d = .stop outcome d' ∧ r = ⟨outcome, d'.params, d'.reported.reverse⟩ := by
  induction fuel generalizing c with
  | zero => cases h
  | succ fuel ih =>
    cases hstep : parser.step env c with
    | next e c' =>
      simp only [Parser.run, hstep] at h
      obtain ⟨d, outcome, d', hsteps, hstop, hr⟩ := ih h
      simp only [Parser.events, hstep]
      exact ⟨d, outcome, d', .head hstep hsteps, hstop, hr⟩
    | stop outcome d' =>
      simp only [Parser.run, hstep, Option.some.injEq] at h
      simp only [Parser.events, hstep]
      exact ⟨c, outcome, d', .refl c, hstep, h.symm⟩

def nextTerminal (table : PredictionTable) (rest : List (Token V)) : Option Nat :=
  match rest with
  | [] => some Symbol.endOfInput
  | token :: _ => table.terminal? token.name

def lookaheadOf (table : PredictionTable) (rest : List (Token V)) : Lookahead V :=
  ⟨nextTerminal table rest, rest.head?⟩

def Pending (table : PredictionTable) (c : Config V P) (rest : List (Token V)) : Prop :=
  c.lookahead = none ∧ c.input = rest.map .ok ∨
    c.lookahead = some (lookaheadOf table rest) ∧ c.input = rest.tail.map .ok

theorem pending_start (table : PredictionTable) (tokens : List (Token V)) (params : P) :
    Pending table (start (tokens.map .ok) params) tokens := Or.inl ⟨rfl, rfl⟩

theorem Pending.look {rest : List (Token V)} (h : Pending parser.table c rest) :
    parser.look c = .ok (lookaheadOf parser.table rest, rest.tail.map .ok) := by
  rcases h with ⟨hnone, hinput⟩ | ⟨hsome, hinput⟩
  · cases rest with
    | nil => simp only [Parser.look, hnone, hinput, List.map_nil]; rfl
    | cons token rest => simp only [Parser.look, hnone, hinput, List.map_cons]; rfl
  · simp only [Parser.look, hsome, hinput]

def Event.consumed : Event V P → List (Token V)
  | .consume la => la.token.toList
  | .expand _ => []
  | .reduce _ => []

theorem Effect.pending {e : Event V P} (h : Effect parser env c e c') {rest : List (Token V)}
    (hc : Pending parser.table c rest) :
    ∃ rest', Pending parser.table c' rest' ∧ rest = e.consumed ++ rest' := by
  have hlook := hc.look
  cases h with
  | consume _ hlook' _ htoken =>
    rw [hlook] at hlook'
    cases hlook'
    obtain ⟨later, rfl⟩ := List.head?_eq_some_iff.mp htoken
    exact ⟨later, Or.inl ⟨rfl, rfl⟩, rfl⟩
  | ending _ hlook' _ htoken =>
    rw [hlook] at hlook'
    cases hlook'
    obtain rfl := List.head?_eq_none_iff.mp htoken
    exact ⟨[], Or.inr ⟨rfl, rfl⟩, rfl⟩
  | expand _ hlook' _ _ _ =>
    rw [hlook] at hlook'
    cases hlook'
    exact ⟨rest, Or.inr ⟨rfl, rfl⟩, rfl⟩
  | reduce _ hlook' _ _ _ =>
    rw [hlook] at hlook'
    cases hlook'
    exact ⟨rest, Or.inr ⟨rfl, rfl⟩, rfl⟩

inductive Ending (parser : Parser V P) (env : Environment V P) (c : Config V P)
    (la : Lookahead V) : Except ParseError (Option V) → Config V P → Prop
  | finished : c.goals = [] → Ending parser env c la (.ok (c.entries.head?.bind (·.value))) c
  | refused {x : Symbol} {goals : List Goal} {d c' : Config V P} {expected : List Nat}
      {error : SyntaxError} : c.goals = .symbol x :: goals → Refuses parser.table x la →
      error = parser.syntaxError d la expected → c'.reported = error :: c.reported →
      Ending parser env c la
        (.error ((env.onError c.reported error).getD (.unexpected error))) c'
  | recursive {n : Nat} {goals : List Goal} {e : Expansion} {name : String} {c' : Config V P} :
      c.goals = .symbol (.nonterminal n) :: goals →
      la.terminal.bind (parser.table.predict n) ≠ none → e ∈ c.pending → e.symbol = n →
      Ending parser env c la (.error (.leftRecursion name)) c'
  | underflow {p : Nat} {goals : List Goal} {c' : Config V P} : c.goals = .reduce p :: goals →
      c.entries.length < (parser.table.production p).right.size →
      Ending parser env c la (.error .emptyStack) c'

theorem step_ending (plain : Plain parser.actions) {rest : List (Token V)}
    (hc : Pending parser.table c rest) {outcome : Except ParseError (Option V)}
    (h : parser.step env c = .stop outcome c') :
    Ending parser env c (lookaheadOf parser.table rest) outcome c' := by
  cases step_cases parser env c with
  | next _ hmove =>
    rw [hmove] at h
    cases h
  | finished hgoals hmove =>
    rw [hmove] at h
    cases h
    exact .finished hgoals
  | lexical _ hlook _ =>
    rw [hc.look] at hlook
    cases hlook
  | refused hgoals hlook hrefuses herror hmove =>
    rw [hc.look] at hlook
    cases hlook
    rw [hmove] at h
    cases h
    exact .refused hgoals hrefuses herror rfl
  | recursive hgoals hlook hp he hsymbol hmove =>
    rw [hc.look] at hlook
    cases hlook
    rw [hmove] at h
    cases h
    exact .recursive hgoals (by simp [hp]) he hsymbol
  | underflow hgoals _ hlt hmove =>
    rw [hmove] at h
    cases h
    exact .underflow hgoals hlt
  | @accept _ _ _ _ context _ hrun _ =>
    obtain ⟨u, after, hvalue⟩ := plain.run env.nested context
    rw [hrun] at hvalue
    cases hvalue
  | @abort _ _ _ context _ hrun _ =>
    obtain ⟨u, after, hvalue⟩ := plain.run env.nested context
    rw [hrun] at hvalue
    cases hvalue

end TableParsing.Predictive
