import TableParsing.Proofs.Engine.Predictive.LeftRecursion
import TableParsing.Proofs.Engine.Predictive.Termination

/-! The check against left recursion changes only runs that would never end. Where it ends a run,
the nonterminal refused stands inside an open expansion of its own, reached with nothing read;
the same predictions would then lead from it to itself again and again, whatever is beneath them
and whatever the actions return. On every other run the check is silent, and the engine without
it does the same steps. -/

namespace TableParsing.Predictive

open ShiftReduce (Plain silent tokensOf)

variable {V P : Type}

def Config.forget (c : Config V P) : Config V P := { c with pending := [] }

namespace Parser

variable (parser : Parser V P) (env : Environment V P)

/-- A run without the check: before each step the open expansions are forgotten, so that no
expansion is refused. -/
def runFreely : Nat → Config V P → Option (Result V P)
  | 0, _ => none
  | fuel + 1, c =>
    match parser.step env c.forget with
    | .next _ c => runFreely fuel c
    | .stop outcome c => some ⟨outcome, c.params, c.reported.reverse⟩

def eventsFreely : Nat → Config V P → List (Event V P)
  | 0, _ => []
  | fuel + 1, c =>
    match parser.step env c.forget with
    | .next e c => e :: eventsFreely fuel c
    | .stop _ _ => []

end Parser

def Move.forget : Move V P → Move V P
  | .next e c => .next e c.forget
  | .stop outcome c => .stop outcome c.forget

variable {parser : Parser V P} {env : Environment V P} {c c' d : Config V P}

/-- The check ends the run here: a production is predicted for a nonterminal whose expansion is
open since the last token. -/
def Refused (parser : Parser V P) (c : Config V P) (n : Nat) : Prop :=
  ∃ goals la input p, c.goals = .symbol (.nonterminal n) :: goals ∧
    parser.look c = .ok (la, input) ∧ la.terminal.bind (parser.table.predict n) = some p ∧
    ∃ e ∈ c.pending, e.symbol = n

theorem forget_fail (la : Lookahead V) (expected : List Nat) :
    (parser.fail env c.forget la expected).forget = (parser.fail env c la expected).forget := by
  simp only [Parser.fail, Parser.syntaxError, Config.forget]
  split <;> rfl

theorem forget_consume (la : Lookahead V) :
    (Parser.consume c.forget la).forget = (Parser.consume c la).forget := by
  simp only [Parser.consume, Config.forget]
  split <;> rfl

theorem forget_reduce (p : Nat) :
    (parser.reduce env c.forget p).forget = (parser.reduce env c p).forget := by
  have hsame : c.forget.entries = c.entries := rfl
  have hparams : c.forget.params = c.params := rfl
  simp only [Parser.reduce, hsame, hparams]
  split
  · rfl
  · split <;> rfl

theorem forget_expand (la : Lookahead V) {n : Nat}
    (hnew : ∀ p, la.terminal.bind (parser.table.predict n) = some p →
      ∀ e ∈ c.pending, e.symbol ≠ n) :
    (parser.expand env c.forget la n).forget = (parser.expand env c la n).forget := by
  simp only [Parser.expand]
  split
  · exact forget_fail la _
  case h_2 p hp =>
    have hany : c.pending.any (·.symbol == n) = false := by
      simpa [List.any_eq_false] using hnew p hp
    simp only [hany, Config.forget, List.any_nil, Bool.false_eq_true, if_false]
    rfl

theorem forget_step (env : Environment V P) (h : ∀ n, ¬ Refused parser c n) :
    (parser.step env c.forget).forget = (parser.step env c).forget := by
  have hlook : parser.look c.forget = parser.look c := rfl
  have hsame : c.forget.goals = c.goals := rfl
  cases hgoals : c.goals with
  | nil =>
    simp only [Parser.step, hsame, hgoals]
    rfl
  | cons goal goals =>
    cases hl : parser.look c with
    | error e =>
      simp only [Parser.step, hlook, hsame, hgoals, hl]
      rfl
    | ok r =>
      obtain ⟨la, input⟩ := r
      simp only [Parser.step, hlook, hsame, hgoals, hl]
      cases goal with
      | symbol s =>
        cases s with
        | terminal t =>
          dsimp only
          split
          · exact forget_consume (c := { c with goals, input }) la
          · exact forget_fail (c := { c with goals, input }) la [t]
        | nonterminal n =>
          refine forget_expand (c := { c with goals, input }) la fun p hp e he hsymbol => ?_
          exact h n ⟨goals, la, input, p, hgoals, hl, hp, e, he, hsymbol⟩
      | reduce p =>
        let closed : Config V P :=
          { c with
            goals, input
            lookahead := some la
            pending := c.pending.filter fun e => e.depth < goals.length }
        exact forget_reduce (c := closed) p

theorem Refused.step {n : Nat} (h : Refused parser c n) (env : Environment V P) : ∃ name c',
    parser.step env c = .stop (.error (.leftRecursion name)) c' ∧ c'.reported = c.reported := by
  obtain ⟨goals, la, input, p, hgoals, hlook, hp, e, he, hsymbol⟩ := h
  have hany : c.pending.any (·.symbol == n) = true :=
    List.any_eq_true.mpr ⟨e, he, by simp [hsymbol]⟩
  refine ⟨parser.table.nonterminalName n, { c with goals, input }, ?_, rfl⟩
  simp only [Parser.step, hgoals, hlook, Parser.expand, hp, hany, if_true]

theorem refused_of_step {name : String}
    (h : parser.step env c = .stop (.error (.leftRecursion name)) c') :
    (∃ n, Refused parser c n) ∨ ∃ error,
      env.onError c.reported error = some (.leftRecursion name) ∧
        c'.reported = error :: c.reported := by
  cases step_cases parser env c with
  | next _ hmove | finished _ hmove | lexical _ _ hmove | underflow _ _ _ hmove | accept _ hmove
  | abort _ hmove =>
    rw [hmove] at h
    cases h
  | recursive hgoals hlook hp he hsymbol _ =>
    exact Or.inl ⟨_, _, _, _, _, hgoals, hlook, hp, _, he, hsymbol⟩
  | @refused _ _ _ _ _ error _ _ _ _ hmove =>
    rw [hmove] at h
    refine Or.inr ⟨error, ?_⟩
    cases hanswer : env.onError c.reported error with
    | none =>
      rw [hanswer] at h
      cases h
    | some e =>
      rw [hanswer] at h
      cases h
      exact ⟨rfl, rfl⟩

inductive FreeSteps (parser : Parser V P) (env : Environment V P) :
    Config V P → List (Event V P) → Config V P → Prop
  | refl (c : Config V P) : FreeSteps parser env c [] c
  | head {c c' d : Config V P} {e : Event V P} {events : List (Event V P)} :
      parser.step env c.forget = .next e c' → FreeSteps parser env c' events d →
      FreeSteps parser env c (e :: events) d

namespace FreeSteps

variable {events : List (Event V P)}

theorem trans {b : Config V P} {later : List (Event V P)} (h : FreeSteps parser env c events d)
    (h' : FreeSteps parser env d later b) : FreeSteps parser env c (events ++ later) b := by
  induction h with
  | refl => exact h'
  | head hstep _ ih => exact .head hstep (ih h')

theorem congr {b : Config V P} (h : FreeSteps parser env c events d)
    (hb : b.forget = c.forget) :
    ∃ b', FreeSteps parser env b events b' ∧ b'.forget = d.forget := by
  cases h with
  | refl => exact ⟨b, .refl b, hb⟩
  | head hstep hrest => exact ⟨d, .head (hb ▸ hstep) hrest, rfl⟩

theorem stop {outcome : Except ParseError (Option V)} (h : FreeSteps parser env c events d)
    (hstop : parser.step env d.forget = .stop outcome c') {fuel : Nat}
    (hfuel : events.length < fuel) :
    parser.runFreely env fuel c = some ⟨outcome, c'.params, c'.reported.reverse⟩ ∧
      parser.eventsFreely env fuel c = events := by
  induction h generalizing fuel with
  | refl =>
    obtain ⟨k, rfl⟩ := Nat.exists_eq_add_one_of_ne_zero (Nat.ne_zero_of_lt hfuel)
    simp only [Parser.runFreely, Parser.eventsFreely, hstop, and_self]
  | head hstep _ ih =>
    obtain ⟨k, rfl⟩ := Nat.exists_eq_add_one_of_ne_zero (Nat.ne_zero_of_lt hfuel)
    obtain ⟨hrun, hevents⟩ := ih hstop (Nat.lt_of_succ_lt_succ hfuel)
    simp only [Parser.runFreely, Parser.eventsFreely, hstep, hrun, hevents, and_self]

theorem unfinished (h : FreeSteps parser env c events d) {fuel : Nat}
    (hd : ∀ n ≤ fuel, parser.runFreely env n d = none) : parser.runFreely env fuel c = none := by
  induction h generalizing fuel with
  | refl => exact hd fuel (Nat.le_refl fuel)
  | head hstep _ ih =>
    cases fuel with
    | zero => rfl
    | succ fuel =>
      simp only [Parser.runFreely, hstep]
      exact ih fun n hn => hd n (Nat.le_succ_of_le hn)

end FreeSteps

theorem Steps.free {events : List (Event V P)} (h : Steps parser env c events d) :
    ∃ b, FreeSteps parser env c events b ∧ b.forget = d.forget := by
  induction h with
  | refl c => exact ⟨c, .refl c, rfl⟩
  | @head c c' d e events hstep _ ih =>
    have hsame : (parser.step env c.forget).forget = (parser.step env c).forget := by
      refine forget_step env fun n hrefused => ?_
      obtain ⟨name, b, hstop, -⟩ := hrefused.step env
      rw [hstep] at hstop
      cases hstop
    rw [hstep] at hsame
    cases hfree : parser.step env c.forget with
    | stop outcome b =>
      rw [hfree] at hsame
      cases hsame
    | next e' b =>
      rw [hfree] at hsame
      obtain ⟨rfl, hb⟩ := Move.next.inj hsame
      obtain ⟨b', hsteps, hb'⟩ := ih
      obtain ⟨b'', hsteps, hb''⟩ := hsteps.congr hb
      exact ⟨b'', .head hfree hsteps, hb''.trans hb'⟩

theorem Steps.runFreely {events : List (Event V P)} {outcome : Except ParseError (Option V)}
    (hsteps : Steps parser env c events d) (hstop : parser.step env d = .stop outcome c')
    (hfine : ∀ n, ¬ Refused parser d n) {fuel : Nat} (hfuel : events.length < fuel) :
    parser.runFreely env fuel c = some ⟨outcome, c'.params, c'.reported.reverse⟩ ∧
      parser.eventsFreely env fuel c = events := by
  obtain ⟨b, hfree, hb⟩ := hsteps.free
  have hsame := forget_step env hfine
  rw [hstop] at hsame
  cases hlast : parser.step env d.forget with
  | next e b' =>
    rw [hlast] at hsame
    cases hsame
  | stop outcome' b' =>
    rw [hlast] at hsame
    obtain ⟨rfl, hb'⟩ := Move.stop.inj hsame
    have hparams : b'.params = c'.params := (congrArg Config.params hb' :)
    have hreports : b'.reported = c'.reported := (congrArg Config.reported hb' :)
    rw [← hparams, ← hreports]
    exact hfree.stop (by rwa [hb]) hfuel

section Cycle

variable {g : Grammar} {actions : Actions V P} {t : Nat} {la : Lookahead V} {input : Source V}

theorem step_expand (env : Environment V P) {n p : Nat} {goals : List Goal}
    (hgoals : c.goals = .symbol (.nonterminal n) :: goals)
    (hlook : parser.look c = .ok (la, input)) (ht : la.terminal = some t)
    (hp : parser.table.predict n t = some p) : parser.step env c.forget =
      .next (.expand p)
        (expanded c.forget goals la input (parser.table.production p).right.toList n p) := by
  have hlook' : parser.look c.forget = .ok (la, input) := hlook
  have hgoals' : c.forget.goals = .symbol (.nonterminal n) :: goals := hgoals
  have hnone : c.forget.pending = [] := rfl
  simp only [Parser.step, hgoals', hlook', Parser.expand, ht, Option.bind_some, hp, hnone,
    List.any_nil, Bool.false_eq_true, if_false, expanded]

theorem step_reduce (env : Environment V P) (plain : Plain parser.actions) {p : Nat}
    {goals : List Goal}
    (hgoals : c.goals = .reduce p :: goals) (hlook : parser.look c = .ok (la, input))
    (hle : (parser.table.production p).right.size ≤ c.entries.length) :
    ∃ e v after, parser.step env c = .next e
      (reduced c goals la input (parser.table.production p).right.size v after) := by
  let context := Context.ofReduction p (parser.table.production p).aliases
    (c.entries.take (parser.table.production p).right.size).reverse
    (c.entries.drop (parser.table.production p).right.size) c.params
  obtain ⟨v, after, hrun⟩ := plain.run env.nested context
  refine ⟨.reduce context, v, after, ?_⟩
  simp only [Parser.step, hgoals, hlook, Parser.reduce, if_neg (Nat.not_lt.mpr hle), context,
    hrun]
  rfl

def Passes (parser : Parser V P) (env : Environment V P) (t : Nat) (α : List Symbol) : Prop :=
  ∀ (c : Config V P) (goals : List Goal) (la : Lookahead V) (input : Source V),
    c.goals = α.map .symbol ++ goals → parser.look c = .ok (la, input) →
    la.terminal = some t → ∃ events d, FreeSteps parser env c events d ∧ d.goals = goals ∧
      parser.look d = .ok (la, input) ∧ d.entries.length = c.entries.length + α.length

theorem passes_of_forall {α : List Symbol} (h : ∀ x ∈ α, Passes parser env t [x]) :
    Passes parser env t α := by
  induction α with
  | nil =>
    intro c goals la input hgoals hlook ht
    exact ⟨[], c, .refl c, hgoals, hlook, rfl⟩
  | cons x α ih =>
    intro c goals la input hgoals hlook ht
    rw [List.forall_mem_cons] at h
    obtain ⟨events, d, hsteps, hgoals', hlook', hheight⟩ :=
      h.1 c (α.map .symbol ++ goals) la input hgoals hlook ht
    obtain ⟨later, b, hsteps', hgoals'', hlook'', hheight'⟩ := ih h.2 d goals la input hgoals'
      hlook' ht
    refine ⟨events ++ later, b, hsteps.trans hsteps', hgoals'', hlook'', ?_⟩
    simp only [List.length_cons, List.length_nil] at hheight ⊢
    omega

theorem passes_of_vanishes (plain : Plain actions) (env : Environment V P) {x : Symbol}
    (h : Vanishes g t x) : Passes ⟨.generate g, actions⟩ env t [x] := by
  induction h with
  | @intro n p hp _ ih =>
    intro c goals la input hgoals hlook ht
    have hexpand := step_expand env hgoals hlook ht hp
    obtain ⟨events, d, hsteps, hgoals', hlook', hheight⟩ := passes_of_forall ih
      (expanded c.forget goals la input (g.production p).right.toList n p) (.reduce p :: goals)
      la input rfl rfl ht
    -- what was recognised of the right side is on the stack
    have hle : (g.production p).right.size ≤ d.forget.entries.length := by
      change _ ≤ d.entries.length
      rw [hheight, Array.length_toList]
      omega
    obtain ⟨e, v, after, hreduce⟩ :=
      step_reduce (c := d.forget) env plain hgoals' hlook' hle
    refine ⟨_, _, .head hexpand (hsteps.trans (.head hreduce (.refl _))), rfl, rfl, ?_⟩
    have hrest : (d.entries.drop (g.production p).right.size).length = c.entries.length := by
      rw [List.length_drop, hheight, Array.length_toList]
      exact Nat.add_sub_cancel _ _
    change (_ :: d.entries.drop (g.production p).right.size).length = _
    rw [List.length_cons, hrest]
    rfl

theorem endless (plain : Plain actions) (env : Environment V P) {n : Nat}
    (hcycle : Relation.TransGen (Deeper g t) n n) (fuel : Nat) {m : Nat}
    (hm : Relation.TransGen (Deeper g t) n m) {c : Config V P} {goals : List Goal}
    (hgoals : c.goals = .symbol (.nonterminal m) :: goals)
    (hlook : (⟨.generate g, actions⟩ : Parser V P).look c = .ok (la, input))
    (ht : la.terminal = some t) :
    (⟨.generate g, actions⟩ : Parser V P).runFreely env fuel c = none := by
  induction fuel using Nat.strong_induction_on generalizing m c goals with
  | _ fuel ih =>
    cases fuel with
    | zero => rfl
    | succ fuel =>
      -- the next nonterminal on the way round
      obtain ⟨m', hm', p, α, β, hp, hright, hα⟩ :
          ∃ m', Relation.TransGen (Deeper g t) n m' ∧ Deeper g t m' m := by
        cases hm with
        | single h => exact ⟨n, hcycle, h⟩
        | tail h h' => exact ⟨_, h, h'⟩
      have hexpand := step_expand env hgoals hlook ht hp
      simp only [Parser.runFreely, hexpand]
      have hpasses := passes_of_forall fun x hx => passes_of_vanishes plain env (hα x hx)
      have hgoals' : (g.production p).right.toList.map Goal.symbol ++ .reduce p :: goals =
          α.map .symbol ++ .symbol (.nonterminal m') :: (β.map .symbol ++ .reduce p :: goals) := by
        rw [hright, List.map_append, List.map_cons, List.append_assoc]
        rfl
      obtain ⟨events, d, hsteps, hgoals', hlook', -⟩ := hpasses
        (expanded c.forget goals la input (g.production p).right.toList m p) _ la input hgoals'
        rfl ht
      exact hsteps.unfinished fun k hk => ih k (Nat.lt_succ_of_le hk) hm' hgoals' hlook'

end Cycle

variable {g : Grammar} {actions : Actions V P}

/-- The goals are rests of right sides one inside the other, and the open expansions lead down to
them on the terminal that is ahead. With no lookahead in hand none is open. -/
structure Descending (g : Grammar) (c : Config V P) : Prop where
  frames : ∃ γ, Open g γ c.goals
  fresh : c.lookahead = none → c.pending = []
  ending : ∀ la, c.lookahead = some la → la.token = none →
    la.terminal = some Symbol.endOfInput
  descends : ∀ la t, c.lookahead = some la → la.terminal = some t →
    Descends g t c.goals c.pending.reverse

theorem descending_start (source : Source V) (params : P) :
    Descending g (start source params) :=
  ⟨⟨[], .start⟩, fun _ => rfl, by simp [start], by simp [start]⟩

theorem Effect.frames (wf : g.WellFormed) {e : Event V P}
    (heffect : Effect ⟨.generate g, actions⟩ env c e c') {γ : List Symbol}
    (h : Open g γ c.goals) : ∃ γ', Open g γ' c'.goals := by
  cases heffect with
  | consume hgoals =>
    rw [hgoals] at h
    exact ⟨_, h.consume⟩
  | ending hgoals =>
    rw [hgoals] at h
    exact ⟨_, h.consume⟩
  | expand hgoals _ _ hp =>
    rw [hgoals] at h
    obtain ⟨hlt, hleft, -⟩ :=
      PredictionTable.mem_candidates.mp (PredictionTable.candidate_of_predict wf hp)
    exact ⟨_, h.expand hlt hleft⟩
  | reduce hgoals =>
    rw [hgoals] at h
    obtain ⟨-, δ, -, hopen⟩ := h.reduce
    exact ⟨_, hopen⟩

theorem Descending.look (h : Descending g c) {la : Lookahead V} {input : Source V}
    (hlook : (⟨.generate g, actions⟩ : Parser V P).look c = .ok (la, input)) :
    (la.token = none → la.terminal = some Symbol.endOfInput) ∧
      ∀ t, la.terminal = some t → Descends g t c.goals c.pending.reverse := by
  cases hheld : c.lookahead with
  | some held =>
    simp only [Parser.look, hheld, Except.ok.injEq, Prod.mk.injEq] at hlook
    obtain ⟨rfl, -⟩ := hlook
    exact ⟨h.ending held hheld, fun t => h.descends held t hheld⟩
  | none =>
    refine ⟨fun htoken => ?_, fun t _ => ?_⟩
    · simp only [Parser.look, hheld] at hlook
      split at hlook
      · cases hlook
        rfl
      · cases hlook
        cases htoken
      · cases hlook
    · rw [h.fresh hheld]
      exact .nil _

theorem Descending.effect (wf : g.WellFormed) {e : Event V P} (h : Descending g c)
    (heffect : Effect ⟨.generate g, actions⟩ env c e c') : Descending g c' := by
  obtain ⟨γ, hframes⟩ := h.frames
  have hnext := heffect.frames wf hframes
  -- the lookahead is given up with a token, and then no expansion is open any more
  obtain ⟨la, input, hlook, hheld⟩ : ∃ la input,
      (⟨.generate g, actions⟩ : Parser V P).look c = .ok (la, input) ∧
        (c'.lookahead = none ∧ c'.pending = [] ∨ c'.lookahead = some la) := by
    cases heffect with
    | consume _ hlook => exact ⟨_, _, hlook, Or.inl ⟨rfl, rfl⟩⟩
    | ending _ hlook => exact ⟨_, _, hlook, Or.inr rfl⟩
    | expand _ hlook => exact ⟨_, _, hlook, Or.inr rfl⟩
    | reduce _ hlook => exact ⟨_, _, hlook, Or.inr rfl⟩
  obtain ⟨hend, hdescends⟩ := h.look hlook
  rcases hheld with ⟨hnone, hpending⟩ | hsome
  · refine ⟨hnext, fun _ => hpending, ?_, ?_⟩ <;> simp [hnone]
  · refine ⟨hnext, by simp [hsome], ?_, ?_⟩
    · intro la' hla'
      rw [hsome] at hla'
      cases hla'
      exact hend
    · intro la' t hla' ht
      rw [hsome] at hla'
      cases hla'
      have hclosed : la.token = none → t = Symbol.endOfInput := fun htoken =>
        Option.some.inj (ht.symm.trans (hend htoken))
      rcases heffect.descends wf hframes hlook ht hclosed (hdescends t ht) with hnil | hdescends'
      · rw [hnil]
        exact .nil _
      · exact hdescends'

theorem Descending.steps (wf : g.WellFormed) {events : List (Event V P)} (h : Descending g c)
    (hsteps : Steps ⟨.generate g, actions⟩ env c events d) : Descending g d := by
  generalize hparser : (⟨.generate g, actions⟩ : Parser V P) = parser at hsteps
  induction hsteps with
  | refl => exact h
  | head hstep _ ih =>
    subst hparser
    exact ih (h.effect wf (step_effect hstep))

theorem Descending.endless (h : Descending g c) (plain : Plain actions) {n : Nat}
    (hrefused : Refused ⟨.generate g, actions⟩ c n) (env : Environment V P) (fuel : Nat) :
    (⟨.generate g, actions⟩ : Parser V P).runFreely env fuel c = none := by
  obtain ⟨goals, la, input, p, hgoals, hlook, hp, e, he, rfl⟩ := hrefused
  obtain ⟨t, ht, -⟩ := Option.bind_eq_some_iff.mp hp
  have hdescends := (h.look hlook).2 t ht
  rw [hgoals] at hdescends
  have hcycle := hdescends.deeper e (List.mem_reverse.mpr he)
  exact Predictive.endless plain env hcycle fuel hcycle hgoals hlook ht

theorem Steps.unfinished (wf : g.WellFormed) (plain : Plain actions)
    {events : List (Event V P)} (hc : Descending g c)
    (hsteps : Steps ⟨.generate g, actions⟩ env c events d) {n : Nat}
    (hrefused : Refused ⟨.generate g, actions⟩ d n) (fuel : Nat) :
    (⟨.generate g, actions⟩ : Parser V P).runFreely env fuel c = none := by
  obtain ⟨b, hfree, hb⟩ := hsteps.free
  refine hfree.unfinished fun k _ => ?_
  cases k with
  | zero => rfl
  | succ k =>
    have hnone := (hc.steps wf hsteps).endless plain hrefused env (k + 1)
    rw [Parser.runFreely] at hnone ⊢
    rwa [hb]

/-- The check against left recursion ends a run exactly if the run without it would never end.
Every other run, which is one that the check does not end, has the same result without it, with
the same steps and so the same contexts of the actions, and the same reports. The caller may
itself answer a report with an error of this kind; unless it does, no other run ends with one. -/
theorem leftRecursion_exact (hg : g.Defined) {actions : Actions V P} (plain : Plain actions)
    (env : Environment V P) (source : Source V) (params : P) :
    let parser : Parser V P := ⟨.generate g, actions⟩
    let c := start source params
    ∃ n r, (∀ fuel, n ≤ fuel → parser.run env fuel c = some r) ∧
      ((∃ name, r.outcome = .error (.leftRecursion name) ∧ r.reported = []) ↔
        ∀ fuel, parser.runFreely env fuel c = none) ∧
      ((∀ reports error name, env.onError reports error ≠ some (.leftRecursion name)) →
        ((∃ name, r.outcome = .error (.leftRecursion name)) ↔
          ∀ fuel, parser.runFreely env fuel c = none)) ∧
      (¬ (∃ name, r.outcome = .error (.leftRecursion name) ∧ r.reported = []) →
        ∀ fuel, n ≤ fuel → parser.runFreely env fuel c = some r ∧
          parser.eventsFreely env fuel c = parser.events env fuel c) := by
  intro parser c
  obtain ⟨events, d, outcome, d', hsteps, hstop⟩ :=
    exists_stop parser env (guarded_start _ source params)
  refine ⟨events.length + 1, _, fun fuel hfuel => (hsteps.run hstop hfuel).1, ?_⟩
  by_cases hrefused : ∃ n, Refused parser d n
  · obtain ⟨n, hrefused⟩ := hrefused
    have hnever : ∀ fuel, parser.runFreely env fuel c = none :=
      hsteps.unfinished hg.wellFormed plain (descending_start source params) hrefused
    obtain ⟨name, d'', hstop', hsame⟩ := hrefused.step env
    rw [hstop] at hstop'
    cases hstop'
    have hsilent : d'.reported.reverse = [] := by
      rw [hsame, hsteps.reported]
      rfl
    exact ⟨⟨fun _ => hnever, fun _ => ⟨name, rfl, hsilent⟩⟩,
      fun _ => ⟨fun _ => hnever, fun _ => ⟨name, rfl⟩⟩,
      fun hnot => absurd ⟨name, rfl, hsilent⟩ hnot⟩
  · have hresult : ∀ fuel, events.length + 1 ≤ fuel →
        parser.runFreely env fuel c = some ⟨outcome, d'.params, d'.reported.reverse⟩ ∧
          parser.eventsFreely env fuel c = parser.events env fuel c := by
      intro fuel hfuel
      rw [(hsteps.run hstop hfuel).2]
      exact hsteps.runFreely hstop (fun n h => hrefused ⟨n, h⟩) hfuel
    have hends : ¬ ∀ fuel, parser.runFreely env fuel c = none := by
      intro hnever
      have hrun := (hresult _ (Nat.le_refl _)).1
      rw [hnever] at hrun
      cases hrun
    -- left to account for: an error of this kind that answers a report
    refine ⟨⟨?_, fun h => absurd h hends⟩, fun hanswers => ⟨?_, fun h => absurd h hends⟩,
      fun _ => hresult⟩
    · rintro ⟨name, rfl, hsilent⟩
      rcases refused_of_step hstop with h | ⟨error, -, hreported⟩
      · exact absurd h hrefused
      · simp [hreported] at hsilent
    · rintro ⟨name, rfl⟩
      rcases refused_of_step hstop with h | ⟨error, hanswer, -⟩
      · exact absurd h hrefused
      · exact absurd hanswer (hanswers _ _ _)

theorem leftRecursion_exact_tolerant :
    let parser : Parser Nat Unit := ⟨.generate .tolerant, #[]⟩
    let c := start ((tokensOf ["x"]).map .ok) ()
    parser.run silent 3 c = some ⟨.error (.leftRecursion "L"), (), []⟩ ∧
      ∀ fuel, parser.runFreely silent fuel c = none := by
  intro parser c
  have hrun : parser.run silent 3 c = some ⟨.error (.leftRecursion "L"), (), []⟩ := by
    cbv
  obtain ⟨n, r, hr, hiff, -⟩ := leftRecursion_exact Grammar.tolerant_defined
    (ShiftReduce.plain_empty (V := Nat) (P := Unit)) silent ((tokensOf ["x"]).map .ok) ()
  obtain ⟨d, outcome, d', hsteps, hstop, hresult⟩ := exists_steps_of_run hrun
  have hmore := (hsteps.run hstop (Nat.lt_of_lt_of_le (Nat.lt_succ_self _) (Nat.le_max_left _ n))).1
  rw [hr _ (Nat.le_max_right _ n), ← hresult] at hmore
  cases hmore
  exact ⟨hrun, hiff.mp ⟨"L", rfl, rfl⟩⟩

end TableParsing.Predictive
