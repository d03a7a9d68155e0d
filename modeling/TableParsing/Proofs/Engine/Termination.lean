import TableParsing.Proofs.Engine.Recovery
import TableParsing.Proofs.Engine.ReductionChain

/-! Every run over a table without conflicts ends, if every nonterminal of the grammar derives a
word. The reductions made on a stack before anything is read form a chain, and chains are
bounded. A shift consumes a token; a recovery consumes one or uses up the allowance that the
next shift gives back, so that shifts and recoveries are bounded by the tokens of the source. -/

namespace TableParsing.ShiftReduce

variable {V P : Type} {g : Grammar} {a : Automaton} {parser : Parser V P}
  {env : Environment V P} {c c' : Config V P}

inductive Settled (parser : Parser V P) (env : Environment V P) (c : Config V P) : Prop
  | shift {la : Lookahead V} {c' : Config V P} :
      parser.step env c = .next (.shift la) c' → Settled parser env c
  | accept {v : Option V} {c' : Config V P} :
      parser.step env c = .stop (.ok v) c' → Settled parser env c
  | unexpected : parser.meetsError c = true → Settled parser env c
  | lexical {e : LexError} {c' : Config V P} :
      parser.step env c = .stop (.error (.lexical e)) c' → Settled parser env c

def Move.IsReduction (m : Move V P) : Prop := ∃ context c', m = .next (.reduce context) c'

/-- What is left to be paid for by shifts and recoveries: two for a token, and one for a
recovery that may come before the next shift. -/
def charge (c : Config V P) : Nat := 2 * c.unread.length + allowance c

section Run

variable (wf : g.WellFormed) (hf : a.Faithful g) (ht : parser.tables.Realizes g a)

include wf hf ht

theorem exists_reduction {γ : List Symbol} (hγ : Stacked a γ c.states)
    (h : (parser.step env c).IsReduction) : ∃ c' context p δ,
      parser.step env c = .next (.reduce context) c' ∧
      γ = (g.production p).right.toList.reverse ++ δ ∧ Viable g γ (.completed g p) ∧
      Stacked a (.nonterminal (g.production p).left :: δ) c'.states := by
  obtain ⟨context, c', hstep⟩ := h
  obtain ⟨p, δ, hδ, hcompleted, hstacked⟩ := (step_effect hstep).stacked_reduce wf hf ht hγ
  exact ⟨c', context, p, δ, hstep, hδ, hcompleted, hstacked⟩

theorem exists_steps_settled (env : Environment V P) {γ : List Symbol} {bound : Nat}
    (hγ : Stacked a γ c.states) (hbound : ∀ ps, Chain g γ ps → ps.length ≤ bound) :
    ∃ hist d, Steps parser env c hist d ∧ hist.length ≤ bound ∧
      (∀ m ∈ hist, m.2.IsReduction) ∧ (∃ δ, Stacked a δ d.states) ∧
      ¬ (parser.step env d).IsReduction := by
  induction bound generalizing c γ with
  | zero =>
    refine ⟨[], c, .refl c, Nat.le_refl 0, by simp, ⟨γ, hγ⟩, fun hreduction => ?_⟩
    obtain ⟨_, _, p, δ, -, rfl, hcompleted, -⟩ := exists_reduction wf hf ht hγ hreduction
    exact absurd (hbound [p] (.reduce hcompleted (.done _))) (by simp)
  | succ bound ih =>
    by_cases hreduction : (parser.step env c).IsReduction
    · obtain ⟨c', context, p, δ, hstep, rfl, hcompleted, hstacked⟩ :=
        exists_reduction wf hf ht hγ hreduction
      have hlater : ∀ ps, Chain g (.nonterminal (g.production p).left :: δ) ps →
          ps.length ≤ bound := by
        intro ps hps
        exact Nat.le_of_succ_le_succ (hbound (p :: ps) (.reduce hcompleted hps))
      obtain ⟨hist, d, hsteps, hlength, hall, hd, hsettled⟩ := ih hstacked hlater
      refine ⟨_, d, .head hstep hsteps, Nat.succ_le_succ hlength, ?_, hd, hsettled⟩
      rw [List.forall_mem_cons]
      exact ⟨⟨context, c', rfl⟩, hall⟩
    · exact ⟨[], c, .refl c, Nat.zero_le _, by simp, ⟨γ, hγ⟩, hreduction⟩

theorem settled_of_plain (plain : Plain parser.actions) {γ : List Symbol}
    (hγ : Stacked a γ c.states) (h : ¬ (parser.step env c).IsReduction) :
    Settled parser env c := by
  obtain ⟨s, states, hstates, -⟩ := hγ.exists_top
  rw [hstates] at hγ
  -- no action ends the run, so that a reduction called for is made
  have reduces : ∀ {c₁ p}, c₁.states = s :: states →
      (∃ st, a.states[s]? = some st ∧ p ∈ st.reduces.map (·.1)) →
      (parser.reduce env c₁ p).IsReduction := by
    intro c₁ p hstates₁ ⟨st, hst, hp⟩
    obtain ⟨-, state, deeper, next, -, hdrop, -, hgoto⟩ := exists_goto wf hf hγ hst hp
    rw [← hstates₁] at hdrop
    obtain ⟨v, after, -, hreduce⟩ := reduce_next env ht plain hdrop hgoto
    exact ⟨_, _, hreduce⟩
  cases step_cases parser env c with
  | empty hempty _ =>
    rw [hstates] at hempty
    cases hempty
  | lexical _ _ _ hmove => exact .lexical hmove
  | shift _ _ _ _ hmove => exact .shift hmove
  | accept _ _ _ _ hmove => exact .accept hmove
  | error hstates hdefault hlook haction _ =>
    exact .unexpected (meetsError_of_error hstates hdefault hlook haction)
  | reduce hstates' hheld hmove =>
    rw [hmove] at h
    rw [hstates] at hstates'
    cases hstates'
    rcases hheld with ⟨rfl, hdefault⟩ | ⟨-, la, input, -, rfl, haction⟩
    · exact absurd (reduces hstates (ht.default hdefault)) h
    · obtain ⟨u, -, hu⟩ := Tables.actionOn_eq haction (by simp)
      refine absurd (reduces ?_ (ht.reduce hu)) h
      exact hstates

end Run

section Charge

variable (wf : g.WellFormed) (hf : a.Faithful g) (ht : parser.tables.Realizes g a)

include hf ht

theorem Effect.charge_reduce {context : Context V P}
    (h : Effect parser env c (.reduce context) c') (hc : Reading a c) : charge c' = charge c := by
  obtain ⟨hunread, hallowance⟩ := h.pays hf ht hc
  rw [charge, charge, hunread, hallowance]

theorem Effect.charge_lt {e : Event V P} (h : Effect parser env c e c') (hc : Reading a c)
    (hne : ∀ context, e ≠ .reduce context) : charge c' < charge c := by
  have hpays := h.pays hf ht hc
  have hallowance := allowance_le c
  have hallowance' := allowance_le c'
  rw [charge, charge]
  cases e with
  | reduce context => exact absurd rfl (hne context)
  | shift la =>
    simp only at hpays
    omega
  | recover popped discarded =>
    simp only at hpays
    omega

include wf

theorem Steps.charge_eq {hist : List (Config V P × Move V P)} {d : Config V P}
    (h : Steps parser env c hist d) (hall : ∀ m ∈ hist, m.2.IsReduction) (hc : Reading a c) :
    Reading a d ∧ charge d = charge c := by
  induction h with
  | refl => exact ⟨hc, rfl⟩
  | head hstep _ ih =>
    rw [List.forall_mem_cons] at hall
    obtain ⟨⟨context, d', heq⟩, hall⟩ := hall
    cases heq
    have heffect := step_effect hstep
    obtain ⟨hd, hcharge⟩ := ih hall (heffect.reading wf hf ht hc)
    exact ⟨hd, hcharge.trans (heffect.charge_reduce hf ht hc)⟩

theorem exists_stop (env : Environment V P)
    (hbound : ∀ {γ states}, Stacked a γ states → ∃ bound, ∀ ps, Chain g γ ps → ps.length ≤ bound)
    (hc : Reading a c) : ∃ hist d outcome d', Steps parser env c hist d ∧
      parser.step env d = .stop outcome d' := by
  generalize hn : charge c = n
  induction n using Nat.strong_induction_on generalizing c with
  | _ n ih =>
    obtain ⟨γ, hγ⟩ := hc.path.stacked
    obtain ⟨bound, hchains⟩ := hbound hγ
    obtain ⟨hist, d, hsteps, -, hall, -, hsettled⟩ :=
      exists_steps_settled wf hf ht env hγ hchains
    obtain ⟨hd, hcharge⟩ := hsteps.charge_eq wf hf ht hall hc
    cases hstep : parser.step env d with
    | stop outcome d' => exact ⟨hist, d, outcome, d', hsteps, hstep⟩
    | next e d' =>
      have heffect := step_effect hstep
      have hlt := heffect.charge_lt hf ht hd
        fun context he => hsettled ⟨context, d', by rw [hstep, he]⟩
      obtain ⟨later, f, outcome, f', hlater, hstop⟩ :=
        ih (charge d') (by omega) (heffect.reading wf hf ht hd) rfl
      exact ⟨_, f, outcome, f', hsteps.trans (.head hstep hlater), hstop⟩

end Charge

/-- Over a table without conflicts, of a grammar whose nonterminals all derive words, every run
ends, whatever the source, the actions, the nested parses and the answers to error reports, with
all its recoveries. From any stack that follows a path of the automaton, and whatever the
lookahead in hand and the input, only boundedly many reductions are made before a shift, an
accept or an error. -/
theorem run_terminates (hg : g.Defined) (hproductive : g.Productive) {m : Method}
    (ha : m.automaton g = .ok a) (hconflicts : (Table.generate g a).conflicts = [])
    (actions : Actions V P) (env : Environment V P) :
    let parser : Parser V P := ⟨.ofTable (Table.generate g a), actions⟩
    (∀ (source : Source V) (params : P), ∃ n r, ∀ fuel, n ≤ fuel →
      parser.run env fuel (start source params) = some r) ∧
    ∀ γ states, Stacked a γ states → ∃ bound, ∀ c : Config V P, c.states = states →
      Plain actions → ∃ hist d, Steps parser env c hist d ∧ hist.length ≤ bound ∧
        (∀ m ∈ hist, m.2.IsReduction) ∧ Settled parser env d := by
  intro parser
  have wf := hg.wellFormed
  obtain ⟨hf, hcovers⟩ := Method.automaton_spec wf ha
  have ht : parser.tables.Realizes g a := realizes_generate
  have hd : parser.tables.Decides g a := decides_generate wf hf hcovers hconflicts
  have hbound : ∀ {γ states}, Stacked a γ states →
      ∃ bound, ∀ ps, Chain g γ ps → ps.length ≤ bound :=
    fun hγ => hd.exists_bound wf hf hproductive hγ
  refine ⟨fun source params => ?_, fun γ states hγ => ?_⟩
  · obtain ⟨hist, d, outcome, d', hsteps, hstop⟩ :=
      exists_stop wf hf ht env hbound (reading_start source params)
    exact ⟨hist.length + 1, _, fun fuel hfuel => (hsteps.run hstop hfuel).1⟩
  · obtain ⟨bound, hchains⟩ := hbound hγ
    refine ⟨bound, fun c hstates plain => ?_⟩
    rw [← hstates] at hγ
    obtain ⟨hist, d, hsteps, hlength, hall, ⟨δ, hδ⟩, hsettled⟩ :=
      exists_steps_settled wf hf ht env hγ hchains
    exact ⟨hist, d, hsteps, hlength, hall, settled_of_plain wf hf ht plain hδ hsettled⟩

theorem productive_tolerant : Grammar.tolerant.Productive := by
  have hx : Grammar.tolerant.Rewrites [.nonterminal 1] [.terminal 2] :=
    .rule (p := 2) [] [] (by decide)
  have haccept : Grammar.tolerant.Rewrites [.nonterminal 0] [.nonterminal 1, .terminal 0] :=
    .rule (p := 0) [] [] (by decide)
  have hstart : Grammar.tolerant.Rewrites [.nonterminal 1, .terminal 0]
      [.terminal 2, .terminal 0] := .rule (p := 2) [] [.terminal 0] (by decide)
  intro n hn
  match n, hn with
  | 0, _ => exact ⟨[2, 0], .head haccept (.single hstart)⟩
  | 1, _ => exact ⟨[2], .single hx⟩

theorem run_tolerant :
    let parser : Parser Nat Unit := ⟨.ofTable (.generate .tolerant .tolerant), #[]⟩
    Grammar.tolerant.Productive ∧ (Table.generate .tolerant .tolerant).conflicts = [] ∧
    (∃ n r, ∀ fuel, n ≤ fuel →
      parser.run silent fuel (start ((tokensOf ["x", "x", "z"]).map .ok) ()) = some r) ∧
    ∃ bound, ∀ c : Config Nat Unit, c.states = [2, 0] → ∃ hist d, Steps parser silent c hist d ∧
      hist.length ≤ bound ∧ (∀ m ∈ hist, m.2.IsReduction) ∧ Settled parser silent d := by
  intro parser
  have hconflicts : (Table.generate .tolerant .tolerant).conflicts = [] := by
    rw [Table.generate_tolerant]
    rfl
  have hends := run_terminates Grammar.tolerant_defined productive_tolerant Method.slr_tolerant
    hconflicts (#[] : Actions Nat Unit) silent
  have hstacked : Stacked .tolerant [.terminal 2] [2, 0] := .push .base rfl
  obtain ⟨bound, hbound⟩ := hends.2 _ _ hstacked
  exact ⟨productive_tolerant, hconflicts, hends.1 _ (), bound,
    fun c hc => hbound c hc plain_empty⟩

end TableParsing.ShiftReduce
