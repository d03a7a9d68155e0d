import TableParsing.Proofs.Engine.Move
import TableParsing.Proofs.Engine.Run

/-! The stack of states is always a path of the automaton from its first state. A completed
production has its right side on top of the path, beneath it a state with a goto on its left
side, so no reduction finds the stack too short or a goto missing, whatever actions do and
however often the engine recovers. -/

namespace TableParsing.ShiftReduce

variable {V P : Type} {g : Grammar} {a : Automaton}

/-- The stacks of a configuration follow a path of the automaton and are equally high. -/
structure OnPath (a : Automaton) (c : Config V P) : Prop where
  stacked : ∃ γ, Stacked a γ c.states
  heights : c.states.length = c.entries.length

def Move.config : Move V P → Config V P
  | .next _ c => c
  | .stop _ c => c

/-- A move keeps to a path, or ends in none of the errors of the engine itself. -/
def Move.Safe (a : Automaton) : Move V P → Prop
  | .next _ c => OnPath a c
  | .stop outcome c => c.states.length = c.entries.length ∧
      outcome ≠ .error .missingGoto ∧ outcome ≠ .error .emptyStack

theorem Move.Safe.heights {m : Move V P} (h : m.Safe a) :
    m.config.states.length = m.config.entries.length := by
  cases m with
  | next e c => exact OnPath.heights h
  | stop outcome c => exact h.1

theorem OnPath.of_eq {c d : Config V P} (h : OnPath a c) (hstates : d.states = c.states)
    (hentries : d.entries = c.entries) : OnPath a d :=
  ⟨hstates ▸ h.stacked, by rw [hstates, hentries, h.heights]⟩

theorem onPath_start (source : Source V) (params : P) : OnPath a (start source params) :=
  ⟨⟨[], .base⟩, rfl⟩

theorem Tables.action_of_shiftsError {t : Tables} {s next : Nat}
    (h : t.shiftsError s = some next) : t.action s Symbol.errorToken = .shift next := by
  rw [Tables.shiftsError] at h
  split at h
  case h_1 haction =>
    cases h
    exact haction
  case h_2 => cases h

theorem recoveryPoint_topmost {t : Tables} {states : List Nat} {k popped next : Nat}
    (h : t.recoveryPoint states k = some (popped, next)) : ∃ i s below, popped = k + i ∧
      states.drop i = s :: below ∧ t.shiftsError s = some next ∧
      ∀ s' ∈ states.take i, t.shiftsError s' = none := by
  induction states generalizing k with
  | nil => cases h
  | cons s states ih =>
    rw [Tables.recoveryPoint] at h
    split at h
    case h_1 hs =>
      cases h
      exact ⟨0, s, states, rfl, rfl, hs, by simp⟩
    case h_2 hs =>
      obtain ⟨i, s', below, rfl, hdrop, hs', habove⟩ := ih h
      refine ⟨i + 1, s', below, by omega, hdrop, hs', ?_⟩
      rw [List.take_succ_cons, List.forall_mem_cons]
      exact ⟨hs, habove⟩

section Moves

variable {parser : Parser V P} {env : Environment V P} (ht : parser.tables.Realizes g a)

include ht

theorem recoveryPoint_spec {states : List Nat} {k popped next : Nat}
    (h : parser.tables.recoveryPoint states k = some (popped, next)) :
    ∃ i s rest, popped = k + i ∧ states.drop i = s :: rest ∧
      a.step s (.terminal Symbol.errorToken) = some next := by
  obtain ⟨i, s, rest, hi, hdrop, hs, -⟩ := recoveryPoint_topmost h
  exact ⟨i, s, rest, hi, hdrop, ht.shift (Tables.action_of_shiftsError hs)⟩

theorem recover_safe {c : Config V P} (h : OnPath a c) (error : SyntaxError) (la : Lookahead V)
    (discarded : List (Lookahead V)) : (parser.recover c error la discarded).Safe a := by
  cases recover_cases parser c error la discarded with
  | unexpected _ hmove | halted hmove | lexical hmove =>
    rw [hmove]
    exact ⟨h.heights, by simp, by simp⟩
  | @found popped next _ _ _ hpoint _ hmove =>
    rw [hmove]
    obtain ⟨i, s, rest, hi, hdrop, hstep⟩ := recoveryPoint_spec ht hpoint
    obtain rfl : popped = i := by omega
    obtain ⟨γ, hγ⟩ := h.stacked
    have hlt : popped < c.states.length := by
      by_contra hle
      rw [List.drop_eq_nil_of_le (by omega)] at hdrop
      cases hdrop
    -- what is left of the path after popping is extended by the recovery token
    have hδ := hγ.drop hlt
    rw [hdrop] at hδ
    refine ⟨⟨.terminal Symbol.errorToken :: γ.drop popped, ?_⟩, ?_⟩
    · rw [hdrop]
      exact .push hδ hstep
    · simp only [List.length_cons, List.length_drop, h.heights]

theorem fail_safe (hanswer : ∀ reported error,
      env.onError reported error ≠ some .missingGoto ∧
        env.onError reported error ≠ some .emptyStack)
    {c : Config V P} (h : OnPath a c) (state : Nat) (la : Lookahead V) :
    (parser.fail env c state la).Safe a := by
  cases fail_cases parser env c state la with
  | @answered e _ he hmove =>
    rw [hmove]
    have hne := hanswer c.reported (parser.tables.syntaxError state la c.states)
    rw [he] at hne
    exact ⟨h.heights, by simpa using hne.1, by simpa using hne.2⟩
  | unexpected _ _ hmove | halted _ hmove | lexical _ hmove =>
    rw [hmove]
    exact ⟨h.heights, by simp, by simp⟩
  | recover _ _ hmove =>
    rw [hmove]
    refine recover_safe ht ?_ _ _ _
    exact h.of_eq rfl rfl

variable (wf : g.WellFormed) (hf : a.Faithful g)

include wf hf

theorem reduce_safe {c : Config V P} {s p : Nat} {rest : List Nat} {st : Automaton.State}
    (h : OnPath a c) (hstates : c.states = s :: rest) (hst : a.states[s]? = some st)
    (hp : p ∈ st.reduces.map (·.1)) : (parser.reduce env c p).Safe a := by
  obtain ⟨γ, hγ⟩ := h.stacked
  rw [hstates] at hγ
  obtain ⟨δ, state, deeper, next, -, hdrop, hδ, hgoto⟩ := exists_goto wf hf hγ hst hp
  -- both stacks are cut by the length of the right side
  have hlen : (c.entries.drop (g.production p).right.size).length =
      (state :: deeper).length := by
    rw [← hdrop, ← hstates, List.length_drop, List.length_drop, h.heights]
  have hheights : (s :: rest).length = c.entries.length := by rw [← hstates, h.heights]
  simp only [Parser.reduce, ht.production, hstates, hdrop, ht.goto, hgoto]
  split
  · exact ⟨hheights, by simp, by simp⟩
  · exact ⟨hheights, by simp, by simp⟩
  · refine ⟨⟨_, .push hδ hgoto⟩, ?_⟩
    simp only [List.length_cons] at hlen ⊢
    omega

theorem step_safe (hanswer : ∀ reported error,
      env.onError reported error ≠ some .missingGoto ∧
        env.onError reported error ≠ some .emptyStack)
    {c : Config V P} (h : OnPath a c) : (parser.step env c).Safe a := by
  obtain ⟨γ, hγ⟩ := h.stacked
  cases step_cases parser env c with
  | empty hstates _ =>
    have hlen := hγ.length_eq
    rw [hstates] at hlen
    cases hlen
  | lexical _ _ _ hmove | accept _ _ _ _ hmove =>
    rw [hmove]
    exact ⟨h.heights, by simp, by simp⟩
  | shift hstates _ _ haction hmove =>
    rw [hmove]
    obtain ⟨u, -, haction⟩ := Tables.actionOn_eq haction (by simp)
    refine ⟨⟨.terminal u :: γ, ?_⟩, ?_⟩
    · rw [hstates] at hγ
      rw [shifted, hstates]
      exact .push hγ (ht.shift haction)
    · simp only [shifted, List.length_cons, h.heights]
  | reduce hstates hheld hmove =>
    rw [hmove]
    rcases hheld with ⟨rfl, hdefault⟩ | ⟨-, la, input, -, rfl, haction⟩
    · obtain ⟨st, hst, hp⟩ := ht.default hdefault
      exact reduce_safe ht wf hf h hstates hst hp
    · obtain ⟨u, -, haction⟩ := Tables.actionOn_eq haction (by simp)
      obtain ⟨st, hst, hp⟩ := ht.reduce haction
      exact reduce_safe ht wf hf (h.of_eq rfl rfl) hstates hst hp
  | error _ _ _ _ hmove =>
    rw [hmove]
    refine fail_safe ht hanswer ?_ _ _
    exact h.of_eq rfl rfl

end Moves

/-- No run over a generated table meets an error of the engine itself, whatever the source, the
actions, the nested parses and the answers to error reports, and before and after every step its
stacks are equally high. -/
theorem history_safe (hg : g.Defined) {m : Method} (ha : m.automaton g = .ok a)
    (actions : Actions V P) (env : Environment V P) (hanswer : ∀ reported error,
      env.onError reported error ≠ some .missingGoto ∧
        env.onError reported error ≠ some .emptyStack)
    (source : Source V) (params : P) (fuel : Nat) :
    let parser : Parser V P := ⟨.ofTable (Table.generate g a), actions⟩
    (∀ step ∈ parser.history env fuel (start source params),
      step.1.states.length = step.1.entries.length ∧
      step.2.config.states.length = step.2.config.entries.length ∧
      ∀ outcome c, step.2 = .stop outcome c →
        outcome ≠ .error .missingGoto ∧ outcome ≠ .error .emptyStack) ∧
    ∀ r, parser.run env fuel (start source params) = some r →
      r.outcome ≠ .error .missingGoto ∧ r.outcome ≠ .error .emptyStack := by
  intro parser
  have wf := hg.wellFormed
  have hf := (Method.automaton_spec wf ha).1
  have safe : ∀ c, OnPath a c → (parser.step env c).Safe a :=
    fun c h => step_safe realizes_generate wf hf hanswer h
  have keep : ∀ c e c', OnPath a c → parser.step env c = .next e c' → OnPath a c' := by
    intro c e c' h hstep
    have hsafe := safe c h
    rw [hstep] at hsafe
    exact hsafe
  have hall := history_invariant (Q := fun _ m => m.Safe a) keep safe fuel
    (onPath_start source params)
  have hstops : ∀ c outcome c', (c, .stop outcome c') ∈
      parser.history env fuel (start source params) →
        outcome ≠ .error .missingGoto ∧ outcome ≠ .error .emptyStack :=
    fun c outcome c' hmem => (hall _ hmem).2.2
  refine ⟨fun step hstep => ?_, fun r hr => ?_⟩
  · obtain ⟨hpath, hsafe⟩ := hall step hstep
    refine ⟨hpath.heights, hsafe.heights, fun outcome c hstop => ?_⟩
    apply hstops step.1 outcome c
    rwa [← hstop]
  · obtain ⟨hist, d, outcome, d', -, -, hhistory, rfl⟩ := exists_steps_of_run hr
    apply hstops d outcome d'
    rw [hhistory]
    exact List.mem_append_right _ List.mem_cons_self

theorem history_parentheses :
    let parser : Parser Nat Unit := ⟨.ofTable (.generate .parentheses .parentheses), #[]⟩
    let source : Source Nat :=
      (tokensOf ["(", ")", ")", "x", "error"]).map .ok ++ [.error ⟨"", 1, ""⟩]
    (∀ reported error, silent.onError reported error ≠ some .missingGoto ∧
      silent.onError reported error ≠ some .emptyStack) ∧
    ∀ step ∈ parser.history silent 20 (start source ()),
      step.1.states.length = step.1.entries.length := by
  intro parser source
  have hanswer : ∀ reported error, silent.onError reported error ≠ some .missingGoto ∧
      silent.onError reported error ≠ some .emptyStack := by simp [silent]
  refine ⟨hanswer, fun step hstep => ?_⟩
  have hsafe := history_safe Grammar.parentheses_defined Method.merged_parentheses #[] silent
    hanswer source () 20
  exact (hsafe.1 step hstep).1

end TableParsing.ShiftReduce
