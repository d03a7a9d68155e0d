import TableParsing.Proofs.Engine.ErrorPosition

/-! Errors are reported at a distance. A report is made only where an error is met while no
shifts are due, and the recovery after it makes three of them due; only shifts pay for them. So
each report but the last is paid for by three tokens of the source. -/

namespace TableParsing.ShiftReduce

variable {V P : Type} {parser : Parser V P} {env : Environment V P} {c c' d : Config V P}

theorem reported_reduce (parser : Parser V P) (env : Environment V P) (c : Config V P)
    (p : Nat) : (parser.reduce env c p).config.reported = c.reported := by
  cases reduce_cases parser env c p with
  | empty _ hmove | accept _ hmove | abort _ hmove | missing _ _ hmove | next _ _ _ hmove =>
    rw [hmove]
    rfl

theorem reported_of_clean (env : Environment V P) (h : parser.meetsError c = false) :
    (parser.step env c).config.reported = c.reported := by
  cases step_cases parser env c with
  | empty _ hmove | lexical _ _ _ hmove | shift _ _ _ _ hmove | accept _ _ _ _ hmove =>
    rw [hmove]
    rfl
  | reduce _ hheld hmove =>
    rw [hmove, reported_reduce]
    rcases hheld with ⟨rfl, -⟩ | ⟨-, la, input, -, rfl, -⟩ <;> rfl
  | error hstates hdefault hlook haction _ =>
    rw [meetsError_of_error hstates hdefault hlook haction] at h
    cases h

theorem reported_step (parser : Parser V P) (env : Environment V P) (c : Config V P) :
    (parser.meetsError c = true ∧ c.recovering = 0) ∧
        (∃ error, (parser.step env c).config.reported = error :: c.reported) ∨
      ¬ (parser.meetsError c = true ∧ c.recovering = 0) ∧
        (parser.step env c).config.reported = c.reported := by
  by_cases herror : parser.meetsError c = true
  · obtain ⟨s, states, la, input, hstates, hdefault, hlook, haction⟩ :=
      exists_of_meetsError herror
    rw [step_error hstates hdefault hlook haction, reported_fail]
    by_cases hzero : c.recovering = 0
    · exact Or.inl ⟨⟨herror, hzero⟩, _, if_pos hzero⟩
    · exact Or.inr ⟨fun h => hzero h.2, if_neg hzero⟩
  · exact Or.inr ⟨fun h => herror h.1, reported_of_clean env (Bool.not_eq_true _ ▸ herror)⟩

theorem recovering_of_reported {error : SyntaxError}
    (h : (parser.step env c).config.reported = error :: c.reported) :
    parser.meetsError c = true ∧ c.recovering = 0 := by
  rcases reported_step parser env c with ⟨herror, -⟩ | ⟨-, hsame⟩
  · exact herror
  · rw [hsame] at h
    exact absurd h.symm (List.cons_ne_self _ _)

theorem Event.shifted_le (e : Event V P) :
    e.consumption.countP (·.shifted) ≤ e.consumed.length := by
  rw [← e.tokens_consumption, List.length_map]
  exact List.countP_le_length

theorem Effect.recovering_of_error {e : Event V P} (h : Effect parser env c e c')
    (herror : parser.meetsError c = true) : c'.recovering = recoveryShifts := by
  have hrecovering := h.recovering
  cases e with
  | shift la =>
    rw [h.clean (by simp)] at herror
    cases herror
  | reduce context =>
    rw [h.clean (by simp)] at herror
    cases herror
  | recover popped discarded => exact hrecovering

section Spacing

variable {g : Grammar} {a : Automaton} (wf : g.WellFormed) (hf : a.Faithful g)
  (ht : parser.tables.Realizes g a)

include hf ht in
theorem Effect.due {e : Event V P} (h : Effect parser env c e c') (hc : Reading a c)
    (hdue : c.recovering ≤ recoveryShifts) : c'.recovering ≤ recoveryShifts ∧
      c.recovering ≤ c'.recovering + e.consumption.countP (·.shifted) := by
  have hrecovering := h.recovering
  cases e with
  | shift la =>
    obtain ⟨token, htoken⟩ := h.shifts_token hf ht hc rfl
    have hone : (Event.shift la : Event V P).consumption.countP (·.shifted) = 1 := by
      simp [Event.consumption, htoken]
    simp only at hrecovering
    omega
  | reduce context =>
    simp only at hrecovering
    omega
  | recover popped discarded =>
    simp only at hrecovering
    omega

include wf hf ht in
theorem Steps.due {hist : List (Config V P × Move V P)} (h : Steps parser env c hist d)
    (hc : Reading a c) (hdue : c.recovering ≤ recoveryShifts) :
    c.recovering ≤ d.recovering + (consumption hist).countP (·.shifted) := by
  induction h with
  | refl c => exact Nat.le_add_right _ _
  | @head c c' d e hist hstep _ ih =>
    have heffect := step_effect hstep
    obtain ⟨hdue', hpaid⟩ := heffect.due hf ht hc hdue
    have hrest := ih (heffect.reading wf hf ht hc) hdue'
    have hcons : consumption ((c, .next e c') :: hist) = e.consumption ++ consumption hist := rfl
    rw [hcons, List.countP_append]
    omega

/-- Each of the reports so far has cost three of the tokens consumed, but for the shifts due. -/
structure Spaced (a : Automaton) (n : Nat) (c : Config V P) : Prop where
  reading : Reading a c
  due : c.recovering ≤ recoveryShifts
  cost : recoveryShifts * c.reported.length + c.unread.length ≤ n + c.recovering

theorem spaced_start (source : Source V) (params : P) :
    Spaced a (Source.tokens source).length (start source params) :=
  ⟨reading_start source params, Nat.zero_le _, by simp [start, Config.unread]⟩

include wf hf ht in
theorem Spaced.step {n : Nat} {e : Event V P} (h : Spaced a n c)
    (hstep : parser.step env c = .next e c') : Spaced a n c' := by
  have heffect := step_effect hstep
  obtain ⟨hdue, hpaid⟩ := heffect.due hf ht h.reading h.due
  refine ⟨heffect.reading wf hf ht h.reading, hdue, ?_⟩
  have hcost := h.cost
  have hshifted := e.shifted_le
  have hunread := congrArg List.length heffect.unread
  rw [List.length_append] at hunread
  have hreported := reported_step parser env c
  rw [hstep] at hreported
  rcases hreported with ⟨⟨herror, hzero⟩, error, hreport⟩ | ⟨-, hsame⟩
  · have hthree := heffect.recovering_of_error herror
    rw [show c'.reported = error :: c.reported from hreport, List.length_cons, Nat.mul_succ]
    omega
  · rw [show c'.reported = c.reported from hsame]
    omega

theorem Spaced.length_le {n : Nat} (h : Spaced a n c) :
    (parser.step env c).config.reported.length ≤ 1 + n / recoveryShifts := by
  have hcost := h.cost
  have hdue := h.due
  simp only [recoveryShifts] at hcost hdue ⊢
  rcases reported_step parser env c with ⟨⟨-, hzero⟩, error, hreport⟩ | ⟨-, hsame⟩
  · rw [hreport, List.length_cons]
    omega
  · rw [hsame]
    omega

end Spacing

/-- Between two errors that a run reports it shifts at least three tokens, so a source of `n`
tokens has at most `1 + n / 3` errors reported. The first error met is always reported. -/
theorem reports_spaced {g : Grammar} {a : Automaton} (hg : g.Defined) {m : Method}
    (ha : m.automaton g = .ok a) (actions : Actions V P) (env : Environment V P)
    (source : Source V) (params : P) (fuel : Nat) :
    let parser : Parser V P := ⟨.ofTable (Table.generate g a), actions⟩
    let history := parser.history env fuel (start source params)
    (∀ before first between second after error error',
      history = before ++ first :: (between ++ second :: after) →
      first.2.config.reported = error :: first.1.reported →
      second.2.config.reported = error' :: second.1.reported →
      3 ≤ (consumption between).countP (·.shifted)) ∧
    (∀ step ∈ history,
      step.2.config.reported.length ≤ 1 + (Source.tokens source).length / 3) ∧
    (∀ r, parser.run env fuel (start source params) = some r →
      r.reported.length ≤ 1 + (Source.tokens source).length / 3) ∧
    ∀ before first after, history = before ++ first :: after →
      (∀ step ∈ before, parser.meetsError step.1 = false) → parser.meetsError first.1 = true →
      ∃ error, first.2.config.reported = [error] := by
  intro parser history
  have wf := hg.wellFormed
  have hf := (Method.automaton_spec wf ha).1
  have ht : parser.tables.Realizes g a := realizes_generate
  have hspaced : ∀ step ∈ history, Spaced a (Source.tokens source).length step.1 := by
    intro step hstep
    exact (history_invariant (Q := fun _ _ => True)
      (fun c e c' hc hstep => hc.step wf hf ht hstep) (fun _ _ => trivial) fuel
      (spaced_start source params) step hstep).1
  have hlength : ∀ step ∈ history,
      step.2.config.reported.length ≤ 1 + (Source.tokens source).length / 3 := by
    intro step hstep
    rw [history_step hstep]
    exact (hspaced step hstep).length_le
  refine ⟨?_, hlength, ?_, ?_⟩
  · intro before first between second after error error' hhistory hfirst hsecond
    have hmem : first ∈ history ∧ second ∈ history := by simp [hhistory]
    rw [history_step hmem.1] at hfirst
    rw [history_step hmem.2] at hsecond
    obtain ⟨k, hk⟩ := history_suffix ⟨before, hhistory.symm⟩
    obtain ⟨e, c₁, hstep, -, hrest⟩ := exists_next_of_history hk (by simp)
    have hthree := (step_effect hstep).recovering_of_error (recovering_of_reported hfirst).1
    have hc₁ := (hspaced first hmem.1).step wf hf ht hstep
    have hdue := (steps_of_history hrest.symm).due wf hf ht hc₁.reading hc₁.due
    rw [hthree, (recovering_of_reported hsecond).2, Nat.zero_add] at hdue
    exact hdue
  · intro r hr
    obtain ⟨hist, d, outcome, d', -, -, hhistory, rfl⟩ := exists_steps_of_run hr
    rw [List.length_reverse]
    exact hlength (d, .stop outcome d') (by simp [history, hhistory])
  · intro before first after hhistory hclean herror
    have hmem : first ∈ history := by simp [hhistory]
    obtain ⟨hreported, hrecovering⟩ := (steps_of_history hhistory).quiet hclean
    rw [history_step hmem]
    rcases reported_step parser env first.1 with ⟨-, error, hreport⟩ | ⟨hnot, -⟩
    · rw [hreported] at hreport
      exact ⟨error, hreport⟩
    · exact absurd ⟨herror, hrecovering rfl⟩ hnot

theorem reports_tolerant :
    let parser : Parser Nat Unit := ⟨.ofTable (.generate .tolerant .tolerant), #[]⟩
    let source : Source Nat := (tokensOf ["x", "x", "error", "error", "error", "x"]).map .ok
    (parser.run silent 20 (start source ())).map (·.reported.map (·.token)) = some ["x", "x"] ∧
    ∀ r, parser.run silent 20 (start source ()) = some r → r.reported.length ≤ 1 + 6 / 3 := by
  intro parser source
  refine ⟨?_, ?_⟩
  · simp only [source, parser, Table.generate_tolerant]
    decide +kernel
  · exact (reports_spaced Grammar.tolerant_defined Method.slr_tolerant #[] silent source ()
      20).2.2.1

end TableParsing.ShiftReduce
