import TableParsing.Proofs.Engine.Reporting

/-! Which fatal errors are reported. A run ends with a syntax error where no state on its stack
shifts the recovery token. That error is the last one reported exactly if three tokens were shifted
after every recovery: while shifts are due it is passed over like any other error, although the
state that the last recovery kept may be gone from the stack. The last report is then that of an
error which the run recovered from. -/

namespace TableParsing

namespace ShiftReduce

variable {V P : Type} {parser : Parser V P} {env : Environment V P} {c c' d : Config V P}

theorem recoveryPoint_eq_none {t : Tables} {states : List Nat} {k : Nat} :
    t.recoveryPoint states k = none ↔ ∀ s ∈ states, t.shiftsError s = none := by
  induction states generalizing k with
  | nil => simp [Tables.recoveryPoint]
  | cons s states ih =>
    rw [Tables.recoveryPoint, List.forall_mem_cons]
    cases hs : t.shiftsError s with
    | some next => simp
    | none => simp [ih]

theorem reduce_ne_unexpected {p : Nat} {e : SyntaxError} :
    parser.reduce env c p ≠ .stop (.error (.unexpected e)) c' := by
  intro h
  cases reduce_cases parser env c p with
  | empty _ hmove | accept _ hmove | abort _ hmove | missing _ _ hmove | next _ _ _ hmove =>
    rw [hmove] at h
    cases h

theorem recover_unexpected {error e : SyntaxError} {la : Lookahead V}
    {dropped : List (Lookahead V)}
    (h : parser.recover c error la dropped = .stop (.error (.unexpected e)) c') :
    e = error ∧ ∀ s ∈ c.states, parser.tables.shiftsError s = none := by
  cases recover_cases parser c error la dropped with
  | unexpected hpoint hmove =>
    rw [hmove] at h
    cases h
    exact ⟨rfl, recoveryPoint_eq_none.mp hpoint⟩
  | halted hmove | lexical hmove | found _ _ hmove =>
    rw [hmove] at h
    cases h

theorem recover_stop {error : SyntaxError} {la : Lookahead V} {dropped : List (Lookahead V)}
    {outcome : Except ParseError (Option V)}
    (h : parser.recover c error la dropped = .stop outcome c') :
    (∃ e, outcome = .error (.lexical e)) ∨ (∃ e, outcome = .error (.recoveryHalted e)) ∨
      ∃ e, outcome = .error (.unexpected e) := by
  cases recover_cases parser c error la dropped with
  | unexpected _ hmove =>
    rw [hmove] at h
    cases h
    exact Or.inr (Or.inr ⟨_, rfl⟩)
  | halted hmove =>
    rw [hmove] at h
    cases h
    exact Or.inr (Or.inl ⟨_, rfl⟩)
  | lexical hmove =>
    rw [hmove] at h
    cases h
    exact Or.inl ⟨_, rfl⟩
  | found _ _ hmove =>
    rw [hmove] at h
    cases h

section Fatal

variable (hanswer : ∀ reported error, env.onError reported error = none) {e : SyntaxError}

include hanswer

theorem fail_unexpected {s : Nat} {la : Lookahead V}
    (h : parser.fail env c s la = .stop (.error (.unexpected e)) c') :
    e = parser.tables.syntaxError s la c.states ∧
      ∀ s ∈ c.states, parser.tables.shiftsError s = none := by
  cases fail_cases parser env c s la with
  | answered _ hanswered _ =>
    rw [hanswer] at hanswered
    cases hanswered
  | unexpected _ hrecoverable hmove =>
    rw [hmove] at h
    cases h
    exact ⟨rfl, (recoverable_syntaxError _ _ _ _).mp hrecoverable⟩
  | halted _ hmove | lexical _ hmove =>
    rw [hmove] at h
    cases h
  | recover _ _ hmove =>
    rw [hmove] at h
    obtain ⟨he, hnone⟩ := recover_unexpected h
    exact ⟨he, hnone⟩

theorem fail_stop {s : Nat} {la : Lookahead V} {outcome : Except ParseError (Option V)}
    (h : parser.fail env c s la = .stop outcome c') :
    (∃ e, outcome = .error (.lexical e)) ∨ (∃ e, outcome = .error (.recoveryHalted e)) ∨
      ∃ e, outcome = .error (.unexpected e) := by
  cases fail_cases parser env c s la with
  | answered _ hanswered _ =>
    rw [hanswer] at hanswered
    cases hanswered
  | unexpected _ _ hmove =>
    rw [hmove] at h
    cases h
    exact Or.inr (Or.inr ⟨_, rfl⟩)
  | halted _ hmove =>
    rw [hmove] at h
    cases h
    exact Or.inr (Or.inl ⟨_, rfl⟩)
  | lexical _ hmove =>
    rw [hmove] at h
    cases h
    exact Or.inl ⟨_, rfl⟩
  | recover _ _ hmove =>
    rw [hmove] at h
    exact recover_stop h

theorem step_unexpected (h : parser.step env c = .stop (.error (.unexpected e)) c') :
    e.recoverable = false ∧ (∀ s ∈ c.states, parser.tables.shiftsError s = none) ∧
      c'.reported = if c.recovering = 0 then e :: c.reported else c.reported := by
  cases step_cases parser env c with
  | empty _ hmove | lexical _ _ _ hmove | shift _ _ _ _ hmove | accept _ _ _ _ hmove =>
    rw [hmove] at h
    cases h
  | reduce _ _ hmove =>
    rw [hmove] at h
    exact absurd h reduce_ne_unexpected
  | @error s _ la input _ _ _ _ hmove =>
    rw [hmove] at h
    have hreported := reported_fail parser env { c with lookahead := none, input := input } s la
    obtain ⟨rfl, hnone⟩ := fail_unexpected hanswer h
    rw [h] at hreported
    exact ⟨(recoverable_syntaxError _ _ _ _).mpr hnone, hnone, hreported⟩

end Fatal

/-- The errors reported so far were recovered from, and shifts are due only after one of them. -/
structure Overcome (c : Config V P) : Prop where
  recoverable : ∀ e ∈ c.reported, e.recoverable = true
  due : c.recovering ≠ 0 → c.reported ≠ []

theorem overcome_start (source : Source V) (params : P) : Overcome (start source params) :=
  ⟨by simp [start], fun h => absurd rfl h⟩

theorem fail_next {s : Nat} {la : Lookahead V} {event : Event V P}
    (h : parser.fail env c s la = .next event c') (hzero : c.recovering = 0) :
    (parser.tables.syntaxError s la c.states).recoverable = true := by
  cases fail_cases parser env c s la with
  | answered _ _ hmove | unexpected _ _ hmove | halted _ hmove | lexical _ hmove =>
    rw [hmove] at h
    cases h
  | recover _ hrecoverable _ => exact hrecoverable hzero

theorem Overcome.step {event : Event V P} (h : Overcome c)
    (hstep : parser.step env c = .next event c') : Overcome c' := by
  have heffect := step_effect hstep
  by_cases herror : parser.meetsError c = true
  · obtain ⟨s, states, la, input, hstates, hdefault, hlook, haction⟩ :=
      exists_of_meetsError herror
    rw [step_error hstates hdefault hlook haction] at hstep
    have hreported := reported_fail parser env { c with lookahead := none, input := input } s la
    rw [hstep] at hreported
    by_cases hzero : c.recovering = 0
    · have hnew : c'.reported = parser.tables.syntaxError s la c.states :: c.reported := by
        simpa [Move.config, hzero] using hreported
      have hrecoverable := fail_next hstep hzero
      refine ⟨?_, fun _ => by simp [hnew]⟩
      rw [hnew, List.forall_mem_cons]
      exact ⟨hrecoverable, h.recoverable⟩
    · have hsame : c'.reported = c.reported := by simpa [Move.config, hzero] using hreported
      exact ⟨hsame ▸ h.recoverable, fun _ => hsame ▸ h.due hzero⟩
  · obtain ⟨hsame, hzero⟩ := heffect.quiet (by simpa using herror)
    exact ⟨hsame ▸ h.recoverable, fun hdue => hsame ▸ h.due fun hc => hdue (hzero hc)⟩

theorem Steps.overcome {hist : List (Config V P × Move V P)} (h : Steps parser env c hist d)
    (hc : Overcome c) : Overcome d := by
  induction h with
  | refl => exact hc
  | head hstep _ ih => exact ih (hc.step hstep)

def Repaid (parser : Parser V P) (env : Environment V P)
    (history : List (Config V P × Move V P)) : Prop :=
  ∀ before m after, history = before ++ m :: after → (parser.recovery? env m.1).isSome →
    recoveryShifts ≤ (consumption after).countP (·.shifted)

theorem Repaid.tail {m : Config V P × Move V P} {history : List (Config V P × Move V P)}
    (h : Repaid parser env (m :: history)) : Repaid parser env history :=
  fun before m' after heq => h (m :: before) m' after (by rw [heq, List.cons_append])

theorem consumption_concat (hist : List (Config V P × Move V P)) (c : Config V P)
    (outcome : Except ParseError (Option V)) (c' : Config V P) :
    consumption (hist ++ [(c, .stop outcome c')]) = consumption hist := by
  simp [consumption, events, Move.event?]

theorem repaid_concat {hist : List (Config V P × Move V P)}
    {outcome : Except ParseError (Option V)} (h : parser.recovery? env c = none) :
    Repaid parser env (hist ++ [(c, .stop outcome c')]) ↔ Repaid parser env hist := by
  constructor
  · intro hrepaid before m after heq hrecovers
    have hshifts := hrepaid before m (after ++ [(c, .stop outcome c')]) (by simp [heq]) hrecovers
    rwa [consumption_concat] at hshifts
  · intro hrepaid before m after heq hrecovers
    rcases List.eq_nil_or_concat after with rfl | ⟨rest, last, rfl⟩
    · obtain ⟨-, hlast⟩ := List.append_inj' heq rfl
      cases hlast
      rw [h] at hrecovers
      cases hrecovers
    · rw [List.concat_eq_append, ← List.cons_append, ← List.append_assoc] at heq
      obtain ⟨hhist, hlast⟩ := List.append_inj' heq rfl
      cases hlast
      rw [List.concat_eq_append, consumption_concat]
      exact hrepaid before m rest hhist hrecovers

section Shifts

variable {g : Grammar} {a : Automaton} (wf : g.WellFormed) (hf : a.Faithful g)
  (ht : parser.tables.Realizes g a)

include wf hf ht

theorem Steps.repaid {hist : List (Config V P × Move V P)} (h : Steps parser env c hist d)
    (hc : Reading a c) (hdue : c.recovering ≤ recoveryShifts) (hzero : d.recovering = 0) :
    Repaid parser env hist := by
  induction h with
  | refl c =>
    intro before m after heq
    simp at heq
  | @head c c' d e hist hstep hsteps ih =>
    have heffect := step_effect hstep
    have hc' := heffect.reading wf hf ht hc
    have hdue' := (heffect.due hf ht hc hdue).1
    intro before m after heq hrecovers
    cases before with
    | nil =>
      cases heq
      -- the recovery makes all shifts due, and only shifts pay for them
      obtain ⟨popped, discarded, rfl⟩ := heffect.isSome_recovery?.mp hrecovers
      have hthree : c'.recovering = recoveryShifts := heffect.recovering
      have hpaid := hsteps.due wf hf ht hc' hdue'
      rwa [hthree, hzero, Nat.zero_add] at hpaid
    | cons first before =>
      cases heq
      exact ih hc' hdue' hzero before m after rfl hrecovers

theorem Steps.recovering_eq_zero {hist : List (Config V P × Move V P)}
    (h : Steps parser env c hist d) (hc : Reading a c)
    (hpaid : c.recovering ≤ (consumption hist).countP (·.shifted))
    (hrepaid : Repaid parser env hist) : d.recovering = 0 := by
  induction h with
  | refl c => exact Nat.le_zero.mp hpaid
  | @head c c' d e hist hstep hsteps ih =>
    have heffect := step_effect hstep
    have hrecovering := heffect.recovering
    have hcons : consumption ((c, .next e c') :: hist) = e.consumption ++ consumption hist := rfl
    rw [hcons, List.countP_append] at hpaid
    refine ih (heffect.reading wf hf ht hc) ?_ hrepaid.tail
    cases e with
    | shift la =>
      obtain ⟨token, htoken⟩ := heffect.shifts_token hf ht hc rfl
      have hone : (Event.shift la : Event V P).consumption.countP (·.shifted) = 1 := by
        simp [Event.consumption, htoken]
      simp only at hrecovering
      omega
    | reduce context =>
      have hnone : (Event.reduce context : Event V P).consumption.countP (·.shifted) = 0 := rfl
      simp only at hrecovering
      omega
    | recover popped discarded =>
      simp only at hrecovering
      rw [hrecovering]
      exact hrepaid [] _ hist rfl (heffect.isSome_recovery?.mpr ⟨popped, discarded, rfl⟩)

end Shifts

/-- The error that ends a run is its last report exactly if three tokens were shifted after every
recovery. Otherwise the last report is that of an error which the run recovered from; the one
that ends a run is never recoverable. -/
theorem fatal_reported_iff {g : Grammar} {a : Automaton} (hg : g.Defined) {m : Method}
    (ha : m.automaton g = .ok a) (actions : Actions V P) (env : Environment V P)
    (hanswer : ∀ reported error, env.onError reported error = none) (source : Source V)
    (params : P) (fuel : Nat) (r : Result V P) (e : SyntaxError) :
    let parser : Parser V P := ⟨.ofTable (Table.generate g a), actions⟩
    let history := parser.history env fuel (start source params)
    parser.run env fuel (start source params) = some r → r.outcome = .error (.unexpected e) →
    e.recoverable = false ∧ (r.reported.getLast? = some e ↔ Repaid parser env history) ∧
      (¬ Repaid parser env history →
        ∃ e', r.reported.getLast? = some e' ∧ e'.recoverable = true) := by
  intro parser history hrun houtcome
  have wf := hg.wellFormed
  have hf := (Method.automaton_spec wf ha).1
  have ht : parser.tables.Realizes g a := realizes_generate
  obtain ⟨hist, d, outcome, d', hsteps, hstop, hhistory, rfl⟩ := exists_steps_of_run hrun
  cases houtcome
  obtain ⟨hfatal, hnone, hreported⟩ := step_unexpected hanswer hstop
  have hrecovery : parser.recovery? env d = none := by
    by_contra hne
    obtain ⟨r, hr⟩ := Option.ne_none_iff_exists'.mp hne
    obtain ⟨-, -, -, hpoint, -⟩ := recovery?_eq_some hr
    rw [recoveryPoint_eq_none.mpr hnone] at hpoint
    cases hpoint
  have hreading : Reading a (start source params) := reading_start source params
  have hrepaid : d.recovering = 0 ↔ Repaid parser env history := by
    rw [show history = hist ++ _ from hhistory, repaid_concat hrecovery]
    exact ⟨hsteps.repaid wf hf ht hreading (Nat.zero_le _),
      hsteps.recovering_eq_zero wf hf ht hreading (Nat.zero_le _)⟩
  have hovercome := hsteps.overcome (overcome_start source params)
  rw [← hrepaid, List.getLast?_reverse, hreported]
  by_cases hzero : d.recovering = 0
  · rw [if_pos hzero]
    exact ⟨hfatal, ⟨fun _ => hzero, fun _ => rfl⟩, fun hdue => absurd hzero hdue⟩
  · obtain ⟨e', rest, hcons⟩ := List.exists_cons_of_ne_nil (hovercome.due hzero)
    have hrecoverable := hovercome.recoverable e' (by simp [hcons])
    rw [if_neg hzero, hcons, List.head?_cons]
    refine ⟨hfatal, ⟨fun hsame => ?_, fun h => absurd h hzero⟩, fun _ => ⟨e', rfl, hrecoverable⟩⟩
    cases hsame
    rw [hfatal] at hrecoverable
    cases hrecoverable

end ShiftReduce

def Grammar.enclosedRules : Array Production :=
  #[⟨1, #[.nonterminal 2, .terminal 2], none, [⟨"B", 1⟩, ⟨"B1", 1⟩, ⟨"c", 2⟩, ⟨"c1", 2⟩]⟩,
    ⟨2, #[.terminal 3, .terminal 1, .terminal 4], none,
      [⟨"y", 1⟩, ⟨"y1", 1⟩, ⟨"error", 2⟩, ⟨"error1", 2⟩, ⟨"z", 3⟩, ⟨"z1", 3⟩]⟩]

def Grammar.enclosed : Grammar :=
  .ofProductions
    #[⟨"$end", none⟩, ⟨"error", none⟩, ⟨"c", none⟩, ⟨"y", none⟩, ⟨"z", none⟩]
    #["$accept", "S", "B"] (#[Definition.acceptProduction 1] ++ enclosedRules) 1

theorem Grammar.enclosed_defined : Grammar.enclosed.Defined :=
  ⟨false, [[.rule "S" ["B", "c"] none, .rule "B" ["y", "error", "z"] none]],
    Definition.define_eq_ok (by cbv)⟩

def Automaton.enclosed : Automaton where
  states :=
    #[⟨[(⟨0, 0⟩, none)], [(.nonterminal 1, 1), (.nonterminal 2, 2), (.terminal 3, 3)], [], false⟩,
      ⟨[(⟨0, 1⟩, none)], [], [], true⟩,
      ⟨[(⟨1, 1⟩, none)], [(.terminal 2, 4)], [], false⟩,
      ⟨[(⟨2, 1⟩, none)], [(.terminal 1, 5)], [], false⟩,
      ⟨[(⟨1, 2⟩, none)], [], [(1, .ofList [0])], false⟩,
      ⟨[(⟨2, 2⟩, none)], [(.terminal 4, 6)], [], false⟩,
      ⟨[(⟨2, 3⟩, none)], [], [(2, .ofList [2])], false⟩]

theorem Method.slr_enclosed : slr.automaton .enclosed = .ok .enclosed := by
  simp only [automaton, LR0.build, Exploration.explore_eq]
  cbv

namespace ShiftReduce

abbrev enclosedParser : Parser Nat Unit := ⟨.ofTable (.generate .enclosed .enclosed), #[]⟩

def reportOf (name : String) (expected : List String) (recoverable : Bool) : SyntaxError :=
  .report (some ⟨name, name, (0 : Nat), .zero⟩) .zero expected recoverable

theorem run_enclosed :
    (∃ r, enclosedParser.run silent 20 (start ((tokensOf ["c"]).map .ok) ()) = some r ∧
      r.outcome = .error (.unexpected (reportOf "c" ["y"] false)) ∧
      r.reported = [reportOf "c" ["y"] false]) ∧
    ∃ r, enclosedParser.run silent 20 (start ((tokensOf ["y", "y", "z", "z"]).map .ok) ()) =
        some r ∧
      r.outcome = .error (.unexpected (reportOf "z" ["c"] false)) ∧
      r.reported = [reportOf "y" [] true] := by
  have hfirst : (enclosedParser.run silent 20 (start ((tokensOf ["c"]).map .ok) ())).map
      (fun r => (r.outcome, r.reported)) =
      some (.error (.unexpected (reportOf "c" ["y"] false)), [reportOf "c" ["y"] false]) := by
    decide +kernel
  have hsecond : (enclosedParser.run silent 20
      (start ((tokensOf ["y", "y", "z", "z"]).map .ok) ())).map
      (fun r => (r.outcome, r.reported)) =
      some (.error (.unexpected (reportOf "z" ["c"] false)), [reportOf "y" [] true]) := by
    decide +kernel
  simp only [Option.map_eq_some_iff, Prod.mk.injEq] at hfirst hsecond
  exact ⟨hfirst, hsecond⟩

theorem fatal_reported_enclosed :
    (reportOf "c" ["y"] false).recoverable = false ∧
    Repaid enclosedParser silent
      (enclosedParser.history silent 20 (start ((tokensOf ["c"]).map .ok) ())) ∧
    ¬ Repaid enclosedParser silent
      (enclosedParser.history silent 20 (start ((tokensOf ["y", "y", "z", "z"]).map .ok) ())) := by
  have hanswer : ∀ reported error, silent.onError reported error = none := fun _ _ => rfl
  obtain ⟨⟨r, hr, hfatal, hreported⟩, r', hr', hfatal', hreported'⟩ := run_enclosed
  obtain ⟨hrecoverable, hiff, -⟩ := fatal_reported_iff Grammar.enclosed_defined
    Method.slr_enclosed #[] silent hanswer _ () 20 r _ hr hfatal
  obtain ⟨-, hiff', -⟩ := fatal_reported_iff Grammar.enclosed_defined
    Method.slr_enclosed #[] silent hanswer _ () 20 r' _ hr' hfatal'
  refine ⟨hrecoverable, hiff.mp (by rw [hreported]; rfl), fun hrepaid => ?_⟩
  have hlast := hiff'.mpr hrepaid
  rw [hreported'] at hlast
  revert hlast
  decide +kernel

/-- The error that ends a run need not be reported: nothing is reported after the error at the
second `y`. -/
theorem fatal_unreported :
    ¬ ∀ (g : Grammar) (a : Automaton) (m : Method), g.Defined → m.automaton g = .ok a →
      ∀ (source : Source Nat) (fuel : Nat) (r : Result Nat Unit) (e : SyntaxError),
        (⟨.ofTable (Table.generate g a), #[]⟩ : Parser Nat Unit).run silent fuel
          (start source ()) = some r →
        r.outcome = .error (.unexpected e) → r.reported.getLast? = some e := by
  intro h
  obtain ⟨r, hr, hfatal, hreported⟩ := run_enclosed.2
  have hlast := h _ _ _ Grammar.enclosed_defined Method.slr_enclosed _ 20 r _ hr hfatal
  rw [hreported] at hlast
  revert hlast
  decide +kernel

end ShiftReduce

end TableParsing
