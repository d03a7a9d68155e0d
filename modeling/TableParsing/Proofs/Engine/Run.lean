import TableParsing.Proofs.Engine.Step

/-! Runs of the shift-reduce engine as sequences of steps. The history of a run lists the
configurations it passes with the move made in each; a run that stops has the outcome of its
last move. -/

namespace TableParsing.ShiftReduce

variable {V P : Type}

/-- The configurations that a run of at most `fuel` steps passes, each with its move. -/
def Parser.history (parser : Parser V P) (env : Environment V P) :
    Nat → Config V P → List (Config V P × Move V P)
  | 0, _ => []
  | fuel + 1, c => (c, parser.step env c) ::
    match parser.step env c with
    | .next _ c => history parser env fuel c
    | .stop _ _ => []

def Event.reduction? : Event V P → Option Nat
  | .reduce c => some c.production
  | .shift _ => none
  | .recover _ _ => none

def Move.event? : Move V P → Option (Event V P)
  | .next e _ => some e
  | .stop _ _ => none

def events (history : List (Config V P × Move V P)) : List (Event V P) :=
  history.filterMap fun m => m.2.event?

def reductions (history : List (Config V P × Move V P)) : List Nat :=
  history.filterMap fun m => m.2.event?.bind Event.reduction?

variable {parser : Parser V P} {env : Environment V P}

inductive Steps (parser : Parser V P) (env : Environment V P) :
    Config V P → List (Config V P × Move V P) → Config V P → Prop
  | refl (c : Config V P) : Steps parser env c [] c
  | head {c c' d : Config V P} {e : Event V P} {h : List (Config V P × Move V P)} :
      parser.step env c = .next e c' → Steps parser env c' h d →
      Steps parser env c ((c, .next e c') :: h) d

namespace Steps

theorem single {c c' : Config V P} {e : Event V P} (h : parser.step env c = .next e c') :
    Steps parser env c [(c, .next e c')] c' := .head h (.refl c')

theorem trans {c d e : Config V P} {h h' : List (Config V P × Move V P)}
    (hcd : Steps parser env c h d) (hde : Steps parser env d h' e) :
    Steps parser env c (h ++ h') e := by
  induction hcd with
  | refl => exact hde
  | head hstep _ ih => exact .head hstep (ih hde)

theorem add {c d : Config V P} {h : List (Config V P × Move V P)}
    (hsteps : Steps parser env c h d) (fuel : Nat) :
    parser.run env (h.length + fuel) c = parser.run env fuel d ∧
      parser.history env (h.length + fuel) c = h ++ parser.history env fuel d := by
  induction hsteps with
  | refl =>
    rw [List.length_nil, Nat.zero_add]
    exact ⟨rfl, rfl⟩
  | head hstep _ ih =>
    rw [List.length_cons, Nat.add_right_comm]
    simp only [Parser.run, Parser.history, hstep, ih, List.cons_append, and_self]

theorem run {c d d' : Config V P} {h : List (Config V P × Move V P)}
    {outcome : Except ParseError (Option V)} (hsteps : Steps parser env c h d)
    (hstop : parser.step env d = .stop outcome d') {fuel : Nat} (hfuel : h.length < fuel) :
    parser.run env fuel c = some ⟨outcome, d'.params, d'.reported.reverse⟩ ∧
      parser.history env fuel c = h ++ [(d, .stop outcome d')] := by
  obtain ⟨k, rfl⟩ : ∃ k, fuel = h.length + (k + 1) := ⟨fuel - h.length - 1, by omega⟩
  obtain ⟨hrun, hhistory⟩ := hsteps.add (k + 1)
  rw [hrun, hhistory]
  simp only [Parser.run, Parser.history, hstop, and_self]

end Steps

theorem Steps.run_eq {c d d' : Config V P} {h : List (Config V P × Move V P)}
    {outcome : Except ParseError (Option V)} (hsteps : Steps parser env c h d)
    (hstop : parser.step env d = .stop outcome d') {fuel : Nat} {r : Result V P}
    (hrun : parser.run env fuel c = some r) :
    r = ⟨outcome, d'.params, d'.reported.reverse⟩ ∧
      parser.history env fuel c = h ++ [(d, .stop outcome d')] := by
  induction hsteps generalizing fuel with
  | refl =>
    cases fuel with
    | zero => cases hrun
    | succ fuel =>
      simp only [Parser.run, hstop, Option.some.injEq] at hrun
      simp only [Parser.history, hstop, hrun.symm, List.nil_append, and_self]
  | head hstep _ ih =>
    cases fuel with
    | zero => cases hrun
    | succ fuel =>
      simp only [Parser.run, hstep] at hrun
      obtain ⟨hr, hhistory⟩ := ih hstop hrun
      simp only [Parser.history, hstep, hhistory, hr, List.cons_append, and_self]

theorem run_of_le {c : Config V P} {fuel fuel' : Nat} {r : Result V P} (hle : fuel ≤ fuel')
    (h : parser.run env fuel c = some r) : parser.run env fuel' c = some r := by
  induction fuel generalizing c fuel' with
  | zero => cases h
  | succ fuel ih =>
    cases fuel' with
    | zero => cases hle
    | succ fuel' =>
      cases hstep : parser.step env c with
      | next e c' =>
        simp only [Parser.run, hstep] at h ⊢
        exact ih (Nat.le_of_succ_le_succ hle) h
      | stop outcome d =>
        simp only [Parser.run, hstep] at h ⊢
        exact h

theorem exists_steps_of_run {c : Config V P} {fuel : Nat} {r : Result V P}
    (h : parser.run env fuel c = some r) : ∃ hist d outcome d', Steps parser env c hist d ∧
      parser.step env d = .stop outcome d' ∧
      parser.history env fuel c = hist ++ [(d, .stop outcome d')] ∧
      r = ⟨outcome, d'.params, d'.reported.reverse⟩ := by
  induction fuel generalizing c with
  | zero => cases h
  | succ fuel ih =>
    cases hstep : parser.step env c with
    | next e c' =>
      simp only [Parser.run, hstep] at h
      obtain ⟨hist, d, outcome, d', hsteps, hstop, hhistory, hr⟩ := ih h
      refine ⟨(c, .next e c') :: hist, d, outcome, d', .head hstep hsteps, hstop, ?_, hr⟩
      simp only [Parser.history, hstep, hhistory, List.cons_append]
    | stop outcome d' =>
      simp only [Parser.run, hstep, Option.some.injEq] at h
      refine ⟨[], c, outcome, d', .refl c, hstep, ?_, h.symm⟩
      simp only [Parser.history, hstep, List.nil_append]

theorem exists_steps_of_unfinished {c : Config V P} {fuel : Nat}
    (h : parser.run env fuel c = none) : ∃ d, Steps parser env c (parser.history env fuel c) d ∧
      (parser.history env fuel c).length = fuel := by
  induction fuel generalizing c with
  | zero => exact ⟨c, .refl c, rfl⟩
  | succ fuel ih =>
    cases hstep : parser.step env c with
    | next e c' =>
      simp only [Parser.run, hstep] at h
      obtain ⟨d, hsteps, hlength⟩ := ih h
      simp only [Parser.history, hstep, List.length_cons, hlength, and_true]
      exact ⟨d, .head hstep hsteps⟩
    | stop outcome d =>
      simp only [Parser.run, hstep] at h
      cases h

theorem Parser.length_history_le (parser : Parser V P) (env : Environment V P) (fuel : Nat)
    (c : Config V P) : (parser.history env fuel c).length ≤ fuel := by
  induction fuel generalizing c with
  | zero => exact Nat.le_refl 0
  | succ fuel ih =>
    rw [Parser.history, List.length_cons]
    apply Nat.succ_le_succ
    cases parser.step env c with
    | next e c' => exact ih c'
    | stop outcome c' => exact Nat.zero_le fuel

/-- What every step keeps holds of every configuration of a history, and of each the property
that follows for its move. -/
theorem history_invariant {I : Config V P → Prop} {Q : Config V P → Move V P → Prop}
    (keep : ∀ c e c', I c → parser.step env c = .next e c' → I c')
    (moves : ∀ c, I c → Q c (parser.step env c)) (fuel : Nat) {c : Config V P} (h : I c) :
    ∀ m ∈ parser.history env fuel c, I m.1 ∧ Q m.1 m.2 := by
  induction fuel generalizing c with
  | zero => simp [Parser.history]
  | succ fuel ih =>
    intro m hm
    rw [Parser.history] at hm
    rcases List.mem_cons.mp hm with rfl | hm
    · exact ⟨h, moves c h⟩
    · cases hstep : parser.step env c with
      | next e c' =>
        rw [hstep] at hm
        exact ih (keep c e c' h hstep) m hm
      | stop outcome c' =>
        rw [hstep] at hm
        exact absurd hm List.not_mem_nil

theorem history_step {fuel : Nat} {c : Config V P} {m : Config V P × Move V P}
    (h : m ∈ parser.history env fuel c) : m.2 = parser.step env m.1 :=
  (history_invariant (I := fun _ => True) (Q := fun c move => move = parser.step env c)
    (fun _ _ _ _ _ => trivial) (fun _ _ => rfl) fuel trivial m h).2

theorem history_suffix {fuel : Nat} {c : Config V P} {m : Config V P × Move V P}
    {after : List (Config V P × Move V P)} (h : m :: after <:+ parser.history env fuel c) :
    ∃ k, m :: after = parser.history env (k + 1) m.1 := by
  induction fuel generalizing c with
  | zero => simp [Parser.history] at h
  | succ fuel ih =>
    rw [Parser.history] at h
    rcases List.suffix_cons_iff.mp h with heq | hrest
    · cases heq
      exact ⟨fuel, rfl⟩
    · cases hstep : parser.step env c with
      | next e c' =>
        rw [hstep] at hrest
        exact ih hrest
      | stop outcome c' =>
        rw [hstep] at hrest
        simp at hrest

theorem exists_next_of_history {k : Nat} {c : Config V P}
    {m : Config V P × Move V P} {after : List (Config V P × Move V P)}
    (h : m :: after = parser.history env (k + 1) c) (hafter : after ≠ []) :
    ∃ e c', parser.step env c = .next e c' ∧ m = (c, .next e c') ∧
      after = parser.history env k c' := by
  rw [Parser.history] at h
  cases hstep : parser.step env c with
  | next e c' =>
    rw [hstep] at h
    cases h
    exact ⟨e, c', rfl, rfl, rfl⟩
  | stop outcome c' =>
    rw [hstep] at h
    cases h
    exact absurd rfl hafter

theorem steps_of_history {fuel : Nat} {c : Config V P} {m : Config V P × Move V P}
    {before after : List (Config V P × Move V P)}
    (h : parser.history env fuel c = before ++ m :: after) : Steps parser env c before m.1 := by
  induction before generalizing fuel c with
  | nil =>
    cases fuel with
    | zero => cases h
    | succ fuel =>
      rw [Parser.history] at h
      cases h
      exact .refl c
  | cons step before ih =>
    cases fuel with
    | zero => cases h
    | succ fuel =>
      obtain ⟨e, c', hstep, rfl, hrest⟩ := exists_next_of_history h.symm (by simp)
      exact .head hstep (ih hrest.symm)

end TableParsing.ShiftReduce
