import TableParsing.Engine.ShiftReduce

/-! One step of the shift-reduce engine. For each function that makes a move a relation lists the
ways in which the move can come about, with what decides between them. What every step keeps, and
what no step can do, is read off these cases. -/

namespace TableParsing.ShiftReduce

variable {V P : Type}

def Parser.meetsError (parser : Parser V P) (c : Config V P) : Bool :=
  match c.states with
  | [] => false
  | state :: _ =>
    match parser.tables.defaultReduction state with
    | some _ => false
    | none =>
      match parser.look c with
      | .error _ => false
      | .ok (la, _) => parser.tables.actionOn state la == .error

variable {parser : Parser V P} {env : Environment V P}

def shifted (c : Config V P) (la : Lookahead V) (input : Source V) (next : Nat) : Config V P :=
  { c with
    lookahead := none
    input := input
    states := next :: c.states
    entries := ⟨la.token.map (·.value), la.location⟩ :: c.entries
    recovering := c.recovering - 1 }

section Moves

variable {c : Config V P} {s : Nat} {states : List Nat} (hstates : c.states = s :: states)

include hstates

theorem step_default {p : Nat} (hdefault : parser.tables.defaultReduction s = some p) :
    parser.step env c = parser.reduce env c p := by
  simp only [Parser.step, hstates, hdefault]

theorem meetsError_default {p : Nat} (hdefault : parser.tables.defaultReduction s = some p) :
    parser.meetsError c = false := by
  simp only [Parser.meetsError, hstates, hdefault]

variable (hdefault : parser.tables.defaultReduction s = none) {la : Lookahead V}
  {input : Source V}

include hdefault

theorem step_lexical {e : LexError} (hlook : parser.look c = .error e) :
    parser.step env c = .stop (.error (.lexical e)) c := by
  simp only [Parser.step, hstates, hdefault, hlook]

variable (hlook : parser.look c = .ok (la, input))

include hlook

theorem meetsError_eq : parser.meetsError c = (parser.tables.actionOn s la == .error) := by
  simp only [Parser.meetsError, hstates, hdefault, hlook]

theorem step_shift {next : Nat} (haction : parser.tables.actionOn s la = .shift next) :
    parser.step env c = .next (.shift la) (shifted c la input next) := by
  simp only [Parser.step, hstates, hdefault, hlook, haction, shifted]

theorem step_reduce {p : Nat} (haction : parser.tables.actionOn s la = .reduce p) :
    parser.step env c = parser.reduce env { c with lookahead := some la, input := input } p := by
  simp only [Parser.step, hdefault, hlook, haction, hstates]

theorem step_accept (haction : parser.tables.actionOn s la = .accept) :
    parser.step env c = .stop (.ok (c.entries.head?.bind (·.value)))
      { c with lookahead := none, input := input } := by
  simp only [Parser.step, hdefault, hlook, haction, hstates]

theorem step_error (haction : parser.tables.actionOn s la = .error) :
    parser.step env c = parser.fail env { c with lookahead := none, input := input } s la := by
  simp only [Parser.step, hstates, hdefault, hlook, haction]

end Moves

/-- The ways in which a step is made. A reduction is called for by the state alone or with the
next token in hand. -/
inductive StepCase (parser : Parser V P) (env : Environment V P) (c : Config V P)
    (move : Move V P) : Prop
  | empty : c.states = [] → move = .stop (.error .emptyStack) c → StepCase parser env c move
  | lexical {s : Nat} {states : List Nat} {e : LexError} : c.states = s :: states →
      parser.tables.defaultReduction s = none → parser.look c = .error e →
      move = .stop (.error (.lexical e)) c → StepCase parser env c move
  | shift {s next : Nat} {states : List Nat} {la : Lookahead V} {input : Source V} :
      c.states = s :: states → parser.tables.defaultReduction s = none →
      parser.look c = .ok (la, input) → parser.tables.actionOn s la = .shift next →
      move = .next (.shift la) (shifted c la input next) → StepCase parser env c move
  | reduce {s p : Nat} {states : List Nat} {c₁ : Config V P} : c.states = s :: states →
      (c₁ = c ∧ parser.tables.defaultReduction s = some p ∨
        parser.tables.defaultReduction s = none ∧ ∃ la input, parser.look c = .ok (la, input) ∧
          c₁ = { c with lookahead := some la, input := input } ∧
          parser.tables.actionOn s la = .reduce p) →
      move = parser.reduce env c₁ p → StepCase parser env c move
  | accept {s : Nat} {states : List Nat} {la : Lookahead V} {input : Source V} :
      c.states = s :: states → parser.tables.defaultReduction s = none →
      parser.look c = .ok (la, input) → parser.tables.actionOn s la = .accept →
      move = .stop (.ok (c.entries.head?.bind (·.value)))
        { c with lookahead := none, input := input } → StepCase parser env c move
  | error {s : Nat} {states : List Nat} {la : Lookahead V} {input : Source V} :
      c.states = s :: states → parser.tables.defaultReduction s = none →
      parser.look c = .ok (la, input) → parser.tables.actionOn s la = .error →
      move = parser.fail env { c with lookahead := none, input := input } s la →
      StepCase parser env c move

theorem step_cases (parser : Parser V P) (env : Environment V P) (c : Config V P) :
    StepCase parser env c (parser.step env c) := by
  cases hstates : c.states with
  | nil =>
    refine .empty hstates ?_
    simp only [Parser.step, hstates]
  | cons s states =>
    cases hdefault : parser.tables.defaultReduction s with
    | some p => exact .reduce hstates (Or.inl ⟨rfl, hdefault⟩) (step_default hstates hdefault)
    | none =>
      cases hlook : parser.look c with
      | error e => exact .lexical hstates hdefault hlook (step_lexical hstates hdefault hlook)
      | ok r =>
        obtain ⟨la, input⟩ := r
        cases haction : parser.tables.actionOn s la with
        | shift next =>
          exact .shift hstates hdefault hlook haction (step_shift hstates hdefault hlook haction)
        | reduce p =>
          exact .reduce hstates (Or.inr ⟨hdefault, la, input, hlook, rfl, haction⟩)
            (step_reduce hstates hdefault hlook haction)
        | accept =>
          exact .accept hstates hdefault hlook haction (step_accept hstates hdefault hlook haction)
        | error =>
          exact .error hstates hdefault hlook haction
            (step_error hstates hdefault hlook haction)

section Errors

variable {c : Config V P}

theorem meetsError_eq_false {s : Nat} {states : List Nat} (hstates : c.states = s :: states)
    {la : Lookahead V} {input : Source V} (hlook : parser.look c = .ok (la, input))
    (haction : parser.tables.actionOn s la ≠ .error) : parser.meetsError c = false := by
  cases hdefault : parser.tables.defaultReduction s with
  | some p => exact meetsError_default hstates hdefault
  | none =>
    rw [meetsError_eq hstates hdefault hlook]
    exact beq_false_of_ne haction

theorem exists_of_meetsError (h : parser.meetsError c = true) : ∃ s states la input,
    c.states = s :: states ∧ parser.tables.defaultReduction s = none ∧
      parser.look c = .ok (la, input) ∧ parser.tables.actionOn s la = .error := by
  simp only [Parser.meetsError] at h
  split at h
  · cases h
  case h_2 s states hstates =>
    split at h
    · cases h
    case h_2 hdefault =>
      split at h
      · cases h
      case h_2 la input hlook => exact ⟨s, states, la, input, hstates, hdefault, hlook, eq_of_beq h⟩

theorem meetsError_of_error {s : Nat} {states : List Nat} (hstates : c.states = s :: states)
    (hdefault : parser.tables.defaultReduction s = none) {la : Lookahead V} {input : Source V}
    (hlook : parser.look c = .ok (la, input)) (haction : parser.tables.actionOn s la = .error) :
    parser.meetsError c = true := by
  rw [meetsError_eq hstates hdefault hlook, haction]
  rfl

end Errors

def Parser.handed (parser : Parser V P) (c : Config V P) (p : Nat) : Context V P :=
  let shape := parser.tables.production p
  .ofReduction p shape.aliases (c.entries.take shape.length).reverse
    (c.entries.drop shape.length) c.params

inductive ReduceCase (parser : Parser V P) (env : Environment V P) (c : Config V P) (p : Nat)
    (move : Move V P) : Prop
  | empty : c.states.drop (parser.tables.production p).length = [] →
      move = .stop (.error .emptyStack) c → ReduceCase parser env c p move
  | accept {v : Option V} {after : Context V P} :
      parser.actions.run env.nested (parser.handed c p) = (.accept v, after) →
      move = .stop (.ok v) { c with params := after.params } → ReduceCase parser env c p move
  | abort {after : Context V P} :
      parser.actions.run env.nested (parser.handed c p) = (.abort, after) →
      move = .stop (.error .aborted) { c with params := after.params } →
      ReduceCase parser env c p move
  | missing {state : Nat} {deeper : List Nat} {after : Context V P} :
      c.states.drop (parser.tables.production p).length = state :: deeper →
      parser.tables.goto state (parser.tables.production p).left = none →
      move = .stop (.error .missingGoto) { c with params := after.params } →
      ReduceCase parser env c p move
  | next {state next : Nat} {deeper : List Nat} {v : Option V} {after : Context V P} :
      c.states.drop (parser.tables.production p).length = state :: deeper →
      parser.actions.run env.nested (parser.handed c p) = (.value v, after) →
      parser.tables.goto state (parser.tables.production p).left = some next →
      move = .next (.reduce (parser.handed c p)) { c with
        states := next :: state :: deeper
        entries := ⟨v, after.location⟩ :: c.entries.drop (parser.tables.production p).length
        params := after.params } → ReduceCase parser env c p move

theorem reduce_cases (parser : Parser V P) (env : Environment V P) (c : Config V P) (p : Nat) :
    ReduceCase parser env c p (parser.reduce env c p) := by
  cases hdrop : c.states.drop (parser.tables.production p).length with
  | nil =>
    refine .empty hdrop ?_
    simp only [Parser.reduce, hdrop]
  | cons state deeper =>
    cases hrun : parser.actions.run env.nested (parser.handed c p) with
    | mk reply after =>
      have hmove := hrun
      rw [Parser.handed] at hmove
      cases reply with
      | accept v =>
        refine .accept hrun ?_
        simp only [Parser.reduce, hdrop, hmove]
      | abort =>
        refine .abort hrun ?_
        simp only [Parser.reduce, hdrop, hmove]
      | value v =>
        cases hgoto : parser.tables.goto state (parser.tables.production p).left with
        | none =>
          have hstop : parser.reduce env c p =
              .stop (.error .missingGoto) { c with params := after.params } := by
            simp only [Parser.reduce, hdrop, hmove, hgoto]
          exact .missing hdrop hgoto hstop
        | some next =>
          refine .next hdrop hrun hgoto ?_
          simp only [Parser.reduce, hdrop, hmove, hgoto, Parser.handed]

theorem exists_goto_of_reduce {c c' : Config V P} {p : Nat} {e : Event V P}
    (h : parser.reduce env c p = .next e c') : ∃ state deeper next v after,
      c.states.drop (parser.tables.production p).length = state :: deeper ∧
      parser.actions.run env.nested (parser.handed c p) = (.value v, after) ∧
      parser.tables.goto state (parser.tables.production p).left = some next ∧
      e = .reduce (parser.handed c p) ∧ c' = { c with
        states := next :: state :: deeper
        entries := ⟨v, after.location⟩ :: c.entries.drop (parser.tables.production p).length
        params := after.params } := by
  cases reduce_cases parser env c p with
  | empty _ hmove | accept _ hmove | abort _ hmove | missing _ _ hmove =>
    rw [hmove] at h
    cases h
  | next hdrop hrun hgoto hmove =>
    rw [hmove] at h
    cases h
    exact ⟨_, _, _, _, _, hdrop, hrun, hgoto, rfl, rfl⟩

theorem reduce_next_eq {c c' : Config V P} {p : Nat} {e : Event V P}
    (h : parser.reduce env c p = .next e c') :
    (∃ context, e = .reduce context) ∧ c'.lookahead = c.lookahead ∧ c'.input = c.input ∧
      c'.recovering = c.recovering ∧ c'.reported = c.reported := by
  obtain ⟨_, _, _, _, _, -, -, -, rfl, rfl⟩ := exists_goto_of_reduce h
  exact ⟨⟨_, rfl⟩, rfl, rfl, rfl, rfl⟩

/-- What an error leaves to recover with: what it discards, and the lookahead and input after
that; `none` if it ends the run at once. -/
def Parser.attempt (parser : Parser V P) (env : Environment V P) (c : Config V P) (state : Nat)
    (la : Lookahead V) : Option (List (Lookahead V) × Lookahead V × Source V) :=
  let error := parser.tables.syntaxError state la c.states
  if c.recovering = 0 then
    if (env.onError c.reported error).isNone && error.recoverable then some ([], la, c.input)
    else none
  else if c.recovering = recoveryShifts then
    if la.isEnd then none
    else
      match parser.tables.read c.entries c.input with
      | .error _ => none
      | .ok (next, input) => some ([la], next, input)
  else some ([], la, c.input)

theorem attempt_eq_some {c : Config V P} {s : Nat} {la la' : Lookahead V}
    {dropped : List (Lookahead V)} {input : Source V}
    (h : parser.attempt env c s la = some (dropped, la', input)) :
    (dropped = [] ∧ la' = la ∧ input = c.input ∧ c.recovering ≠ recoveryShifts) ∨
      dropped = [la] ∧ la.isEnd = false ∧
        parser.tables.read c.entries c.input = .ok (la', input) := by
  simp only [Parser.attempt] at h
  split at h
  case isTrue hzero =>
    split at h
    · cases h
      refine Or.inl ⟨rfl, rfl, rfl, ?_⟩
      rw [hzero]
      decide
    · cases h
  case isFalse =>
    split at h
    case isTrue =>
      split at h
      · cases h
      case isFalse hend =>
        split at h
        · cases h
        case h_2 hread =>
          cases h
          exact Or.inr ⟨rfl, by simpa using hend, hread⟩
    case isFalse hshifts =>
      cases h
      exact Or.inl ⟨rfl, rfl, rfl, hshifts⟩

inductive RecoverCase (parser : Parser V P) (c : Config V P) (error : SyntaxError)
    (la : Lookahead V) (dropped : List (Lookahead V)) (move : Move V P) : Prop
  | unexpected : parser.tables.recoveryPoint c.states 0 = none →
      move = .stop (.error (.unexpected error)) c → RecoverCase parser c error la dropped move
  | halted {e : SyntaxError} :
      move = .stop (.error (.recoveryHalted e)) c → RecoverCase parser c error la dropped move
  | lexical {e : LexError} :
      move = .stop (.error (.lexical e)) c → RecoverCase parser c error la dropped move
  | found {popped next : Nat} {la' : Lookahead V} {input : Source V}
      {discarded : List (Lookahead V)} :
      parser.tables.recoveryPoint c.states 0 = some (popped, next) →
      parser.tables.discard next (⟨none, la.location⟩ :: c.entries.drop popped) c.input la
        dropped = .found la' input discarded →
      move = .next (.recover popped discarded) { c with
        states := next :: c.states.drop popped
        entries := ⟨none, la.location⟩ :: c.entries.drop popped
        input := input, lookahead := some la', recovering := recoveryShifts } →
      RecoverCase parser c error la dropped move

theorem recover_cases (parser : Parser V P) (c : Config V P) (error : SyntaxError)
    (la : Lookahead V) (dropped : List (Lookahead V)) :
    RecoverCase parser c error la dropped (parser.recover c error la dropped) := by
  cases hpoint : parser.tables.recoveryPoint c.states 0 with
  | none =>
    refine .unexpected hpoint ?_
    simp only [Parser.recover, hpoint]
  | some point =>
    obtain ⟨popped, next⟩ := point
    cases hdiscard : parser.tables.discard next (⟨none, la.location⟩ :: c.entries.drop popped)
        c.input la dropped with
    | found la' input discarded =>
      refine .found hpoint hdiscard ?_
      simp only [Parser.recover, hpoint, hdiscard]
    | halted la' =>
      refine .halted (e := parser.tables.syntaxError next la' (next :: c.states.drop popped)) ?_
      simp only [Parser.recover, hpoint, hdiscard]
    | failed e =>
      refine .lexical (e := e) ?_
      simp only [Parser.recover, hpoint, hdiscard]

theorem recover_next {c c' : Config V P} {error : SyntaxError} {la : Lookahead V}
    {dropped : List (Lookahead V)} {e : Event V P}
    (h : parser.recover c error la dropped = .next e c') :
    ∃ popped next la' input discarded,
      parser.tables.recoveryPoint c.states 0 = some (popped, next) ∧
      parser.tables.discard next (⟨none, la.location⟩ :: c.entries.drop popped) c.input la
        dropped = .found la' input discarded ∧ e = .recover popped discarded ∧
      c' = { c with
        states := next :: c.states.drop popped
        entries := ⟨none, la.location⟩ :: c.entries.drop popped
        input := input, lookahead := some la', recovering := recoveryShifts } := by
  cases recover_cases parser c error la dropped with
  | unexpected _ hmove | halted hmove | lexical hmove =>
    rw [hmove] at h
    cases h
  | found hpoint hdiscard hmove =>
    rw [hmove] at h
    cases h
    exact ⟨_, _, _, _, _, hpoint, hdiscard, rfl, rfl⟩

def Parser.noted (parser : Parser V P) (c : Config V P) (state : Nat) (la : Lookahead V) :
    Config V P :=
  { c with
    reported := if c.recovering = 0 then
        parser.tables.syntaxError state la c.states :: c.reported
      else c.reported }

inductive FailCase (parser : Parser V P) (env : Environment V P) (c : Config V P) (state : Nat)
    (la : Lookahead V) (move : Move V P) : Prop
  | answered {e : ParseError} : parser.attempt env c state la = none →
      env.onError c.reported (parser.tables.syntaxError state la c.states) = some e →
      move = .stop (.error e) (parser.noted c state la) → FailCase parser env c state la move
  | unexpected : parser.attempt env c state la = none →
      (parser.tables.syntaxError state la c.states).recoverable = false →
      move = .stop (.error (.unexpected (parser.tables.syntaxError state la c.states)))
        (parser.noted c state la) → FailCase parser env c state la move
  | halted {e : SyntaxError} : parser.attempt env c state la = none →
      move = .stop (.error (.recoveryHalted e)) (parser.noted c state la) →
      FailCase parser env c state la move
  | lexical {e : LexError} : parser.attempt env c state la = none →
      move = .stop (.error (.lexical e)) (parser.noted c state la) →
      FailCase parser env c state la move
  | recover {dropped : List (Lookahead V)} {la' : Lookahead V} {input : Source V} :
      parser.attempt env c state la = some (dropped, la', input) →
      (c.recovering = 0 → (parser.tables.syntaxError state la c.states).recoverable = true) →
      move = parser.recover { parser.noted c state la with input := input }
        (parser.tables.syntaxError state la c.states) la' dropped →
      FailCase parser env c state la move

theorem fail_cases (parser : Parser V P) (env : Environment V P) (c : Config V P) (state : Nat)
    (la : Lookahead V) : FailCase parser env c state la (parser.fail env c state la) := by
  by_cases hzero : c.recovering = 0
  · cases hanswer : env.onError c.reported (parser.tables.syntaxError state la c.states) with
    | some e =>
      refine .answered ?_ hanswer ?_
      · simp [Parser.attempt, hzero, hanswer]
      · simp [Parser.fail, Parser.noted, hzero, hanswer]
    | none =>
      cases hrecoverable : (parser.tables.syntaxError state la c.states).recoverable with
      | true =>
        have hattempt : parser.attempt env c state la = some ([], la, c.input) := by
          simp [Parser.attempt, hzero, hanswer, hrecoverable]
        refine .recover hattempt (fun _ => hrecoverable) ?_
        simp [Parser.fail, Parser.noted, hzero, hanswer, hrecoverable]
      | false =>
        refine .unexpected ?_ hrecoverable ?_
        · simp [Parser.attempt, hzero, hanswer, hrecoverable]
        · simp [Parser.fail, Parser.noted, hzero, hanswer, hrecoverable]
  · have hnoted : parser.noted c state la = c := by simp [Parser.noted, hzero]
    by_cases hshifts : c.recovering = recoveryShifts
    · cases hend : la.isEnd with
      | true =>
        refine .halted (e := parser.tables.syntaxError state la c.states) ?_ ?_
        · simp [Parser.attempt, if_neg hzero, if_pos hshifts, hend]
        · simp [Parser.fail, hnoted, if_neg hzero, if_pos hshifts, hend]
      | false =>
        cases hread : parser.tables.read c.entries c.input with
        | error e =>
          refine .lexical (e := e) ?_ ?_
          · simp [Parser.attempt, if_neg hzero, if_pos hshifts, hend, hread]
          · simp [Parser.fail, hnoted, if_neg hzero, if_pos hshifts, hend, hread]
        | ok r =>
          obtain ⟨next, input⟩ := r
          have hattempt : parser.attempt env c state la = some ([la], next, input) := by
            simp [Parser.attempt, if_neg hzero, if_pos hshifts, hend, hread]
          refine .recover hattempt (absurd · hzero) ?_
          simp [Parser.fail, hnoted, if_neg hzero, if_pos hshifts, hend, hread]
    · have hattempt : parser.attempt env c state la = some ([], la, c.input) := by
        simp only [Parser.attempt, if_neg hzero, if_neg hshifts]
      refine .recover hattempt (absurd · hzero) ?_
      simp only [Parser.fail, hnoted, if_neg hzero, if_neg hshifts]

end TableParsing.ShiftReduce
