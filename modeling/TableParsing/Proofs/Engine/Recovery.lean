import TableParsing.Proofs.Engine.Safety

/-! Recovery is bounded by the tokens of the source. Every step accounts for the tokens it
consumes, and a recovery comes after a token was shifted since the last one, or discards the
offending token first. It keeps the topmost state that shifts the recovery token with all that
is beneath, and goes on with a lookahead that the state after it can handle. -/

namespace TableParsing.ShiftReduce

variable {V P : Type}

def Source.tokens (source : Source V) : List (Token V) := source.filterMap Except.toOption

def Config.unread (c : Config V P) : List (Token V) :=
  (c.lookahead.bind (·.token)).toList ++ Source.tokens c.input

def Event.consumed : Event V P → List (Token V)
  | .shift la => la.token.toList
  | .reduce _ => []
  | .recover _ discarded => discarded.filterMap (·.token)

theorem Tables.tokens_read {t : Tables} {entries : List (Entry V)} {input rest : Source V}
    {la : Lookahead V} (h : t.read entries input = .ok (la, rest)) :
    Source.tokens input = la.token.toList ++ Source.tokens rest := by
  simp only [Tables.read] at h
  split at h
  · cases h
    rfl
  · cases h
    rfl
  · cases h

theorem Parser.unread_look {parser : Parser V P} {c : Config V P} {la : Lookahead V}
    {input : Source V} (h : parser.look c = .ok (la, input)) :
    c.unread = la.token.toList ++ Source.tokens input := by
  rw [Parser.look] at h
  split at h
  case h_1 held =>
    cases h
    rw [Config.unread, held]
    rfl
  case h_2 held =>
    rw [Config.unread, held]
    exact Tables.tokens_read h

theorem Source.tokens_map_ok (tokens : List (Token V)) :
    Source.tokens (tokens.map .ok) = tokens := by
  induction tokens with
  | nil => rfl
  | cons token tokens ih => exact congrArg (token :: ·) ih

theorem Source.eq_map_ok {source : Source V} (h : ∀ e, .error e ∉ source) :
    source = (Source.tokens source).map .ok := by
  induction source with
  | nil => rfl
  | cons item source ih =>
    have hrest := ih fun e he => h e (List.mem_cons_of_mem _ he)
    cases item with
    | error e => exact absurd List.mem_cons_self (h e)
    | ok token => exact congrArg (.ok token :: ·) hrest

theorem Pending.unread_eq {parser : Parser V P} {c : Config V P} {rest : List (Token V)}
    (h : Pending parser.tables c rest) : c.unread = rest := by
  obtain ⟨la, input, hlook, hreads⟩ := h.look
  rw [Parser.unread_look hlook]
  cases hreads with
  | token token rest => exact congrArg (token :: ·) (Source.tokens_map_ok rest)
  | ending _ htoken =>
    rw [htoken]
    rfl

structure Tables.Supplies (t : Tables) (Q : Lookahead V → Prop) : Prop where
  token : ∀ token, Q (t.ofToken token)
  ending : ∀ entries, Q (endLookahead entries)

theorem Tables.Supplies.read {t : Tables} {Q : Lookahead V → Prop} (hQ : t.Supplies Q)
    {entries : List (Entry V)} {input rest : Source V} {la : Lookahead V}
    (h : t.read entries input = .ok (la, rest)) : Q la := by
  simp only [Tables.read] at h
  split at h
  · cases h
    exact hQ.ending entries
  · cases h
    exact hQ.token _
  · cases h

theorem Parser.look_holds {parser : Parser V P} {Q : Lookahead V → Prop}
    (hQ : parser.tables.Supplies Q) {c : Config V P} {la : Lookahead V} {input : Source V}
    (h : parser.look c = .ok (la, input)) (hc : ∀ la, c.lookahead = some la → Q la) : Q la := by
  rw [Parser.look] at h
  split at h
  case h_1 held =>
    cases h
    exact hc la held
  case h_2 => exact hQ.read h

theorem Tables.discard_found {t : Tables} {state : Nat} {entries : List (Entry V)}
    {input input' : Source V} {la la' : Lookahead V} {discarded all : List (Lookahead V)}
    (h : t.discard state entries input la discarded = .found la' input' all) :
    t.handles state la' = true ∧ (∀ {Q}, t.Supplies Q → Q la → Q la') ∧
      ∃ more, all = discarded.reverse ++ more ∧ la.token.toList ++ Source.tokens input =
        more.filterMap (·.token) ++ (la'.token.toList ++ Source.tokens input') := by
  induction input generalizing la discarded with
  | nil =>
    simp only [Tables.discard] at h
    split at h
    case isTrue hla =>
      cases h
      exact ⟨hla, fun _ hla => hla, [], by simp, rfl⟩
    case isFalse =>
      split at h
      · cases h
      · split at h
        case isTrue hend =>
          cases h
          refine ⟨hend, fun hQ _ => hQ.ending entries, [la], by simp, ?_⟩
          cases htoken : la.token <;> simp [htoken, endLookahead]
        case isFalse => cases h
  | cons item rest ih =>
    simp only [Tables.discard] at h
    split at h
    case isTrue hla =>
      cases h
      exact ⟨hla, fun _ hla => hla, [], by simp, rfl⟩
    case isFalse =>
      split at h
      · cases h
      · split at h
        case h_1 token =>
          obtain ⟨hla, hholds, more, hall, htokens⟩ := ih h
          refine ⟨hla, fun hQ _ => hholds hQ (hQ.token token), la :: more, by simp [hall], ?_⟩
          have hitem : Source.tokens (.ok token :: rest) =
              (t.ofToken token).token.toList ++ Source.tokens rest := rfl
          rw [hitem, htokens]
          cases htoken : la.token <;> simp [htoken]
        case h_2 => cases h

structure Recovery (V : Type) where
  dropped : List (Lookahead V)
  lookahead : Lookahead V
  input : Source V
  popped : Nat
  next : Nat

/-- The recovery that a step from a configuration makes, also if the run then ends because no
token can follow it. -/
def Parser.recovery? (parser : Parser V P) (env : Environment V P) (c : Config V P) :
    Option (Recovery V) :=
  match c.states with
  | [] => none
  | state :: _ =>
    if parser.meetsError c then
      match parser.look c with
      | .error _ => none
      | .ok (la, input) =>
        match parser.attempt env { c with lookahead := none, input } state la with
        | none => none
        | some (dropped, la, input) =>
          (parser.tables.recoveryPoint c.states 0).map fun (popped, next) =>
            ⟨dropped, la, input, popped, next⟩
    else none

variable {parser : Parser V P} {env : Environment V P} {c c' : Config V P}

inductive Effect (parser : Parser V P) (env : Environment V P) (c : Config V P) :
    Event V P → Config V P → Prop
  | shift {s next : Nat} {states : List Nat} {la : Lookahead V} {input : Source V} :
      c.states = s :: states → parser.tables.defaultReduction s = none →
      parser.look c = .ok (la, input) → parser.tables.actionOn s la = .shift next →
      Effect parser env c (.shift la) (shifted c la input next)
  | reduce {s p : Nat} {states : List Nat} {c₁ c' : Config V P} {context : Context V P} :
      c.states = s :: states →
      (c₁ = c ∧ parser.tables.defaultReduction s = some p ∨
        parser.tables.defaultReduction s = none ∧ ∃ la input, parser.look c = .ok (la, input) ∧
          c₁ = { c with lookahead := some la, input := input } ∧
          parser.tables.actionOn s la = .reduce p) →
      parser.reduce env c₁ p = .next (.reduce context) c' →
      Effect parser env c (.reduce context) c'
  | recover {r : Recovery V} {reported : List SyntaxError} {error : SyntaxError}
      {discarded : List (Lookahead V)} {c' : Config V P} :
      parser.recovery? env c = some r →
      parser.recover { c with lookahead := none, input := r.input, reported := reported } error
        r.lookahead r.dropped = .next (.recover r.popped discarded) c' →
      Effect parser env c (.recover r.popped discarded) c'

theorem step_effect {e : Event V P} (h : parser.step env c = .next e c') :
    Effect parser env c e c' := by
  cases step_cases parser env c with
  | empty _ hmove | lexical _ _ _ hmove | accept _ _ _ _ hmove =>
    rw [hmove] at h
    cases h
  | shift hstates hdefault hlook haction hmove =>
    rw [hmove] at h
    cases h
    exact .shift hstates hdefault hlook haction
  | reduce hstates hheld hmove =>
    rw [hmove] at h
    obtain ⟨⟨context, rfl⟩, -⟩ := reduce_next_eq h
    exact .reduce hstates hheld h
  | @error s states la input hstates hdefault hlook haction hmove =>
    rw [hmove] at h
    cases fail_cases parser env { c with lookahead := none, input := input } s la with
    | answered _ _ hfail | unexpected _ _ hfail | halted _ hfail | lexical _ hfail =>
      rw [hfail] at h
      cases h
    | @recover dropped la' rest hattempt _ hfail =>
      rw [hfail] at h
      obtain ⟨popped, next, _, _, discarded, hpoint, -, rfl, -⟩ := recover_next h
      refine .recover (r := ⟨dropped, la', rest, popped, next⟩) ?_ h
      have hmeets := meetsError_of_error hstates hdefault hlook haction
      have hsearch : parser.tables.recoveryPoint c.states 0 = some (popped, next) := hpoint
      simp only [Parser.recovery?, hstates, hmeets, if_true, hlook]
      rw [← hstates, hattempt, hsearch]
      rfl

theorem recovery?_eq_some {r : Recovery V} (h : parser.recovery? env c = some r) :
    ∃ la input, parser.look c = .ok (la, input) ∧
      parser.tables.recoveryPoint c.states 0 = some (r.popped, r.next) ∧
      ((r.dropped = [] ∧ r.lookahead = la ∧ r.input = input ∧ c.recovering ≠ recoveryShifts) ∨
        r.dropped = [la] ∧ la.isEnd = false ∧
          parser.tables.read c.entries input = .ok (r.lookahead, r.input)) := by
  simp only [Parser.recovery?] at h
  split at h
  · cases h
  split at h
  · split at h
    · cases h
    case h_2 la input hlook =>
      split at h
      · cases h
      case h_2 dropped la' rest hattempt =>
        obtain ⟨⟨popped, next⟩, hpoint, rfl⟩ := Option.map_eq_some_iff.mp h
        exact ⟨la, input, hlook, hpoint, attempt_eq_some hattempt⟩
  · cases h

theorem unread_recovery {r : Recovery V} (h : parser.recovery? env c = some r) :
    c.unread = r.dropped.reverse.filterMap (·.token) ++
      (r.lookahead.token.toList ++ Source.tokens r.input) := by
  obtain ⟨la, input, hlook, -, ⟨hdropped, hla, hinput, -⟩ | ⟨hdropped, -, hread⟩⟩ :=
    recovery?_eq_some h
  · rw [Parser.unread_look hlook, hdropped, hla, hinput]
    rfl
  · rw [Parser.unread_look hlook, hdropped, Tables.tokens_read hread]
    cases htoken : la.token <;> simp [htoken]

theorem recovery?_eq_none_of_clean (h : parser.meetsError c = false) :
    parser.recovery? env c = none := by
  simp only [Parser.recovery?, h]
  split <;> rfl

theorem dropped_of_recovering {r : Recovery V} (h : parser.recovery? env c = some r)
    (hshifts : c.recovering = recoveryShifts) : ∃ la token, r.dropped = [la] ∧
      la.token = some token := by
  obtain ⟨la, -, -, -, ⟨-, -, -, hne⟩ | ⟨hdropped, hend, -⟩⟩ := recovery?_eq_some h
  · exact absurd hshifts hne
  · rw [Lookahead.isEnd, Option.isNone_eq_false_iff, Option.isSome_iff_exists] at hend
    obtain ⟨token, htoken⟩ := hend
    exact ⟨la, token, hdropped, htoken⟩

/-- The stack is cut at the topmost state that shifts the recovery token, and the run goes on
with a lookahead that the state after it can handle. -/
structure Resumed (t : Tables) (c : Config V P) (popped : Nat) (c' : Config V P) : Prop where
  above : ∀ s ∈ c.states.take popped, t.shiftsError s = none
  kept : ∃ s below next, c.states.drop popped = s :: below ∧ t.shiftsError s = some next ∧
    c'.states = next :: s :: below
  entries : ∃ location, c'.entries = ⟨none, location⟩ :: c.entries.drop popped
  handled : ∃ s below la, c'.states = s :: below ∧ c'.lookahead = some la ∧
    (t.defaultReduction s ≠ none ∨ t.actionOn s la ≠ .error)

namespace Effect

variable {e : Event V P}

theorem resumed {popped : Nat} {discarded : List (Lookahead V)}
    (h : Effect parser env c (.recover popped discarded) c') :
    Resumed parser.tables c popped c' := by
  generalize he : Event.recover popped discarded = e at h
  cases h with
  | shift => cases he
  | reduce => cases he
  | recover _ hrecover =>
    cases he
    obtain ⟨popped, next, la, input, discarded, hpoint, hdiscard, heq, rfl⟩ := recover_next hrecover
    cases heq
    obtain ⟨i, s, below, hi, hdrop, hs, habove⟩ := recoveryPoint_topmost hpoint
    rw [Nat.zero_add] at hi
    subst hi
    have hhandles := (Tables.discard_found hdiscard).1
    refine ⟨habove, ⟨s, below, next, hdrop, hs, ?_⟩, ⟨_, rfl⟩, ⟨next, _, la, rfl, rfl, ?_⟩⟩
    · rw [← hdrop]
    · simpa [Tables.handles, Option.isSome_iff_ne_none] using hhandles

theorem of_shift {la : Lookahead V} (h : Effect parser env c (.shift la) c') :
    ∃ s states next input, c.states = s :: states ∧ parser.look c = .ok (la, input) ∧
      parser.tables.actionOn s la = .shift next ∧ c' = shifted c la input next := by
  generalize he : Event.shift la = e at h
  cases h with
  | reduce => cases he
  | recover => cases he
  | shift hstates _ hlook haction =>
    cases he
    exact ⟨_, _, _, _, hstates, hlook, haction, rfl⟩

theorem of_reduce {g : Grammar} {a : Automaton} (ht : parser.tables.Realizes g a)
    {context : Context V P} (h : Effect parser env c (.reduce context) c') :
    ∃ s states p c₁, c.states = s :: states ∧ c₁.states = c.states ∧ c₁.entries = c.entries ∧
      (∃ st, a.states[s]? = some st ∧ p ∈ st.reduces.map (·.1)) ∧
      parser.reduce env c₁ p = .next (.reduce context) c' := by
  generalize he : Event.reduce context = e at h
  cases h with
  | shift => cases he
  | recover => cases he
  | reduce hstates hheld hreduce =>
    cases he
    rcases hheld with ⟨rfl, hdefault⟩ | ⟨-, la, input, -, rfl, haction⟩
    · exact ⟨_, _, _, _, hstates, rfl, rfl, ht.default hdefault, hreduce⟩
    · obtain ⟨u, -, hcell⟩ := Tables.actionOn_eq haction (by simp)
      exact ⟨_, _, _, { c with lookahead := some la, input := input }, hstates, rfl, rfl,
        ht.reduce hcell, hreduce⟩

theorem stacked_reduce {g : Grammar} {a : Automaton} (wf : g.WellFormed) (hf : a.Faithful g)
    (ht : parser.tables.Realizes g a) {context : Context V P}
    (h : Effect parser env c (.reduce context) c') {γ : List Symbol}
    (hγ : Stacked a γ c.states) : ∃ p δ, γ = (g.production p).right.toList.reverse ++ δ ∧
      Viable g γ (.completed g p) ∧
      Stacked a (.nonterminal (g.production p).left :: δ) c'.states := by
  obtain ⟨s, states, p, c₁, hstates, hsame, -, ⟨st, hst, hp⟩, hreduce⟩ := h.of_reduce ht
  rw [hstates] at hγ hsame
  have hd := hf.describes hγ.stateAfter_eq hst
  obtain ⟨δ, state, deeper, next, hδ, hdrop, hstacked, hgoto⟩ := exists_goto wf hf hγ hst hp
  obtain ⟨state', deeper', next', v, after, hdrop', hgoto', -, -, rfl⟩ :=
    reduced_of_next ht hreduce
  rw [hsame, hdrop] at hdrop'
  cases hdrop'
  rw [hgoto] at hgoto'
  cases hgoto'
  refine ⟨p, δ, hδ, (hd.completed p).mp hp, ?_⟩
  rw [reduced, hsame, hdrop]
  exact .push hstacked hgoto

theorem recovered {popped : Nat} {discarded : List (Lookahead V)}
    (h : Effect parser env c (.recover popped discarded) c') :
    ∃ r, parser.recovery? env c = some r ∧ r.popped = popped ∧ r.dropped.reverse <+: discarded := by
  generalize he : Event.recover popped discarded = e at h
  cases h with
  | shift => cases he
  | reduce => cases he
  | @recover r _ _ _ _ hr hrecover =>
    cases he
    obtain ⟨_, _, _, _, _, -, hdiscard, heq, -⟩ := recover_next hrecover
    cases heq
    obtain ⟨-, -, more, hall, -⟩ := Tables.discard_found hdiscard
    exact ⟨r, hr, rfl, more, hall.symm⟩

theorem unread (h : Effect parser env c e c') : c.unread = e.consumed ++ c'.unread := by
  cases h with
  | shift _ _ hlook _ =>
    rw [Parser.unread_look hlook]
    rfl
  | reduce _ hheld hreduce =>
    obtain ⟨-, hlookahead, hinput, -⟩ := reduce_next_eq hreduce
    rw [Event.consumed, List.nil_append, Config.unread.eq_1 c', hlookahead, hinput]
    rcases hheld with ⟨rfl, -⟩ | ⟨-, la, input, hlook, rfl, -⟩
    · rfl
    · exact Parser.unread_look hlook
  | recover hr hrecover =>
    obtain ⟨popped, next, la, input, discarded, -, hdiscard, heq, rfl⟩ := recover_next hrecover
    cases heq
    obtain ⟨-, -, more, rfl, htokens⟩ := Tables.discard_found hdiscard
    rw [unread_recovery hr, htokens, Event.consumed, List.filterMap_append, List.append_assoc]
    rfl

theorem lookahead {Q : Lookahead V → Prop} (hQ : parser.tables.Supplies Q)
    (h : Effect parser env c e c') (hc : ∀ la, c.lookahead = some la → Q la) :
    ∀ la, c'.lookahead = some la → Q la := by
  intro la hla
  cases h with
  | shift => cases hla
  | reduce _ hheld hreduce =>
    rw [(reduce_next_eq hreduce).2.1] at hla
    rcases hheld with ⟨rfl, -⟩ | ⟨-, la', input, hlook, rfl, -⟩
    · exact hc la hla
    · cases hla
      exact Parser.look_holds hQ hlook hc
  | recover hr hrecover =>
    obtain ⟨popped, next, la', input, discarded, -, hdiscard, -, rfl⟩ := recover_next hrecover
    cases hla
    apply (Tables.discard_found hdiscard).2.1 hQ
    obtain ⟨la, input, hlook, -, ⟨-, hla, -⟩ | ⟨-, -, hread⟩⟩ := recovery?_eq_some hr
    · rw [hla]
      exact Parser.look_holds hQ hlook hc
    · exact hQ.read hread

theorem clean (h : Effect parser env c e c')
    (hrecover : ∀ popped discarded, e ≠ .recover popped discarded) :
    parser.meetsError c = false := by
  cases h with
  | shift hstates _ hlook haction => exact meetsError_eq_false hstates hlook (by simp [haction])
  | reduce hstates hheld _ =>
    rcases hheld with ⟨rfl, hdefault⟩ | ⟨-, la, input, hlook, -, haction⟩
    · exact meetsError_default hstates hdefault
    · exact meetsError_eq_false hstates hlook (by simp [haction])
  | recover => exact absurd rfl (hrecover _ _)

theorem recovery?_eq_none (h : Effect parser env c e c')
    (hrecover : ∀ popped discarded, e ≠ .recover popped discarded) :
    parser.recovery? env c = none := recovery?_eq_none_of_clean (h.clean hrecover)

theorem isSome_recovery? (h : Effect parser env c e c') :
    (parser.recovery? env c).isSome ↔ ∃ popped discarded, e = .recover popped discarded := by
  constructor
  · intro hr
    by_contra hne
    have hnone := h.recovery?_eq_none fun popped discarded he => hne ⟨popped, discarded, he⟩
    rw [hnone] at hr
    cases hr
  · rintro ⟨popped, discarded, rfl⟩
    obtain ⟨r, hr, -⟩ := h.recovered
    rw [hr]
    rfl

theorem recovering (h : Effect parser env c e c') : c'.recovering =
    match e with
    | .shift _ => c.recovering - 1
    | .reduce _ => c.recovering
    | .recover _ _ => recoveryShifts := by
  cases h with
  | shift => rfl
  | reduce _ hheld hreduce =>
    rw [(reduce_next_eq hreduce).2.2.2.1]
    rcases hheld with ⟨rfl, -⟩ | ⟨-, la, input, -, rfl, -⟩ <;> rfl
  | recover _ hrecover =>
    obtain ⟨_, _, _, _, _, -, -, -, rfl⟩ := recover_next hrecover
    rfl

end Effect

section Invariant

variable {g : Grammar} {a : Automaton}

def Lookahead.Legible (la : Lookahead V) : Prop :=
  la.token = none → la.terminal = some Symbol.endOfInput

theorem supplies_legible (t : Tables) : t.Supplies (Lookahead.Legible (V := V)) :=
  ⟨fun _ hnone => (by cases hnone), fun _ _ => rfl⟩

/-- What holds of every configuration of a run, whatever is answered to error reports. -/
structure Reading (a : Automaton) (c : Config V P) : Prop where
  path : OnPath a c
  legible : ∀ la, c.lookahead = some la → la.Legible

theorem reading_start (source : Source V) (params : P) : Reading a (start source params) :=
  ⟨onPath_start source params, fun la h => by cases h⟩

variable (wf : g.WellFormed) (hf : a.Faithful g) (ht : parser.tables.Realizes g a)
  {e : Event V P} (h : Effect parser env c e c')

include hf ht h in
theorem Effect.shifts_token (hc : Reading a c) {la : Lookahead V} (he : e = .shift la) :
    ∃ token, la.token = some token := by
  cases h with
  | reduce => cases he
  | recover => cases he
  | @shift s next states la' input hstates _ hlook haction =>
    cases he
    cases htoken : la.token with
    | some token => exact ⟨token, rfl⟩
    | none =>
      have hend := Parser.look_holds (supplies_legible _) hlook hc.legible htoken
      rw [Tables.actionOn, hend] at haction
      have hstep := ht.shift haction
      obtain ⟨γ, hγ⟩ := hc.path.stacked
      rw [hstates] at hγ
      exact absurd rfl (hf.viable_of_step hγ.stateAfter_eq hstep).1

include wf hf ht h in
theorem Effect.reading (hc : Reading a c) : Reading a c' := by
  refine ⟨?_, h.lookahead (supplies_legible _) hc.legible⟩
  cases h with
  | @shift s next states la input hstates _ _ haction =>
    obtain ⟨u, -, haction⟩ := Tables.actionOn_eq haction (by simp)
    obtain ⟨γ, hγ⟩ := hc.path.stacked
    rw [hstates] at hγ
    refine ⟨⟨.terminal u :: γ, ?_⟩, ?_⟩
    · rw [shifted, hstates]
      exact .push hγ (ht.shift haction)
    · simp only [shifted, List.length_cons, hc.path.heights]
  | @reduce s p states c₁ c' context hstates hheld hreduce =>
    have hsafe : (Move.next (.reduce context) c').Safe a := by
      rw [← hreduce]
      rcases hheld with ⟨rfl, hdefault⟩ | ⟨-, la, input, -, rfl, haction⟩
      · obtain ⟨st, hst, hp⟩ := ht.default hdefault
        exact reduce_safe ht wf hf hc.path hstates hst hp
      · obtain ⟨u, -, haction⟩ := Tables.actionOn_eq haction (by simp)
        obtain ⟨st, hst, hp⟩ := ht.reduce haction
        exact reduce_safe ht wf hf (hc.path.of_eq rfl rfl) hstates hst hp
    exact hsafe
  | @recover r reported error discarded c' _ hrecover =>
    have hsafe : (Move.next (.recover r.popped discarded) c').Safe a := by
      rw [← hrecover]
      apply recover_safe ht
      exact hc.path.of_eq rfl rfl
    exact hsafe

end Invariant

def allowance (c : Config V P) : Nat := if c.recovering = recoveryShifts then 0 else 1

theorem allowance_le (c : Config V P) : allowance c ≤ 1 := by
  rw [allowance]
  split <;> omega

theorem one_le_dropped {r : Recovery V} (h : parser.recovery? env c = some r) :
    1 ≤ (r.dropped.filterMap (·.token)).length + allowance c := by
  by_cases hshifts : c.recovering = recoveryShifts
  · obtain ⟨la, token, hdropped, htoken⟩ := dropped_of_recovering h hshifts
    simp [hdropped, htoken]
  · simp [allowance, hshifts]

theorem dropped_le_unread {r : Recovery V} (h : parser.recovery? env c = some r) :
    (r.dropped.filterMap (·.token)).length ≤ c.unread.length := by
  rw [unread_recovery h, List.filterMap_reverse, List.length_append, List.length_reverse]
  omega

def recoveries (parser : Parser V P) (env : Environment V P)
    (history : List (Config V P × Move V P)) : Nat :=
  history.countP fun m => (parser.recovery? env m.1).isSome

section Bound

variable {g : Grammar} {a : Automaton} (wf : g.WellFormed) (hf : a.Faithful g)
  (ht : parser.tables.Realizes g a)

include hf ht

theorem Effect.pays {e : Event V P} (h : Effect parser env c e c') (hc : Reading a c) :
    match e with
    | .shift _ => c'.unread.length + 1 = c.unread.length
    | .reduce _ => c'.unread.length = c.unread.length ∧ allowance c' = allowance c
    | .recover _ _ => c'.unread.length + 1 ≤ c.unread.length + allowance c ∧ allowance c' = 0 := by
  have hunread := congrArg List.length h.unread
  rw [List.length_append] at hunread
  have hrecovering := h.recovering
  cases e with
  | shift la =>
    obtain ⟨token, htoken⟩ := h.shifts_token hf ht hc rfl
    have hone : (Event.shift la : Event V P).consumed.length = 1 := by
      simp [Event.consumed, htoken]
    simp only
    omega
  | reduce context =>
    have hnone : (Event.reduce context : Event V P).consumed.length = 0 := rfl
    exact ⟨by omega, by rw [allowance, hrecovering, allowance]⟩
  | recover popped discarded =>
    obtain ⟨r, hr, -, hdropped⟩ := h.recovered
    have hone := one_le_dropped hr
    have hconsumed : (r.dropped.filterMap (·.token)).length ≤
        (Event.recover popped discarded : Event V P).consumed.length := by
      have hle := (hdropped.filterMap (·.token)).length_le
      rwa [List.filterMap_reverse, List.length_reverse] at hle
    exact ⟨by omega, by rw [allowance, hrecovering, if_pos rfl]⟩

include wf

/-- Every recovery is paid for by a token or by the allowance, which a shift gives back. -/
theorem recoveries_le (fuel : Nat) (hc : Reading a c) :
    recoveries parser env (parser.history env fuel c) ≤ c.unread.length + allowance c := by
  induction fuel generalizing c with
  | zero => simp [Parser.history, recoveries]
  | succ fuel ih =>
    simp only [Parser.history, recoveries, List.countP_cons]
    cases hstep : parser.step env c with
    | stop outcome c' =>
      cases hr : parser.recovery? env c with
      | none => simp
      | some r =>
        have hone := one_le_dropped hr
        have hunread := dropped_le_unread hr
        simp only [List.countP_nil, Option.isSome_some, if_true]
        omega
    | next e c' =>
      have heffect := step_effect hstep
      have hrest := ih (heffect.reading wf hf ht hc)
      have hpays := heffect.pays hf ht hc
      have hallowance := allowance_le c'
      rw [recoveries] at hrest
      cases e with
      | shift la =>
        rw [heffect.recovery?_eq_none (by simp)]
        simp only [Option.isSome_none, Bool.false_eq_true, if_false] at hpays ⊢
        omega
      | reduce context =>
        rw [heffect.recovery?_eq_none (by simp)]
        simp only [Option.isSome_none, Bool.false_eq_true, if_false] at hpays ⊢
        omega
      | recover popped discarded =>
        obtain ⟨r, hr, -⟩ := heffect.recovered
        rw [hr]
        simp only [Option.isSome_some, if_true] at hpays ⊢
        omega

theorem shifted_or_recovering {between after : List (Config V P × Move V P)}
    {m : Config V P × Move V P} (hc : Reading a c) (hshifts : c.recovering = recoveryShifts)
    {fuel : Nat} (h : between ++ m :: after = parser.history env fuel c) :
    (∃ step ∈ between, ∃ la token d, step.2 = .next (.shift la) d ∧ la.token = some token) ∨
      m.1.recovering = recoveryShifts := by
  induction between generalizing fuel c with
  | nil =>
    cases fuel with
    | zero => cases h
    | succ fuel =>
      rw [Parser.history] at h
      cases h
      exact Or.inr hshifts
  | cons step between ih =>
    cases fuel with
    | zero => cases h
    | succ fuel =>
      obtain ⟨e, c', hstep, rfl, hrest⟩ := exists_next_of_history h (by simp)
      have heffect := step_effect hstep
      have hc' := heffect.reading wf hf ht hc
      have hrecovering := heffect.recovering
      have later : c'.recovering = recoveryShifts →
          (∃ step ∈ (c, .next e c') :: between, ∃ la token d,
            step.2 = .next (.shift la) d ∧ la.token = some token) ∨
            m.1.recovering = recoveryShifts := by
        intro hshifts'
        rcases ih hc' hshifts' hrest with ⟨step, hmem, hshift⟩ | hm
        · exact Or.inl ⟨step, List.mem_cons_of_mem _ hmem, hshift⟩
        · exact Or.inr hm
      cases e with
      | shift la =>
        obtain ⟨token, htoken⟩ := heffect.shifts_token hf ht hc rfl
        exact Or.inl ⟨_, List.mem_cons_self, la, token, c', rfl, htoken⟩
      | reduce context => exact later (hrecovering.trans hshifts)
      | recover popped discarded => exact later hrecovering

end Bound

/-- Between two recoveries of a run a token is shifted, or the second one discards the offending
token, so that a source has at most one recovery more than tokens. The run goes on after a
recovery from the topmost state that shifts the recovery token, with everything beneath it in
place. -/
theorem recoveries_bounded {g : Grammar} {a : Automaton} (hg : g.Defined) {m : Method}
    (ha : m.automaton g = .ok a) (actions : Actions V P) (env : Environment V P)
    (source : Source V) (params : P) (fuel : Nat) :
    let parser : Parser V P := ⟨.ofTable (Table.generate g a), actions⟩
    let history := parser.history env fuel (start source params)
    (∀ before first between second after r r',
      history = before ++ first :: (between ++ second :: after) →
      parser.recovery? env first.1 = some r → parser.recovery? env second.1 = some r' →
      ∃ la token, la.token = some token ∧
        (la ∈ r'.dropped ∨ ∃ c c', (c, Move.next (.shift la) c') ∈ between)) ∧
    recoveries parser env history ≤ (Source.tokens source).length + 1 ∧
    ∀ c e c', (c, Move.next e c') ∈ history →
      ((parser.recovery? env c).isSome ↔ ∃ popped discarded, e = .recover popped discarded) ∧
      ∀ popped discarded, e = .recover popped discarded → Resumed parser.tables c popped c' := by
  intro parser history
  have wf := hg.wellFormed
  have hf := (Method.automaton_spec wf ha).1
  have ht : parser.tables.Realizes g a := realizes_generate
  have hreading : ∀ step ∈ history, Reading a step.1 := by
    intro step hstep
    exact (history_invariant (Q := fun _ _ => True)
      (fun c e c' hc hstep => (step_effect hstep).reading wf hf ht hc) (fun _ _ => trivial) fuel
      (reading_start source params) step hstep).1
  refine ⟨?_, ?_, ?_⟩
  · intro before first between second after r r' hhistory hr hr'
    obtain ⟨k, hk⟩ := history_suffix ⟨before, hhistory.symm⟩
    obtain ⟨e, c₁, hstep, hfirst, hrest⟩ := exists_next_of_history hk (by simp)
    have hmem : first ∈ history := by simp [hhistory]
    have hc := hreading first hmem
    have heffect := step_effect hstep
    have hshifts : c₁.recovering = recoveryShifts := by
      obtain ⟨popped, discarded, rfl⟩ := heffect.isSome_recovery?.mp (by rw [hr]; rfl)
      exact heffect.recovering
    rcases shifted_or_recovering wf hf ht (heffect.reading wf hf ht hc) hshifts hrest with
      ⟨⟨d, move⟩, hmem, la, token, d', rfl, htoken⟩ | hsecond
    · exact ⟨la, token, htoken, Or.inr ⟨d, d', hmem⟩⟩
    · obtain ⟨la, token, hdropped, htoken⟩ := dropped_of_recovering hr' hsecond
      exact ⟨la, token, htoken, Or.inl (by simp [hdropped])⟩
  · exact recoveries_le wf hf ht fuel (reading_start source params)
  · intro c e c' hmem
    have heffect := step_effect (history_step hmem).symm
    refine ⟨heffect.isSome_recovery?, ?_⟩
    rintro popped discarded rfl
    exact heffect.resumed

theorem recoveries_tolerant :
    let parser : Parser Nat Unit := ⟨.ofTable (.generate .tolerant .tolerant), #[]⟩
    let history := parser.history silent 20 (start ((tokensOf ["x", "x", "z"]).map .ok) ())
    recoveries parser silent history = 3 ∧ recoveries parser silent history ≤ 3 + 1 := by
  intro parser history
  refine ⟨?_, ?_⟩
  · simp only [history, parser, Table.generate_tolerant]
    decide +kernel
  · exact (recoveries_bounded Grammar.tolerant_defined Method.slr_tolerant #[] silent
      ((tokensOf ["x", "x", "z"]).map .ok) () 20).2.1

end TableParsing.ShiftReduce
