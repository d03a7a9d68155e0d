import TableParsing.Proofs.Engine.Recovery
import TableParsing.Proofs.Grammar.Derivation

/-! What the engine accepts after recoveries is a sentence but for the stretches of the input
that they replaced. Every frame of the stack stands for a stretch of the tokens consumed so far,
one after the other: a recovery makes one stretch of what stood above the state it keeps and of
the tokens it discards, and puts the recovery token in its place. -/

namespace TableParsing.ShiftReduce

variable {V P : Type}

structure Consumed (V : Type) where
  token : Token V
  shifted : Bool

/-- What stands for one terminal of a repaired sentence. -/
inductive Piece (V : Type)
  | kept (token : Token V)
  | replaced (segment : List (Consumed V))

namespace Piece

def consumption : Piece V → List (Consumed V)
  | kept token => [⟨token, true⟩]
  | replaced segment => segment

def isReplaced : Piece V → Bool
  | kept _ => false
  | replaced _ => true

def StandsFor (g : Grammar) (piece : Piece V) (t : Nat) : Prop :=
  match piece with
  | kept token => token.name = g.terminalName t
  | replaced _ => t = Symbol.errorToken

end Piece

def Event.consumption : Event V P → List (Consumed V)
  | .shift la => la.token.toList.map (⟨·, true⟩)
  | .reduce _ => []
  | .recover _ discarded => (discarded.filterMap (·.token)).map (⟨·, false⟩)

def consumption (history : List (Config V P × Move V P)) : List (Consumed V) :=
  (events history).flatMap Event.consumption

theorem Event.tokens_consumption (e : Event V P) : e.consumption.map (·.token) = e.consumed := by
  cases e with
  | shift la => simp [consumption, consumed, Function.comp_def]
  | reduce context => rfl
  | recover popped discarded => simp [consumption, consumed, Function.comp_def]

theorem Tables.reads_of_read {t : Tables} {entries : List (Entry V)} {rest : List (Token V)}
    {la : Lookahead V} {input : Source V}
    (h : t.read entries (rest.map .ok) = .ok (la, input)) : Reads t la input rest := by
  cases rest with
  | nil =>
    cases h
    exact .ending rfl rfl
  | cons token rest =>
    cases h
    exact .token token rest

theorem Tables.discard_reads {t : Tables} {state : Nat} {entries : List (Entry V)}
    {input input' : Source V} {la la' : Lookahead V} {discarded all : List (Lookahead V)}
    (h : t.discard state entries input la discarded = .found la' input' all)
    {rest : List (Token V)} (hreads : Reads t la input rest) :
    ∃ rest', Reads t la' input' rest' := by
  induction input generalizing la discarded rest with
  | nil =>
    simp only [Tables.discard] at h
    split at h
    · cases h
      exact ⟨rest, hreads⟩
    · split at h
      · cases h
      · split at h
        · cases h
          exact ⟨[], .ending rfl rfl⟩
        · cases h
  | cons item input ih =>
    simp only [Tables.discard] at h
    split at h
    · cases h
      exact ⟨rest, hreads⟩
    · split at h
      · cases h
      · split at h
        case h_1 token =>
          generalize hinput : (Except.ok token :: input : Source V) = source at hreads
          cases hreads with
          | ending => cases hinput
          | token first later =>
            cases later with
            | nil => cases hinput
            | cons second later =>
              cases hinput
              exact ih h (.token token later)
        case h_2 => cases h

variable {parser : Parser V P} {env : Environment V P} {c c' : Config V P}

theorem Effect.pending {e : Event V P} (h : Effect parser env c e c') {rest : List (Token V)}
    (hc : Pending parser.tables c rest) :
    ∃ rest', Pending parser.tables c' rest' ∧ rest = e.consumed ++ rest' := by
  suffices hpending : ∃ rest', Pending parser.tables c' rest' by
    obtain ⟨rest', hrest'⟩ := hpending
    refine ⟨rest', hrest', ?_⟩
    rw [← hc.unread_eq, ← hrest'.unread_eq]
    exact h.unread
  obtain ⟨la, input, hlook, hreads⟩ := hc.look
  cases h with
  | shift _ _ hlook' _ =>
    rw [hlook] at hlook'
    cases hlook'
    cases hreads with
    | token token rest => exact ⟨rest, Or.inl ⟨rfl, rfl⟩⟩
    | ending => exact ⟨[], Or.inl ⟨rfl, rfl⟩⟩
  | reduce _ hheld hreduce =>
    obtain ⟨-, hlookahead, hinput, -⟩ := reduce_next_eq hreduce
    refine ⟨rest, ?_⟩
    rw [Pending, hlookahead, hinput]
    rcases hheld with ⟨rfl, -⟩ | ⟨-, la', input', hlook', rfl, -⟩
    · exact hc
    · rw [hlook] at hlook'
      cases hlook'
      exact Or.inr ⟨la, rfl, hreads⟩
  | @recover r _ _ _ _ hr hrecover =>
    obtain ⟨popped, next, la', input', discarded, -, hdiscard, -, rfl⟩ := recover_next hrecover
    obtain ⟨la₁, input₁, hlook', -, hheld⟩ := recovery?_eq_some hr
    rw [hlook] at hlook'
    cases hlook'
    -- the search goes on with the lookahead in hand, or with the one after it
    have hfirst : ∃ rest, Reads parser.tables r.lookahead r.input rest := by
      rcases hheld with ⟨-, hla, hinput, -⟩ | ⟨-, hend, hread⟩
      · rw [← hla, ← hinput] at hreads
        exact ⟨rest, hreads⟩
      · cases hreads with
        | ending _ hnone =>
          rw [Lookahead.isEnd, hnone] at hend
          cases hend
        | token token later => exact ⟨later, Tables.reads_of_read hread⟩
    obtain ⟨rest₁, hreads₁⟩ := hfirst
    obtain ⟨rest', hreads'⟩ := Tables.discard_reads hdiscard hreads₁
    exact ⟨rest', Or.inr ⟨la', rfl, hreads'⟩⟩

theorem Steps.pending {d : Config V P} {hist : List (Config V P × Move V P)}
    (h : Steps parser env c hist d) {rest : List (Token V)} (hc : Pending parser.tables c rest) :
    ∃ rest', Pending parser.tables d rest' := by
  induction h generalizing rest with
  | refl => exact ⟨rest, hc⟩
  | head hstep _ ih =>
    obtain ⟨rest', hrest', -⟩ := (step_effect hstep).pending hc
    exact ih hrest'

section Frames

variable {g : Grammar} {a : Automaton}

/-- The symbols on the stack, the latest first, derive pieces of the tokens consumed so far, at
most as many of them replaced as there were recoveries. -/
structure Mended (g : Grammar) (a : Automaton) (parser : Parser V P) (tokens : List (Token V))
    (c : Config V P) (γ : List Symbol) (w : List (Nat × Piece V)) (done : List (Consumed V))
    (count : Nat) : Prop where
  stacked : Stacked a γ c.states
  yields : ∃ trees ps, g.Yields trees γ.reverse w ps
  stands : ∀ e ∈ w, e.2.StandsFor g e.1
  pending : ∃ rest, Pending parser.tables c rest ∧ done.map (·.token) ++ rest = tokens
  consumed : w.flatMap (·.2.consumption) = done
  replaced : w.countP (·.2.isReplaced) ≤ count

theorem mended_start (parser : Parser V P) (tokens : List (Token V)) (params : P) :
    Mended g a parser tokens (start (tokens.map .ok) params) [] [] [] 0 :=
  ⟨.base, ⟨[], [], .nil⟩, by simp, ⟨tokens, pending_start _ _ _, rfl⟩, rfl, Nat.le_refl 0⟩

def Event.recoveries : Event V P → Nat
  | .shift _ => 0
  | .reduce _ => 0
  | .recover _ _ => 1

namespace Mended

variable {tokens : List (Token V)} {γ : List Symbol} {w : List (Nat × Piece V)}
  {done : List (Consumed V)} {count : Nat} {e : Event V P}

theorem read (h : Mended g a parser tokens c γ w done count) (heffect : Effect parser env c e c') :
    ∃ rest, Pending parser.tables c' rest ∧
      (done ++ e.consumption).map (·.token) ++ rest = tokens := by
  obtain ⟨rest, hrest, htokens⟩ := h.pending
  obtain ⟨rest', hrest', rfl⟩ := heffect.pending hrest
  refine ⟨rest', hrest', ?_⟩
  rw [List.map_append, e.tokens_consumption, List.append_assoc]
  exact htokens

variable (wf : g.WellFormed) (hf : a.Faithful g) (ht : parser.tables.Realizes g a)
  (hnamed : ∀ {name t}, parser.tables.terminal? name = some t → name = g.terminalName t)

include hf ht hnamed in
theorem shift {la : Lookahead V} (h : Mended g a parser tokens c γ w done count)
    (heffect : Effect parser env c (.shift la) c') :
    ∃ γ' w', Mended g a parser tokens c' γ' w' (done ++ (Event.shift la : Event V P).consumption)
      count := by
  have hread := h.read heffect
  obtain ⟨s, states, next, input, hstates, hlook, haction, rfl⟩ := heffect.of_shift
  obtain ⟨u, hu, haction⟩ := Tables.actionOn_eq haction (by simp)
  have hstep := ht.shift haction
  have hγ := h.stacked
  rw [hstates] at hγ
  obtain ⟨rest, hrest, -⟩ := h.pending
  obtain ⟨la', input', hlook', hreads⟩ := hrest.look
  rw [hlook] at hlook'
  cases hlook'
  cases hreads with
  | ending hend _ =>
    -- the end of input is never shifted
    rw [hend] at hu
    cases hu
    exact absurd rfl (hf.viable_of_step hγ.stateAfter_eq hstep).1
  | token token rest =>
    obtain ⟨trees, ps, hyields⟩ := h.yields
    refine ⟨.terminal u :: γ, w ++ [(u, .kept token)], ?_, ?_, ?_, hread, ?_, ?_⟩
    · rw [shifted, hstates]
      exact .push hγ hstep
    · rw [List.reverse_cons]
      exact ⟨_, _, hyields.append (.leaf u _ .nil)⟩
    · intro e he
      rcases List.mem_append.mp he with he | he
      · exact h.stands e he
      · cases List.mem_singleton.mp he
        exact hnamed hu
    · rw [List.flatMap_append, h.consumed]
      rfl
    · rw [List.countP_append]
      exact h.replaced

include wf hf ht in
theorem reduce {context : Context V P} (h : Mended g a parser tokens c γ w done count)
    (heffect : Effect parser env c (.reduce context) c') :
    ∃ γ', Mended g a parser tokens c' γ' w done count := by
  have hread := h.read heffect
  obtain ⟨p, δ, rfl, hcompleted, hstacked⟩ := heffect.stacked_reduce wf hf ht h.stacked
  obtain ⟨trees, ps, hyields⟩ := h.yields
  have hright : g.Yields trees (δ.reverse ++ (g.production p).right.toList ++ []) w ps := by
    simpa using hyields
  obtain ⟨before, children, rest, qs, rs, -, -, -, hnode, -⟩ :=
    hright.fold (wf.viable_lt hcompleted)
  refine ⟨_, hstacked, ?_, h.stands, ?_, h.consumed, h.replaced⟩
  · rw [List.reverse_cons]
    exact ⟨_, _, hnode⟩
  · simpa [Event.consumption] using hread

include ht in
theorem recover {popped : Nat} {discarded : List (Lookahead V)}
    (h : Mended g a parser tokens c γ w done count)
    (heffect : Effect parser env c (.recover popped discarded) c') :
    ∃ γ' w', Mended g a parser tokens c' γ' w'
      (done ++ (Event.recover popped discarded : Event V P).consumption) (count + 1) := by
  have hread := h.read heffect
  obtain ⟨-, ⟨s, below, next, hdrop, hs, hstates⟩, -, -⟩ := heffect.resumed
  have hstep := ht.shift (Tables.action_of_shiftsError hs)
  have hlt : popped < c.states.length := by
    by_contra hle
    rw [List.drop_eq_nil_of_le (by omega)] at hdrop
    cases hdrop
  have hδ := h.stacked.drop hlt
  rw [hdrop] at hδ
  obtain ⟨trees, ps, hyields⟩ := h.yields
  rw [← List.take_append_drop popped γ, List.reverse_append] at hyields
  obtain ⟨before, after, u, v, qs, rs, rfl, rfl, rfl, -, hbefore, -⟩ := hyields.split
  have hconsumed := h.consumed
  rw [List.flatMap_append] at hconsumed
  let segment := v.flatMap (·.2.consumption) ++
    (Event.recover popped discarded : Event V P).consumption
  refine ⟨.terminal Symbol.errorToken :: γ.drop popped,
    u ++ [(Symbol.errorToken, .replaced segment)], ?_, ?_, ?_, hread, ?_, ?_⟩
  · rw [hstates]
    exact .push hδ hstep
  · rw [List.reverse_cons]
    exact ⟨_, _, hbefore.append (.leaf _ _ .nil)⟩
  · intro e he
    rcases List.mem_append.mp he with he | he
    · exact h.stands e (List.mem_append_left v he)
    · cases List.mem_singleton.mp he
      rfl
  · rw [← hconsumed, List.flatMap_append, List.append_assoc]
    simp [Piece.consumption, segment]
  · have hcount := h.replaced
    have hone : [(Symbol.errorToken, Piece.replaced segment)].countP (·.2.isReplaced) = 1 := rfl
    rw [List.countP_append] at hcount ⊢
    rw [hone]
    omega

include wf hf ht hnamed in
theorem effect (h : Mended g a parser tokens c γ w done count)
    (heffect : Effect parser env c e c') : ∃ γ' w',
      Mended g a parser tokens c' γ' w' (done ++ e.consumption) (count + e.recoveries) := by
  cases e with
  | shift la => exact h.shift hf ht hnamed heffect
  | reduce context =>
    obtain ⟨γ', hmended⟩ := h.reduce wf hf ht heffect
    refine ⟨γ', w, ?_⟩
    simpa [Event.consumption, Event.recoveries] using hmended
  | recover popped discarded => exact h.recover ht heffect

include wf hf ht hnamed in
theorem steps {d : Config V P} {hist : List (Config V P × Move V P)}
    (hsteps : Steps parser env c hist d) (h : Mended g a parser tokens c γ w done count) :
    ∃ γ' w', Mended g a parser tokens d γ' w' (done ++ consumption hist)
      (count + recoveries parser env hist) := by
  induction hsteps generalizing γ w done count with
  | refl => exact ⟨γ, w, by simpa [consumption, events, recoveries] using h⟩
  | @head c c' d e hist hstep _ ih =>
    have heffect := step_effect hstep
    obtain ⟨γ₁, w₁, h₁⟩ := h.effect wf hf ht hnamed heffect
    obtain ⟨γ', w', h'⟩ := ih h₁
    refine ⟨γ', w', ?_⟩
    have hcount : recoveries parser env ((c, .next e c') :: hist) =
        e.recoveries + recoveries parser env hist := by
      have hiff := heffect.isSome_recovery?
      rw [recoveries, List.countP_cons, Nat.add_comm, recoveries]
      cases e <;> simp_all [Event.recoveries]
    have hdone : consumption ((c, .next e c') :: hist) = e.consumption ++ consumption hist := rfl
    rw [hcount, hdone, ← List.append_assoc, ← Nat.add_assoc]
    exact h'

end Mended

end Frames

theorem reduce_ne_ok (plain : Plain parser.actions) {p : Nat} {v : Option V} :
    parser.reduce env c p ≠ .stop (.ok v) c' := by
  intro h
  cases reduce_cases parser env c p with
  | empty _ hmove | abort _ hmove | missing _ _ hmove | next _ _ _ hmove =>
    rw [hmove] at h
    cases h
  | accept hrun _ =>
    obtain ⟨u, after, hvalue⟩ := plain.run env.nested (parser.handed c p)
    rw [hrun] at hvalue
    cases hvalue

theorem recover_ne_ok {error : SyntaxError} {la : Lookahead V} {discarded : List (Lookahead V)}
    {v : Option V} : parser.recover c error la discarded ≠ .stop (.ok v) c' := by
  intro h
  cases recover_cases parser c error la discarded with
  | unexpected _ hmove | halted hmove | lexical hmove | found _ _ hmove =>
    rw [hmove] at h
    cases h

theorem fail_ne_ok {s : Nat} {la : Lookahead V} {v : Option V} :
    parser.fail env c s la ≠ .stop (.ok v) c' := by
  intro h
  cases fail_cases parser env c s la with
  | answered _ _ hmove | unexpected _ _ hmove | halted _ hmove | lexical _ hmove =>
    rw [hmove] at h
    cases h
  | recover _ _ hmove =>
    rw [hmove] at h
    exact recover_ne_ok h

theorem accepts_of_stop (plain : Plain parser.actions) {v : Option V}
    (h : parser.step env c = .stop (.ok v) c') : ∃ s states la input, c.states = s :: states ∧
      parser.look c = .ok (la, input) ∧ parser.tables.actionOn s la = .accept := by
  cases step_cases parser env c with
  | empty _ hmove | lexical _ _ _ hmove | shift _ _ _ _ hmove =>
    rw [hmove] at h
    cases h
  | reduce _ _ hmove =>
    rw [hmove] at h
    exact absurd h (reduce_ne_ok plain)
  | accept hstates _ hlook haction _ => exact ⟨_, _, _, _, hstates, hlook, haction⟩
  | error _ _ _ _ hmove =>
    rw [hmove] at h
    exact absurd h fail_ne_ok

/-- A run that accepts after any number of recoveries has parsed a sentence made from its tokens:
some stretches of them, at most one for each recovery, are replaced by the recovery token, and
every token outside was shifted in its turn. -/
theorem accepted_repaired {g : Grammar} {a : Automaton} (hg : g.Defined) {m : Method}
    (ha : m.automaton g = .ok a) {actions : Actions V P} (plain : Plain actions)
    (env : Environment V P) (tokens : List (Token V))
    (hnames : ∀ token ∈ tokens, token.name ≠ Symbol.endName) (params : P) (fuel : Nat)
    {r : Result V P} {v : Option V} :
    let parser : Parser V P := ⟨.ofTable (Table.generate g a), actions⟩
    let history := parser.history env fuel (start (tokens.map .ok) params)
    parser.run env fuel (start (tokens.map .ok) params) = some r → r.outcome = .ok v →
    ∃ (word : List Nat) (pieces : List (Piece V)),
      g.Derives [.nonterminal g.start] (word.map .terminal) ∧
      List.Forall₂ (Piece.StandsFor g) pieces word ∧
      pieces.flatMap Piece.consumption = consumption history ∧
      (consumption history).map (·.token) = tokens ∧
      pieces.countP Piece.isReplaced ≤ recoveries parser env history := by
  intro parser history hrun hok
  have wf := hg.wellFormed
  have hf := (Method.automaton_spec wf ha).1
  have ht : parser.tables.Realizes g a := realizes_generate
  obtain ⟨hist, d, outcome, d', hsteps, hstop, hhistory, rfl⟩ := exists_steps_of_run hrun
  cases hok
  obtain ⟨γ, w, hmended⟩ := Mended.steps wf hf ht (Table.eq_terminalName wf) hsteps
    (mended_start parser tokens params)
  obtain ⟨s, states, la, input, hstates, hlook, haccept⟩ := accepts_of_stop plain hstop
  obtain ⟨u, hu, haction⟩ := Tables.actionOn_eq haccept (by simp)
  obtain ⟨rfl, st, hst, haccepts⟩ := ht.accept haction
  -- an accepting state stands only on the start symbol
  have hγ := hmended.stacked
  rw [hstates] at hγ
  have hd := hf.describes hγ.stateAfter_eq hst
  obtain ⟨i, hi, hnext⟩ := hd.accepts.mp haccepts
  obtain rfl := wf.accepting_prefix hi hnext
  -- and no token bears the name of the end
  obtain ⟨rest, hrest, hread⟩ := hmended.pending
  have hempty : rest = [] := by
    obtain ⟨la', input', hlook', hreads⟩ := hrest.look
    rw [hlook] at hlook'
    cases hlook'
    cases hreads with
    | ending => rfl
    | token token rest =>
      have hmem : token ∈ tokens := by simp [← hread]
      exact absurd ((Table.terminal?_eq_endOfInput wf).mp hu) (hnames token hmem)
  have hconsumption : consumption history = consumption hist := by
    simp [history, hhistory, consumption, events, Move.event?]
  rw [hempty, List.append_nil, List.nil_append, ← hconsumption] at hread
  obtain ⟨trees, ps, hyields⟩ := hmended.yields
  have hrightmost := hyields.rightmost [] []
  simp only [List.nil_append, List.map_nil, List.append_nil, List.reverse_singleton]
    at hrightmost
  refine ⟨w.map (·.1), w.map (·.2), ?_, ?_, ?_, hread, ?_⟩
  · rw [List.map_map]
    exact hrightmost.derives
  · rw [List.forall₂_map_left_iff, List.forall₂_map_right_iff, List.forall₂_same]
    exact hmended.stands
  · rw [hconsumption, List.flatMap_map]
    exact hmended.consumed
  · have hle : recoveries parser env hist ≤ recoveries parser env history := by
      simp only [history, hhistory, recoveries, List.countP_append]
      omega
    have hcount := hmended.replaced
    rw [List.countP_map]
    exact (hcount.trans_eq (Nat.zero_add _)).trans hle

theorem accepted_tolerant :
    let parser : Parser Nat Unit := ⟨.ofTable (.generate .tolerant .tolerant), #[]⟩
    let history := parser.history silent 20 (start ((tokensOf ["x", "x", "z"]).map .ok) ())
    (consumption history).map (fun e => (e.token.name, e.shifted)) =
      [("x", true), ("x", false), ("z", false)] ∧
    ∃ (word : List Nat) (pieces : List (Piece Nat)),
      Grammar.tolerant.Derives [.nonterminal 1] (word.map .terminal) ∧
      List.Forall₂ (Piece.StandsFor .tolerant) pieces word ∧
      pieces.flatMap Piece.consumption = consumption history ∧
      pieces.countP Piece.isReplaced ≤ 3 := by
  intro parser history
  have hrun : ∃ r, parser.run silent 20 (start ((tokensOf ["x", "x", "z"]).map .ok) ()) =
      some r ∧ r.outcome = .ok (some 0) := by
    have houtcome : (parser.run silent 20 (start ((tokensOf ["x", "x", "z"]).map .ok) ())).map
        (·.outcome.toOption) = some (some (some 0)) := by
      simp only [parser, Table.generate_tolerant]
      decide +kernel
    obtain ⟨r, hr, hvalue⟩ := Option.map_eq_some_iff.mp houtcome
    refine ⟨r, hr, ?_⟩
    cases hr : r.outcome with
    | ok v =>
      rw [hr] at hvalue
      cases hvalue
      rfl
    | error e =>
      rw [hr] at hvalue
      cases hvalue
  have hrecoveries : recoveries parser silent history = 3 := by
    simp only [history, parser, Table.generate_tolerant]
    decide +kernel
  have hconsumption : (consumption history).map (fun e => (e.token.name, e.shifted)) =
      [("x", true), ("x", false), ("z", false)] := by
    simp only [history, parser, Table.generate_tolerant]
    decide +kernel
  obtain ⟨r, hr, hok⟩ := hrun
  obtain ⟨word, pieces, hderives, hstands, hpieces, -, hcount⟩ :=
    accepted_repaired Grammar.tolerant_defined Method.slr_tolerant plain_empty silent
      (tokensOf ["x", "x", "z"]) (by decide) () 20 hr hok
  exact ⟨hconsumption, word, pieces, hderives, hstands, hpieces, hrecoveries ▸ hcount⟩

end TableParsing.ShiftReduce
