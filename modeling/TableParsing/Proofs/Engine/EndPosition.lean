import TableParsing.Proofs.Engine.ErrorPosition
import TableParsing.Proofs.Engine.Predictive.Run

/-! Where errors at the end of input are placed. Both engines keep the stretch of text that each
entry of the stack covers, and as long as actions leave it alone the top entry ends where the last
token read ends. The shift-reduce engine places the end of input there, so that the line of an
error is the last line of the last token. The predictive engine takes the whole stretch of the top
entry, and its first line is where some token that was read begins, or zero. -/

namespace TableParsing

variable {V P : Type}

theorem Location.merge_self (a : Location) : a.merge a = a := rfl

theorem Location.ending_merge (a b : Location) : (a.merge b).ending = b.ending := rfl

theorem Location.merge_merge (a b c : Location) : (a.merge b).merge c = a.merge c := rfl

theorem Location.merge_congr {a b : Location} (h : a.ending = b.ending) (c : Location) :
    c.merge a = c.merge b := by
  simp only [ending, mk.injEq] at h
  rw [merge, merge, h.1, h.2.1]

def lastLocation (tokens : List (Token V)) : Location :=
  match tokens.getLast? with
  | some token => token.location
  | none => .zero

theorem lastLocation_concat (tokens : List (Token V)) (token : Token V) :
    lastLocation (tokens ++ [token]) = token.location := by
  rw [lastLocation, List.getLast?_concat]

def KeepsLocation (actions : Actions V P) : Prop :=
  ∀ action, some action ∈ actions → ∀ nested c, (action nested c).2.location = c.location

theorem keepsLocation_empty : KeepsLocation (#[] : Actions V P) := by
  intro action haction
  simp at haction

theorem Context.location_take (c : Context V P) (i : Nat) : (c.take i).2.location = c.location := by
  cases i <;> rfl

theorem KeepsLocation.run {actions : Actions V P} (keeps : KeepsLocation actions)
    (nested : Nested V P) (c : Context V P) :
    (actions.run nested c).2.location = c.location := by
  rw [Actions.run]
  cases haction : actions.getD c.production none with
  | none => exact c.location_take 1
  | some action =>
    have hkept := keeps action (mem_of_getD haction) nested c
    rcases hresult : action nested c with ⟨control, after⟩
    rw [hresult] at hkept
    simp only [hresult]
    cases control with
    | default => exact (after.location_take 1).trans hkept
    | value v => exact hkept
    | accept v => exact hkept
    | abort => exact hkept

theorem topLocation_eq {entries : List (Entry V)} (h : entries ≠ []) :
    ∃ entry ∈ entries, entries.head? = some entry ∧ topLocation entries = entry.location := by
  obtain ⟨entry, rest, rfl⟩ := List.exists_cons_of_ne_nil h
  exact ⟨entry, List.mem_cons_self, rfl, rfl⟩

theorem exists_location_ofReduction (p : Nat) (aliases : List Alias) {entries : List (Entry V)}
    (hne : entries ≠ []) (n : Nat) (params : P) : ∃ entry ∈ entries,
      (Context.ofReduction p aliases (entries.take n).reverse (entries.drop n) params).location =
        entry.location.merge (topLocation entries) := by
  obtain ⟨top, hmem, hhead, htop⟩ := topLocation_eq hne
  cases n with
  | zero => exact ⟨top, hmem, by rw [htop, Location.merge_self]; exact htop⟩
  | succ n =>
    have hlast : (entries.take (n + 1)).reverse.getLast? = some top := by
      rw [List.getLast?_reverse, List.head?_take, if_neg (Nat.succ_ne_zero n), hhead]
    have hhandle : (entries.take (n + 1)).reverse ≠ [] := by
      intro hnil
      rw [hnil] at hlast
      cases hlast
    have hfirst := List.head?_eq_some_head hhandle
    refine ⟨(entries.take (n + 1)).reverse.head hhandle, ?_, ?_⟩
    · exact List.mem_of_mem_take (List.mem_reverse.mp (List.head_mem hhandle))
    · simp only [Context.ofReduction, hfirst, hlast, htop]

/-- Each entry begins where the text begins or where a token that was read begins, and the top
ends where the last of these tokens ends. -/
structure Spans (read : List (Token V)) (entries : List (Entry V)) : Prop where
  nonempty : entries ≠ []
  begins : ∀ entry ∈ entries, ∃ first ∈ Location.zero :: read.map (·.location), ∃ last,
    entry.location = first.merge last
  top : (topLocation entries).ending = (lastLocation read).ending

theorem spans_start : Spans (V := V) [] [⟨none, .zero⟩] :=
  ⟨by simp, fun entry h => ⟨.zero, by simp, .zero, by rw [List.mem_singleton.mp h]; rfl⟩, rfl⟩

namespace Spans

variable {read : List (Token V)} {entries : List (Entry V)}

theorem token (h : Spans read entries) (v : Option V) (token : Token V) :
    Spans (read ++ [token]) (⟨v, token.location⟩ :: entries) := by
  refine ⟨List.cons_ne_nil _ _, ?_, by rw [lastLocation_concat]; rfl⟩
  rw [List.forall_mem_cons]
  refine ⟨⟨token.location, by simp, token.location, rfl⟩, fun entry hentry => ?_⟩
  obtain ⟨first, hfirst, last, hlast⟩ := h.begins entry hentry
  refine ⟨first, ?_, last, hlast⟩
  rw [List.map_append, ← List.cons_append]
  exact List.mem_append_left _ hfirst

theorem cover (h : Spans read entries) {location : Location}
    (hlocation : ∃ entry ∈ entries, location = entry.location.merge (topLocation entries))
    (v : Option V) (n : Nat) : Spans read (⟨v, location⟩ :: entries.drop n) := by
  obtain ⟨entry, hentry, rfl⟩ := hlocation
  refine ⟨List.cons_ne_nil _ _, ?_, (Location.ending_merge _ _).trans h.top⟩
  rw [List.forall_mem_cons]
  refine ⟨?_, fun entry hentry => h.begins entry (List.mem_of_mem_drop hentry)⟩
  obtain ⟨first, hfirst, last, hlast⟩ := h.begins entry hentry
  exact ⟨first, hfirst, topLocation entries, by rw [hlast, Location.merge_merge]⟩

theorem exists_topLocation (h : Spans read entries) :
    ∃ first ∈ Location.zero :: read.map (·.location),
      topLocation entries = first.merge (lastLocation read) := by
  obtain ⟨top, hmem, -, htop⟩ := topLocation_eq h.nonempty
  obtain ⟨first, hfirst, last, hlast⟩ := h.begins top hmem
  refine ⟨first, hfirst, ?_⟩
  have hending := h.top
  rw [htop, hlast, Location.ending_merge] at hending
  rw [htop, hlast, Location.merge_congr hending]

end Spans

theorem location_report (token : Option (Token V)) (location : Location) (expected : List String)
    (recoverable : Bool) :
    (SyntaxError.report token location expected recoverable).location = location ∧
      (SyntaxError.report token location expected recoverable).line = location.firstLine := by
  cases token <;> exact ⟨rfl, rfl⟩

namespace ShiftReduce

def Lookahead.PlacedAfter (read : List (Token V)) (la : Lookahead V) : Prop :=
  la.location = match la.token with
    | some token => token.location
    | none => (lastLocation read).ending

/-- What was read of the tokens, what the entries cover and where the lookahead stands. -/
structure Placed (tokens read : List (Token V)) (c : Config V P) : Prop where
  split : tokens = read ++ c.unread
  spans : Spans read c.entries
  held : ∀ la, c.lookahead = some la → la.PlacedAfter read

variable {parser : Parser V P} {env : Environment V P} {c c' d : Config V P}
  {tokens read : List (Token V)}

theorem placed_start (tokens : List (Token V)) (params : P) :
    Placed tokens [] (start (tokens.map .ok) params) :=
  ⟨(Source.tokens_map_ok tokens).symm, spans_start, fun _ h => by cases h⟩

theorem Placed.look (h : Placed tokens read c) {la : Lookahead V} {input : Source V}
    (hlook : parser.look c = .ok (la, input)) : la.PlacedAfter read := by
  rw [Parser.look] at hlook
  split at hlook
  case h_1 held =>
    cases hlook
    exact h.held la held
  case h_2 =>
    simp only [Tables.read] at hlook
    split at hlook
    · cases hlook
      exact h.spans.top
    · cases hlook
      rfl
    · cases hlook

section Automaton

variable {g : Grammar} {a : Automaton} (hf : a.Faithful g) (ht : parser.tables.Realizes g a)
  (keeps : KeepsLocation parser.actions)

include keeps ht in
theorem Placed.reduce (h : Placed tokens read c) {p : Nat} {e : Event V P}
    (hreduce : parser.reduce env c p = .next e c') : Placed tokens read c' := by
  obtain ⟨state, deeper, next, v, after, -, -, hrun, -, rfl⟩ := reduced_of_next ht hreduce
  have hlocation : after.location = (contextOf g c p).location := by
    rw [← keeps.run env.nested (contextOf g c p), hrun]
  refine ⟨h.split, h.spans.cover ?_ v _, h.held⟩
  rw [hlocation]
  exact exists_location_ofReduction _ _ h.spans.nonempty _ _

include keeps hf ht in
theorem Placed.effect (h : Placed tokens read c) (hc : Reading a c) {e : Event V P}
    (heffect : Effect parser env c e c') (hclean : parser.meetsError c = false) :
    ∃ read', Placed tokens read' c' := by
  have hunread := heffect.unread
  have htokens : ∀ la, e = .shift la → ∃ token, la.token = some token :=
    fun la he => heffect.shifts_token hf ht hc he
  cases heffect with
  | @shift s next states la input hstates hdefault hlook haction =>
    obtain ⟨token, htoken⟩ := htokens la rfl
    have hplaced : la.location = token.location := by
      have hplaced := h.look hlook
      rwa [Lookahead.PlacedAfter, htoken] at hplaced
    refine ⟨read ++ [token], ?_, ?_, fun _ hheld => by cases hheld⟩
    · rw [h.split, hunread, Event.consumed, htoken, List.append_assoc]
      rfl
    · have hspans := h.spans.token (la.token.map (·.value)) token
      rw [← hplaced] at hspans
      exact hspans
  | reduce hstates hheld hreduce =>
    rcases hheld with ⟨rfl, -⟩ | ⟨-, la, input, hlook, rfl, -⟩
    · exact ⟨read, h.reduce ht keeps hreduce⟩
    · have hread : Placed tokens read { c with lookahead := some la, input := input } := by
        refine ⟨?_, h.spans, fun la' hla' => ?_⟩
        · rw [h.split, Parser.unread_look hlook]
          rfl
        · cases hla'
          exact h.look hlook
      exact ⟨read, hread.reduce ht keeps hreduce⟩
  | recover hr _ =>
    rw [recovery?_eq_none_of_clean hclean] at hr
    cases hr

include keeps hf ht in
theorem Placed.steps (wf : g.WellFormed) {hist : List (Config V P × Move V P)}
    (hsteps : Steps parser env c hist d)
    (hclean : ∀ m ∈ hist, parser.meetsError m.1 = false) (hc : Reading a c)
    (h : Placed tokens read c) : ∃ read', Placed tokens read' d := by
  induction hsteps generalizing read with
  | refl => exact ⟨read, h⟩
  | head hstep _ ih =>
    rw [List.forall_mem_cons] at hclean
    have heffect := step_effect hstep
    obtain ⟨read', h'⟩ := h.effect hf ht keeps hc heffect hclean.1
    exact ih hclean.2 (heffect.reading wf hf ht hc) h'

end Automaton

variable (env) in
theorem Placed.error (h : Placed tokens read c) (hunread : c.unread = [])
    (herror : parser.meetsError c = true) (hzero : c.recovering = 0) :
    ∃ error, (parser.step env c).config.reported = error :: c.reported ∧
      error.location = (lastLocation tokens).ending ∧
      error.line = (lastLocation tokens).lastLine := by
  obtain ⟨s, states, la, input, hstates, hdefault, hlook, haction⟩ := exists_of_meetsError herror
  have htoken : la.token = none := by
    rw [Parser.unread_look hlook, List.append_eq_nil_iff] at hunread
    simpa using hunread.1
  have hread : tokens = read := by rw [h.split, hunread, List.append_nil]
  have hplaced := h.look hlook
  rw [Lookahead.PlacedAfter, htoken, ← hread] at hplaced
  obtain ⟨hlocation, hline⟩ := location_report la.token la.location
    ((parser.tables.expected s).map parser.tables.terminalName)
    (c.states.any fun s => (parser.tables.shiftsError s).isSome)
  refine ⟨parser.tables.syntaxError s la c.states, ?_, hlocation.trans hplaced, ?_⟩
  · rw [step_error hstates hdefault hlook haction, reported_fail, if_pos hzero]
  · exact hline.trans (by rw [hplaced]; rfl)

end ShiftReduce

namespace Predictive

variable {parser : Parser V P} {env : Environment V P} {c c' d : Config V P}
  {read rest : List (Token V)}

theorem Effect.spans {e : Event V P} (h : Effect parser env c e c')
    (keeps : KeepsLocation parser.actions) (hc : Spans read c.entries) :
    Spans (read ++ e.consumed) c'.entries := by
  cases h with
  | consume _ _ _ htoken =>
    rw [Event.consumed, htoken]
    exact hc.token _ _
  | ending _ _ _ htoken =>
    obtain ⟨top, hmem, -, htop⟩ := topLocation_eq hc.nonempty
    rw [Event.consumed, htoken, Option.toList_none, List.append_nil]
    exact hc.cover ⟨top, hmem, by rw [htop, Location.merge_self]⟩ none 0
  | expand =>
    rw [Event.consumed, List.append_nil]
    exact hc
  | @reduce p goals la input v after context _ _ _ hcontext hrun =>
    have hlocation : after.location = context.location := by
      rw [← keeps.run env.nested context, hrun]
    rw [Event.consumed, List.append_nil]
    refine hc.cover ?_ v _
    rw [hlocation, hcontext]
    exact exists_location_ofReduction _ _ hc.nonempty _ _

theorem Steps.spans {events : List (Event V P)} (h : Steps parser env c events d)
    (keeps : KeepsLocation parser.actions) (hc : Spans read c.entries) :
    Spans (read ++ events.flatMap (·.consumed)) d.entries := by
  induction h generalizing read with
  | refl => simpa using hc
  | head hstep _ ih =>
    rw [List.flatMap_cons, ← List.append_assoc]
    exact ih ((step_effect hstep).spans keeps hc)

theorem Steps.pending {events : List (Event V P)} (h : Steps parser env c events d)
    (hc : Pending parser.table c rest) :
    ∃ rest', Pending parser.table d rest' ∧ rest = events.flatMap (·.consumed) ++ rest' := by
  induction h generalizing rest with
  | refl => exact ⟨rest, hc, rfl⟩
  | head hstep _ ih =>
    obtain ⟨later, hlater, rfl⟩ := (step_effect hstep).pending hc
    obtain ⟨rest', hpending, rfl⟩ := ih hlater
    exact ⟨rest', hpending, by rw [List.flatMap_cons, List.append_assoc]⟩

theorem consumed_prefix {tokens : List (Token V)} {params : P} {fuel : Nat} {r : Result V P}
    (h : parser.run env fuel (start (tokens.map .ok) params) = some r) :
    (parser.events env fuel (start (tokens.map .ok) params)).flatMap (·.consumed) <+: tokens := by
  obtain ⟨d, -, -, hsteps, -⟩ := exists_steps_of_run h
  obtain ⟨rest, -, hrest⟩ := hsteps.pending (pending_start parser.table tokens params)
  exact ⟨rest, hrest.symm⟩

theorem step_reported {outcome : Except ParseError (Option V)}
    (h : parser.step env c = .stop outcome c') : c'.reported = c.reported ∨
      ∃ la input expected, parser.look c = .ok (la, input) ∧
        c'.reported = parser.syntaxError c la expected :: c.reported := by
  cases step_cases parser env c with
  | next _ hmove =>
    rw [hmove] at h
    cases h
  | finished _ hmove | lexical _ _ hmove | recursive _ _ _ _ _ hmove | underflow _ _ _ hmove
  | accept _ hmove | abort _ hmove =>
    rw [hmove] at h
    cases h
    exact Or.inl rfl
  | refused _ hlook _ herror hmove =>
    rw [hmove] at h
    cases h
    exact Or.inr ⟨_, _, _, hlook, by rw [herror]⟩

theorem location_syntaxError (parser : Parser V P) (c : Config V P) (expected : List Nat) :
    (parser.syntaxError c (lookaheadOf parser.table []) expected).location =
        topLocation c.entries ∧
      (parser.syntaxError c (lookaheadOf parser.table []) expected).line =
        (topLocation c.entries).firstLine :=
  location_report (none : Option (Token V)) (topLocation c.entries) _ false

end Predictive

/-- The first error of a run of the shift-reduce engine, met at the end of input, is placed where
the last token ends, and its line is the last line of that token. An error of the predictive engine
at the end of input covers the text up to there, and its line is the one on which that text begins:
the first line of some token, or zero. -/
theorem end_error_location {g : Grammar} (hg : g.Defined) {actions : Actions V P}
    (keeps : KeepsLocation actions) (env : Environment V P) (tokens : List (Token V)) (params : P)
    (fuel : Nat) :
    (∀ (m : Method) (a : Automaton), m.automaton g = .ok a →
      let parser : ShiftReduce.Parser V P := ⟨.ofTable (Table.generate g a), actions⟩
      ∀ before first after,
        parser.history env fuel (ShiftReduce.start (tokens.map .ok) params) =
          before ++ first :: after →
        (∀ step ∈ before, parser.meetsError step.1 = false) →
        parser.meetsError first.1 = true → first.1.unread = [] →
        ∃ error, first.2.config.reported = [error] ∧
          error.location = (lastLocation tokens).ending ∧
          error.line = (lastLocation tokens).lastLine) ∧
    let parser : Predictive.Parser V P := ⟨.generate g, actions⟩
    let c := Predictive.start (tokens.map .ok) params
    ∀ r error, parser.run env fuel c = some r → r.reported = [error] →
      (parser.events env fuel c).flatMap (·.consumed) = tokens →
      ∃ first ∈ Location.zero :: tokens.map (·.location),
        error.location = first.merge (lastLocation tokens) ∧ error.line = first.firstLine := by
  have wf := hg.wellFormed
  refine ⟨?_, ?_⟩
  · intro m a ha parser before first after hhistory hclean herror hunread
    have hf := (Method.automaton_spec wf ha).1
    have ht : parser.tables.Realizes g a := ShiftReduce.realizes_generate
    have hsteps := ShiftReduce.steps_of_history hhistory
    obtain ⟨hquiet, hrecovering⟩ := hsteps.quiet hclean
    obtain ⟨read, hplaced⟩ := ShiftReduce.Placed.steps hf ht keeps wf hsteps hclean
      (ShiftReduce.reading_start _ _) (ShiftReduce.placed_start tokens params)
    obtain ⟨error, hreport, hlocation, hline⟩ :=
      hplaced.error env hunread herror (hrecovering rfl)
    have hmem : first ∈ parser.history env fuel (ShiftReduce.start (tokens.map .ok) params) := by
      simp [hhistory]
    refine ⟨error, ?_, hlocation, hline⟩
    rw [ShiftReduce.history_step hmem, hreport, hquiet]
    rfl
  · intro parser c r error hrun hreported hconsumed
    obtain ⟨d, outcome, d', hsteps, hstop, rfl⟩ := Predictive.exists_steps_of_run hrun
    have hspans := hsteps.spans keeps spans_start
    obtain ⟨rest, hpending, hrest⟩ := hsteps.pending (Predictive.pending_start _ tokens params)
    rw [hconsumed] at hspans hrest
    obtain rfl : rest = [] := by simpa using hrest
    rcases Predictive.step_reported hstop with hsame | ⟨la, input, expected, hlook, hreport⟩
    · rw [hsame, hsteps.reported] at hreported
      cases hreported
    · rw [hpending.look] at hlook
      cases hlook
      rw [hreport, hsteps.reported] at hreported
      cases hreported
      obtain ⟨hlocation, hline⟩ := Predictive.location_syntaxError ⟨.generate g, actions⟩ d expected
      obtain ⟨first, hfirst, htop⟩ := hspans.exists_topLocation
      rw [List.nil_append] at hfirst htop
      exact ⟨first, hfirst, hlocation.trans htop, hline.trans (by rw [htop]; rfl)⟩

def brokenLine : List (Token Nat) :=
  [⟨"(", "(", 0, ⟨1, 0, 1, 1⟩⟩, ⟨"(", "(", 0, ⟨1, 1, 1, 2⟩⟩, ⟨")", ")", 0, ⟨2, 0, 2, 1⟩⟩]

theorem run_brokenLine :
    let parser : Predictive.Parser Nat Unit := ⟨.generate .parentheses, #[]⟩
    let c := Predictive.start (brokenLine.map .ok) ()
    (∃ r error, parser.run ShiftReduce.silent 20 c = some r ∧ r.reported = [error] ∧
      error.line = 1) ∧
    (parser.events ShiftReduce.silent 20 c).flatMap (·.consumed) = brokenLine := by
  intro parser c
  have hrun : (parser.run ShiftReduce.silent 20 c).map (·.reported.map (·.line)) = some [1] := by
    decide +kernel
  have hlength : ((parser.events ShiftReduce.silent 20 c).flatMap (·.consumed)).length = 3 := by
    decide +kernel
  obtain ⟨r, hr, hlines⟩ := Option.map_eq_some_iff.mp hrun
  obtain ⟨error, herror, hline⟩ := List.map_eq_singleton_iff.mp hlines
  exact ⟨⟨r, error, hr, herror, hline⟩, (Predictive.consumed_prefix hr).eq_of_length hlength⟩

theorem end_error_location_brokenLine :
    let parser : ShiftReduce.Parser Nat Unit :=
      ⟨.ofTable (.generate .parentheses .parentheses), #[]⟩
    let history := parser.history ShiftReduce.silent 20 (ShiftReduce.start (brokenLine.map .ok) ())
    let predictive : Predictive.Parser Nat Unit := ⟨.generate .parentheses, #[]⟩
    (∃ first ∈ history, ∃ error, first.2.config.reported = [error] ∧
      error.location = ⟨2, 1, 2, 1⟩ ∧ error.line = 2) ∧
    ∃ r error, predictive.run ShiftReduce.silent 20
        (Predictive.start (brokenLine.map .ok) ()) = some r ∧
      r.reported = [error] ∧ ∃ first ∈ Location.zero :: brokenLine.map (·.location),
        error.location = first.merge ⟨2, 0, 2, 1⟩ ∧ error.line = first.firstLine := by
  intro parser history predictive
  obtain ⟨hshiftReduce, hpredictive⟩ := end_error_location Grammar.parentheses_defined
    keepsLocation_empty ShiftReduce.silent brokenLine () 20
  refine ⟨?_, ?_⟩
  · have hclean : ((history.take 5).all fun step => !parser.meetsError step.1) = true := by
      decide +kernel
    have hfirst : (history.drop 5).head?.map (fun step => (parser.meetsError step.1,
        step.1.unread.map (·.name))) = some (true, []) := by
      decide +kernel
    simp only [List.all_eq_true, Bool.not_eq_true'] at hclean
    cases hdrop : history.drop 5 with
    | nil =>
      rw [hdrop] at hfirst
      cases hfirst
    | cons first after =>
      rw [hdrop, List.head?_cons, Option.map_some, Option.some.injEq, Prod.mk.injEq] at hfirst
      have hhistory : history = history.take 5 ++ first :: after := by
        rw [← hdrop, List.take_append_drop]
      obtain ⟨error, hreported, hlocation, hline⟩ := hshiftReduce .merged .parentheses
        Method.merged_parentheses _ first after hhistory hclean hfirst.1
        (List.map_eq_nil_iff.mp hfirst.2)
      refine ⟨first, ?_, error, hreported, hlocation, hline⟩
      rw [hhistory]
      exact List.mem_append_right _ List.mem_cons_self
  · obtain ⟨⟨r, error, hr, hreported, -⟩, hconsumed⟩ := run_brokenLine
    exact ⟨r, error, hr, hreported, hpredictive r error hr hreported hconsumed⟩

/-- The predictive engine places it on the first line, where the inner pair begins. -/
theorem end_error_line_brokenLine :
    ¬ ∀ g : Grammar, g.Defined → ∀ (tokens : List (Token Nat)) (fuel : Nat),
      let parser : Predictive.Parser Nat Unit := ⟨.generate g, #[]⟩
      let c := Predictive.start (tokens.map .ok) ()
      ∀ r error, parser.run ShiftReduce.silent fuel c = some r → r.reported = [error] →
        (parser.events ShiftReduce.silent fuel c).flatMap (·.consumed) = tokens →
        error.line = (lastLocation tokens).lastLine := by
  intro h
  obtain ⟨⟨r, error, hr, hreported, hfirst⟩, hconsumed⟩ := run_brokenLine
  have hlast := h .parentheses Grammar.parentheses_defined brokenLine 20 r error hr hreported
    hconsumed
  rw [hfirst] at hlast
  revert hlast
  decide

end TableParsing
