import TableParsing.Proofs.Engine.Completeness
import TableParsing.Proofs.Engine.Repair

/-! Over a table without conflicts the first error is met exactly where the input leaves the
forms that can be derived. What was shifted before it begins such a form, since some item is
valid after the stack. With the token at which it is met the input begins none: otherwise a plan
would read up to that token, and the engine follows every plan. -/

namespace TableParsing.ShiftReduce

variable {V P : Type} {g : Grammar} {a : Automaton}

theorem Stacked.exists_viable (hf : a.Faithful g) {γ : List Symbol} {states : List Nat}
    (h : Stacked a γ states) : ∃ i, Viable g γ i := by
  cases h with
  | base => exact ⟨_, .start⟩
  | @push γ s s' states x h hstep =>
    obtain ⟨hend, i, hi, hnext⟩ := hf.viable_of_step h.stateAfter_eq hstep
    exact ⟨_, .advance hi hnext hend⟩

section Names

variable (wf : g.WellFormed) {word : List Nat} {tokens : List (Token V)}

include wf

theorem comes_of_names (hlt : ∀ t ∈ word, t < g.terminals.size)
    (h : word.map g.terminalName <+: tokens.map (·.name) ++ [Symbol.endName]) :
    Comes (Tables.ofTable (Table.generate g a)) tokens word := by
  have hword : (word.map g.terminalName).map (Table.generate g a).terminal? = word.map some := by
    rw [List.map_map]
    exact List.map_congr_left fun t ht => Table.terminal?_terminalName wf (hlt t ht)
  have hmap := h.map (Table.generate g a).terminal?
  rw [hword, List.map_append, List.map_map, List.map_singleton,
    (Table.terminal?_eq_endOfInput wf).mpr rfl] at hmap
  exact hmap

theorem comes_of_form {β : List Symbol}
    (hform : g.Derives [.nonterminal Symbol.accept] (word.map .terminal ++ β))
    (h : word.map g.terminalName <+: tokens.map (·.name) ++ [Symbol.endName]) :
    Comes (Tables.ofTable (Table.generate g a)) tokens word := by
  refine comes_of_names wf (fun t ht => ?_) h
  refine wf.derives_terminal_lt hform (by simp) t (List.mem_append_left _ ?_)
  exact List.mem_map_of_mem ht

end Names

section Position

variable {parser : Parser V P} {env : Environment V P} {c d : Config V P}
  {hist : List (Config V P × Move V P)}

theorem Steps.unread_le (h : Steps parser env c hist d) : d.unread.length ≤ c.unread.length := by
  induction h with
  | refl => exact Nat.le_refl _
  | head hstep _ ih =>
    have hunread := congrArg List.length (step_effect hstep).unread
    rw [List.length_append] at hunread
    omega

variable (wf : g.WellFormed) (hf : a.Faithful g) (ht : parser.tables.Realizes g a)
  (hd : parser.tables.Decides g a)

include wf hf ht hd

theorem length_le_of_plan (hsteps : Steps parser env c hist d)
    (herror : parser.meetsError d = true) {δ δ' : List Symbol} {rest : List (Token V)}
    {v : List Nat} {acts : List Act} {t : Nat} {i : Item} (h : Stands a parser.tables c δ rest)
    (hv : Comes parser.tables rest v) (hplan : Plan g δ v acts δ' [t]) (hi : Viable g δ' i)
    (hnext : i.next g = some (.terminal t)) : d.unread.length + v.length ≤ rest.length := by
  induction hsteps generalizing δ rest v acts with
  | @refl c =>
    -- the error would be met before the first act, or where the last terminal is read
    cases acts with
    | cons act acts =>
      rw [(h.follow env hf hd wf ht hv hplan).1] at herror
      cases herror
    | nil =>
      cases hplan
      by_cases hend : t = Symbol.endOfInput
      · subst hend
        obtain ⟨s, states, hstates, hs⟩ := h.stacked.exists_top
        have haction := hd.accept hs hi hnext
        obtain ⟨la, input, hlook, hreads⟩ := h.pending.look
        have hclean := meetsError_eq_false hstates hlook (by
          rw [Tables.actionOn, hreads.terminal_eq, hv.next]
          simp [haction])
        rw [hclean] at herror
        cases herror
      · rw [(h.shift env hf hd wf hv.next hi hnext hend).1] at herror
        cases herror
  | @head c c' d e hist hstep hsteps ih =>
    cases acts with
    | cons act acts =>
      obtain ⟨-, -, hfollow⟩ := h.follow env hf hd wf ht hv hplan
      obtain ⟨δ₁, v₁, rest₁, hstands, hv₁, hplan₁, hlength, -⟩ := hfollow e c' hstep
      have hle := ih herror hstands hv₁ hplan₁
      omega
    | nil =>
      cases hplan
      by_cases hend : t = Symbol.endOfInput
      · -- the end of input is accepted, not read
        subst hend
        obtain ⟨s, states, hstates, hs⟩ := h.stacked.exists_top
        rcases exists_action hd h.pending hv.next (hd.accept hs hi hnext) (by simp) with
          ⟨p, hp, -⟩ | ⟨hdefault, la, input, hlook, -, hon⟩
        · cases hp
        · rw [step_accept hstates hdefault hlook hon] at hstep
          cases hstep
      · obtain ⟨-, token, later, la, c₁, rfl, hshift, hstands, -⟩ :=
          h.shift env hf hd wf hv.next hi hnext hend
        rw [hstep] at hshift
        cases hshift
        have hle := hsteps.unread_le
        rw [hstands.pending.unread_eq] at hle
        simp only [List.length_cons, List.length_nil]
        omega

omit hd in
theorem stack_derives (hnamed : ∀ {name t}, parser.tables.terminal? name = some t →
      name = g.terminalName t) {tokens : List (Token V)} {params : P}
    (hsteps : Steps parser env (start (tokens.map .ok) params) hist d)
    (hclean : ∀ m ∈ hist, parser.meetsError m.1 = false) :
    ∃ (read rest : List (Token V)) (word : List Nat) (γ : List Symbol),
      tokens = read ++ rest ∧ consumption hist = read.map (⟨·, true⟩) ∧
      Stands a parser.tables d γ rest ∧ word.map g.terminalName = read.map (·.name) ∧
      g.Derives γ.reverse (word.map .terminal) := by
  obtain ⟨γ, w, hmended⟩ := Mended.steps wf hf ht hnamed hsteps
    (mended_start parser tokens params)
  obtain ⟨rest, hrest, hread⟩ := hmended.pending
  have hnone : recoveries parser env hist = 0 := by
    rw [recoveries, List.countP_eq_zero]
    intro m hm
    rw [recovery?_eq_none_of_clean (hclean m hm)]
    simp
  -- nothing was replaced, so every terminal stands for a token shifted
  have hkept : ∀ e ∈ w, ∃ token, e.2.consumption = [⟨token, true⟩] ∧
      token.name = g.terminalName e.1 := by
    intro e he
    have hreplaced := hmended.replaced
    rw [hnone, Nat.zero_add, Nat.le_zero, List.countP_eq_zero] at hreplaced
    have hstands := hmended.stands e he
    cases hpiece : e.2 with
    | kept token =>
      rw [hpiece] at hstands
      exact ⟨token, rfl, hstands⟩
    | replaced segment => exact absurd (by rw [hpiece]; rfl) (hreplaced e he)
  have hconsumed : w.flatMap (·.2.consumption) = consumption hist := hmended.consumed
  obtain ⟨trees, ps, hyields⟩ := hmended.yields
  refine ⟨(consumption hist).map (·.token), rest, w.map (·.1), γ, hread.symm, ?_,
    ⟨hmended.stacked, hrest⟩, ?_, ?_⟩
  · have hshifted : ∀ x ∈ consumption hist, ⟨x.token, true⟩ = x := by
      intro x hx
      rw [← hconsumed, List.mem_flatMap] at hx
      obtain ⟨e, he, hx⟩ := hx
      obtain ⟨token, hpiece, -⟩ := hkept e he
      rw [hpiece, List.mem_singleton] at hx
      rw [hx]
    rw [List.map_map]
    exact ((List.map_congr_left hshifted).trans (List.map_id _)).symm
  · rw [← hconsumed, List.map_map, List.map_map, List.map_flatMap, List.map_eq_flatMap]
    refine (List.flatMap_congr fun e he => ?_).symm
    obtain ⟨token, hpiece, hname⟩ := hkept e he
    simp [hpiece, hname]
  · have hderives := hyields.derives
    rwa [List.map_map]

omit hd in
theorem exists_read (hnamed : ∀ {name t}, parser.tables.terminal? name = some t →
      name = g.terminalName t) {tokens : List (Token V)} {params : P}
    (hsteps : Steps parser env (start (tokens.map .ok) params) hist d)
    (hclean : ∀ m ∈ hist, parser.meetsError m.1 = false) :
    ∃ read rest, tokens = read ++ rest ∧ Pending parser.tables d rest ∧
      g.Opens [.nonterminal Symbol.accept] (read.map (·.name)) := by
  obtain ⟨read, rest, word, γ, hread, -, hstands, hword, hderives⟩ :=
    stack_derives wf hf ht hnamed hsteps hclean
  obtain ⟨i, hi⟩ := hstands.stacked.exists_viable hf
  obtain ⟨ζ, hζ⟩ := hi.derives wf
  refine ⟨read, rest, hread, hstands.pending, word, (i.right g).drop i.index ++ ζ, hword, ?_⟩
  rw [List.append_assoc] at hζ
  exact hζ.trans (hderives.append [] ((i.right g).drop i.index ++ ζ))

end Position

theorem not_opens {actions : Actions V P} {env : Environment V P} (wf : g.WellFormed)
    (hf : a.Faithful g) (hd : (Tables.ofTable (Table.generate g a)).Decides g a)
    {read rest : List (Token V)} (hnames : ∀ token ∈ read, token.name ≠ Symbol.endName)
    {params : P} {hist : List (Config V P × Move V P)} {d : Config V P} :
    let parser : Parser V P := ⟨.ofTable (Table.generate g a), actions⟩
    Steps parser env (start ((read ++ rest).map .ok) params) hist d →
    parser.meetsError d = true → Pending parser.tables d rest →
    ¬ g.Opens [.nonterminal Symbol.accept] (read.map (·.name) ++ [nextName rest]) := by
  rintro parser hsteps herror hrest ⟨word, β, hword, hderives⟩
  have hlength : word.length = read.length + 1 := by
    simpa using congrArg List.length hword
  have hne : word ≠ [] := by
    rintro rfl
    simp at hlength
  have hcomes : Comes parser.tables (read ++ rest) word :=
    comes_of_form wf hderives (hword ▸ prefix_nextName read rest)
  have hlast : ∀ t ∈ word.dropLast, t ≠ Symbol.endOfInput := by
    have hread : word.dropLast.map g.terminalName = read.map (·.name) := by
      rw [List.map_dropLast, hword, List.dropLast_concat]
    rintro t ht rfl
    exact wf.end_notMem hread hnames ht
  obtain ⟨acts, δ, t, i, hplan, hi, hnext⟩ := form_plan wf hne hderives hlast
  have hle := length_le_of_plan wf hf realizes_generate hd hsteps herror
    (stands_start _ _ _) hcomes hplan hi hnext
  rw [hrest.unread_eq, List.length_append] at hle
  omega

section Report

variable {parser : Parser V P} {env : Environment V P} {c c' d : Config V P}

theorem Effect.quiet {e : Event V P} (h : Effect parser env c e c')
    (hclean : parser.meetsError c = false) :
    c'.reported = c.reported ∧ (c.recovering = 0 → c'.recovering = 0) := by
  cases h with
  | shift => exact ⟨rfl, fun hzero => by simp [shifted, hzero]⟩
  | reduce _ hheld hreduce =>
    obtain ⟨-, -, -, hrecovering, hreported⟩ := reduce_next_eq hreduce
    rw [hrecovering, hreported]
    rcases hheld with ⟨rfl, -⟩ | ⟨-, la, input, -, rfl, -⟩ <;> exact ⟨rfl, id⟩
  | recover hr _ =>
    rw [recovery?_eq_none_of_clean hclean] at hr
    cases hr

theorem Steps.quiet {hist : List (Config V P × Move V P)} (h : Steps parser env c hist d)
    (hclean : ∀ m ∈ hist, parser.meetsError m.1 = false) :
    d.reported = c.reported ∧ (c.recovering = 0 → d.recovering = 0) := by
  induction h with
  | refl => exact ⟨rfl, id⟩
  | head hstep _ ih =>
    rw [List.forall_mem_cons] at hclean
    obtain ⟨hreported, hrecovering⟩ := (step_effect hstep).quiet hclean.1
    obtain ⟨hreported', hrecovering'⟩ := ih hclean.2
    exact ⟨hreported'.trans hreported, fun hzero => hrecovering' (hrecovering hzero)⟩

theorem reported_recover (error : SyntaxError) (la : Lookahead V)
    (dropped : List (Lookahead V)) :
    (parser.recover c error la dropped).config.reported = c.reported := by
  cases recover_cases parser c error la dropped with
  | unexpected _ hmove | halted hmove | lexical hmove | found _ _ hmove =>
    rw [hmove]
    rfl

theorem reported_fail (parser : Parser V P) (env : Environment V P) (c : Config V P) (s : Nat)
    (la : Lookahead V) : (parser.fail env c s la).config.reported =
      if c.recovering = 0 then parser.tables.syntaxError s la c.states :: c.reported
      else c.reported := by
  cases fail_cases parser env c s la with
  | answered _ _ hmove | unexpected _ _ hmove | halted _ hmove | lexical _ hmove =>
    rw [hmove]
    rfl
  | recover _ _ hmove =>
    rw [hmove, reported_recover]
    rfl

theorem recoverable_report (token : Option (Token V)) (location : Location)
    (expected : List String) (recoverable : Bool) :
    (SyntaxError.report token location expected recoverable).recoverable = recoverable := by
  cases token <;> rfl

theorem recoverable_syntaxError (t : Tables) (state : Nat) (la : Lookahead V)
    (states : List Nat) : (t.syntaxError state la states).recoverable = false ↔
      ∀ s ∈ states, t.shiftsError s = none := by
  rw [Tables.syntaxError, recoverable_report]
  simp

theorem token_syntaxError {t : Tables} {la : Lookahead V} {input : Source V}
    {rest : List (Token V)} (h : Reads t la input rest) (state : Nat) (states : List Nat) :
    (t.syntaxError state la states).token = nextName rest := by
  cases h with
  | token token rest => rfl
  | ending _ htoken =>
    rw [Tables.syntaxError, htoken]
    rfl

theorem reported_of_meetsError (env : Environment V P) {rest : List (Token V)}
    (hzero : c.recovering = 0)
    (hpending : Pending parser.tables c rest) (herror : parser.meetsError c = true) :
    ∃ error, (parser.step env c).config.reported = error :: c.reported ∧
      error.token = nextName rest := by
  obtain ⟨s, states, la, input, hstates, hdefault, hlook, haction⟩ := exists_of_meetsError herror
  obtain ⟨la', input', hlook', hreads⟩ := hpending.look
  rw [hlook] at hlook'
  cases hlook'
  refine ⟨parser.tables.syntaxError s la c.states, ?_, token_syntaxError hreads _ _⟩
  rw [step_error hstates hdefault hlook haction, reported_fail, if_pos hzero]

end Report

/-- Over a table without conflicts the first error is met exactly where the tokens leave the
forms that can be derived: those shifted before begin a form of the start symbol, and with the
one at which the error is met, or with the end of input, they begin no form of what is to be
accepted. A token of an unknown name is never shifted; it is met as an error unless the state
reduces by default without a look at it. -/
theorem error_position (hg : g.Defined) {m : Method} (ha : m.automaton g = .ok a)
    (hconflicts : (Table.generate g a).conflicts = []) (actions : Actions V P)
    (env : Environment V P) (tokens : List (Token V))
    (hnames : ∀ token ∈ tokens, token.name ≠ Symbol.endName) (params : P) (fuel : Nat) :
    let parser : Parser V P := ⟨.ofTable (Table.generate g a), actions⟩
    let history := parser.history env fuel (start (tokens.map .ok) params)
    (∀ before first after, history = before ++ first :: after →
      (∀ step ∈ before, parser.meetsError step.1 = false) → parser.meetsError first.1 = true →
      ∃ read, tokens = read ++ first.1.unread ∧
        g.Opens [.nonterminal g.start] (read.map (·.name)) ∧
        ¬ g.Opens [.nonterminal Symbol.accept]
          (read.map (·.name) ++ [nextName first.1.unread])) ∧
    ∀ step ∈ history, ∀ token rest, step.1.unread = token :: rest →
      g.terminal? token.name = none →
      (parser.meetsError step.1 = true ∨ ∃ s p, step.1.states.head? = some s ∧
        (Table.generate g a).defaultReduction s = some p) ∧
      ∀ la c', step.2 ≠ .next (.shift la) c' := by
  intro parser history
  have wf := hg.wellFormed
  obtain ⟨hf, hc⟩ := Method.automaton_spec wf ha
  have ht : parser.tables.Realizes g a := realizes_generate
  have hd : parser.tables.Decides g a := decides_generate wf hf hc hconflicts
  have hnamed : ∀ {name t}, parser.tables.terminal? name = some t → name = g.terminalName t :=
    Table.eq_terminalName wf
  refine ⟨?_, ?_⟩
  · intro before first after hhistory hclean herror
    have hsteps := steps_of_history hhistory
    obtain ⟨read, rest, rfl, hrest, word, β, hword, hderives⟩ :=
      exists_read wf hf ht hnamed hsteps hclean
    rw [hrest.unread_eq]
    have hread : ∀ token ∈ read, token.name ≠ Symbol.endName :=
      fun token htoken => hnames token (List.mem_append_left _ htoken)
    obtain ⟨β', hβ'⟩ := wf.derives_start hderives (wf.end_notMem hword hread)
    exact ⟨read, rfl, ⟨word, β', hword, hβ'⟩, not_opens wf hf hd hread hsteps herror hrest⟩
  · intro step hstep token rest hunread hunknown
    obtain ⟨before, after, hhistory⟩ := List.append_of_mem hstep
    obtain ⟨γ, w, hmended⟩ := Mended.steps wf hf ht hnamed (steps_of_history hhistory)
      (mended_start parser tokens params)
    obtain ⟨rest', hrest', -⟩ := hmended.pending
    obtain rfl := hrest'.unread_eq.symm.trans hunread
    obtain ⟨s, states, hstates, -⟩ := hmended.stacked.exists_top
    obtain ⟨la, input, hlook, hreads⟩ := hrest'.look
    have herror : parser.tables.actionOn s la = .error := by
      rw [Tables.actionOn, hreads.terminal_eq]
      simp only [nextTerminal]
      rw [show parser.tables.terminal? token.name = none from
        Table.terminal?_eq_none wf hunknown]
    refine ⟨?_, fun la' c' hshift => ?_⟩
    · cases hdefault : parser.tables.defaultReduction s with
      | some p => exact Or.inr ⟨s, p, by rw [hstates]; rfl, hdefault⟩
      | none =>
        rw [meetsError_eq hstates hdefault hlook, herror]
        exact Or.inl rfl
    · rw [history_step hstep] at hshift
      generalize he : Event.shift la' = e at hshift
      cases step_effect hshift with
      | reduce => cases he
      | recover => cases he
      | shift hstates' _ hlook' haction =>
        rw [hstates] at hstates'
        cases hstates'
        rw [hlook] at hlook'
        cases hlook'
        rw [herror] at haction
        cases haction

theorem error_position_tolerant :
    (Table.generate .tolerant .tolerant).conflicts = [] ∧
    Grammar.tolerant.Opens [.nonterminal 1] ["x"] ∧
    ¬ Grammar.tolerant.Opens [.nonterminal Symbol.accept] ["x", "x"] := by
  let parser : Parser Nat Unit := ⟨.ofTable (.generate .tolerant .tolerant), #[]⟩
  let history := parser.history silent 8 (start ((tokensOf ["x", "x"]).map .ok) ())
  have hconflicts : (Table.generate .tolerant .tolerant).conflicts = [] := by
    rw [Table.generate_tolerant]
    rfl
  have hclean : ((history.take 2).all fun step => !parser.meetsError step.1) = true := by
    simp only [history, parser, Table.generate_tolerant]
    decide +kernel
  have hfirst : (history.drop 2).head?.map (fun step =>
      (parser.meetsError step.1, step.1.unread.map (·.name))) = some (true, ["x"]) := by
    simp only [history, parser, Table.generate_tolerant]
    decide +kernel
  simp only [List.all_eq_true, Bool.not_eq_true'] at hclean
  refine ⟨hconflicts, ?_⟩
  cases hdrop : history.drop 2 with
  | nil =>
    rw [hdrop] at hfirst
    cases hfirst
  | cons first after =>
    rw [hdrop, List.head?_cons, Option.map_some, Option.some.injEq, Prod.mk.injEq] at hfirst
    have hhistory : history = history.take 2 ++ first :: after := by
      rw [← hdrop, List.take_append_drop]
    obtain ⟨read, hread, hopens, hnot⟩ := (error_position Grammar.tolerant_defined
      Method.slr_tolerant hconflicts #[] silent (tokensOf ["x", "x"]) (by decide) ()
      8).1 _ first after hhistory hclean hfirst.1
    have hunread : ∃ token, first.1.unread = [token] ∧ token.name = "x" := by
      simpa [List.map_eq_singleton_iff] using hfirst.2
    obtain ⟨token, hunread, hname⟩ := hunread
    rw [hunread] at hread hnot
    have hnames := congrArg (List.map (·.name)) hread
    rw [List.map_append, List.map_singleton, hname] at hnames
    have hstart : read.map (·.name) = ["x"] :=
      (List.append_inj_left' hnames rfl).symm
    rw [hstart] at hopens hnot
    rw [nextName, hname] at hnot
    exact ⟨hopens, hnot⟩

end TableParsing.ShiftReduce
