import TableParsing.Proofs.Engine.Predictive.Soundness
import TableParsing.Proofs.Engine.Predictive.Termination

/-! The predictive engine over a table without conflicts decides the language of the grammar: it
ends on every sequence of tokens, accepts those that the start symbol derives and reports one
syntax error on each of the others. -/

namespace TableParsing.Predictive

open ShiftReduce (Plain silent tokensOf)

variable {V P : Type} {g : Grammar} {actions : Actions V P} {env : Environment V P}
  {tokens : List (Token V)} {params : P}

theorem token_syntaxError (parser : Parser V P) (c : Config V P) (rest : List (Token V))
    (expected : List Nat) :
    (parser.syntaxError c (lookaheadOf parser.table rest) expected).token = nextName rest := by
  cases rest <;> rfl

section Ends

variable {c c' : Config V P} {events : List (Event V P)} {γ : List Symbol}
  {trees : List (Tree (Option (Token V)))} {w : List (Nat × Option (Token V))}
  {rest : List (Token V)} {outcome : Except ParseError (Option V)} (plain : Plain actions)
  (h : Parsed g actions env tokens params c events γ trees w rest)

include plain h

theorem Parsed.goals_eq_nil {v : Option V}
    (hstop : (engine g actions).step env c = .stop (.ok v) c') : c.goals = [] := by
  generalize hok : Except.ok v = outcome at hstop
  cases step_ending plain h.pending hstop with
  | finished hgoals => exact hgoals
  | refused => cases hok
  | recursive => cases hok
  | underflow => cases hok

theorem Parsed.ending (wf : g.WellFormed)
    (hconflicts : (PredictionTable.generate g).conflicts = [])
    (hstop : (engine g actions).step env c = .stop outcome c') :
    c.goals = [] ∧ outcome = .ok (c.entries.head?.bind (·.value)) ∨
    ∃ error, ¬ g.Opens [.nonterminal Symbol.accept]
        ((w.filterMap (·.2)).map (·.name) ++ [nextName rest]) ∧
      g.Opens [.nonterminal Symbol.accept] ((w.filterMap (·.2)).map (·.name)) ∧
      error.token = nextName rest ∧ c'.reported = error :: c.reported ∧
      outcome = .error ((env.onError c.reported error).getD (.unexpected error)) := by
  cases step_ending plain h.pending hstop with
  | finished hgoals => exact Or.inl ⟨hgoals, rfl⟩
  | @refused x goals d _ expected error hgoals hrefuses herror hreported =>
    refine Or.inr ⟨error, h.not_opens wf hconflicts hgoals hrefuses, h.opens wf hgoals, ?_,
      hreported, rfl⟩
    rw [herror]
    exact token_syntaxError _ _ _ _
  | @recursive n goals e name _ hgoals hpredict he hsymbol =>
    obtain ⟨p, hp⟩ := Option.ne_none_iff_exists'.mp hpredict
    obtain ⟨t, ht, -⟩ := Option.bind_eq_some_iff.mp hp
    exact absurd hsymbol (h.descent.not_pending wf hconflicts hgoals ht e he)
  | @underflow p goals _ hgoals hlt =>
    -- the whole right side is on the stack
    have hframes := h.frames
    rw [hgoals] at hframes
    obtain ⟨-, δ, hγ, -⟩ := hframes.reduce
    have hheights := h.heights
    rw [hγ, List.length_append, List.length_reverse, Array.length_toList] at hheights
    exact absurd hlt (by rw [hheights]; change ¬ _ < (g.production p).right.size; omega)

end Ends

/-- Every successful run has recognised a sentence, and its reductions are those of a derivation
tree, each after those of its children, with production zero last. Over a table without conflicts
every run comes to an end: with success where the start symbol derives the tokens, and otherwise
with one syntax error, or with what the caller answers to it; never with left recursion or a
stack that is too short. -/
theorem run_correct (hg : g.Defined) {actions : Actions V P} (plain : Plain actions)
    (env : Environment V P) (tokens : List (Token V))
    (hnames : ∀ token ∈ tokens, token.name ≠ Symbol.endName) (params : P) :
    let parser : Parser V P := ⟨.generate g, actions⟩
    let c := start (tokens.map .ok) params
    (∀ fuel r v, parser.run env fuel c = some r → r.outcome = .ok v →
      g.Generates (tokens.map (·.name)) ∧
      ∃ (word : List Nat) (tree : Tree (Token V)) (ps : List Nat),
        tokens.map (·.name) = word.map g.terminalName ∧
        g.Yields [tree] [.nonterminal g.start] (word.zip tokens) ps ∧
        reductions (parser.events env fuel c) = ps ++ [0]) ∧
    ((PredictionTable.generate g).conflicts = [] →
      ∃ n, ∀ fuel, n ≤ fuel → ∃ r, parser.run env fuel c = some r ∧
        (g.Generates (tokens.map (·.name)) → ∃ v, r.outcome = .ok v) ∧
        (¬ g.Generates (tokens.map (·.name)) → ∃ error, r.reported = [error] ∧
          r.outcome = .error ((env.onError [] error).getD (.unexpected error)))) := by
  intro parser c
  have wf := hg.wellFormed
  refine ⟨fun fuel r v hrun hok => ?_, fun hconflicts => ?_⟩
  · obtain ⟨d, outcome, d', hsteps, hstop, rfl⟩ := exists_steps_of_run hrun
    obtain ⟨γ, trees, w, rest, hparsed⟩ := Parsed.steps wf hnames hsteps parsed_start
    cases hok
    have hgoals := hparsed.goals_eq_nil plain hstop
    obtain ⟨word, tree, ps, hword, hderives, hyields, hreductions⟩ :=
      hparsed.sentence wf hnames hgoals
    exact ⟨⟨word, hword, hderives⟩, word, tree, ps, hword, hyields, hreductions⟩
  · obtain ⟨events, d, outcome, d', hsteps, hstop⟩ :=
      exists_stop parser env (guarded_start _ (tokens.map .ok) params)
    obtain ⟨γ, trees, w, rest, hparsed⟩ := Parsed.steps wf hnames hsteps parsed_start
    refine ⟨events.length + 1, fun fuel hfuel => ⟨_, (hsteps.run hstop hfuel).1, ?_⟩⟩
    rcases hparsed.ending plain wf hconflicts hstop with
      ⟨hgoals, rfl⟩ | ⟨error, hnot, -, -, hreported, rfl⟩
    · obtain ⟨word, -, -, hword, hderives, -⟩ := hparsed.sentence wf hnames hgoals
      exact ⟨fun _ => ⟨_, rfl⟩, fun hnone => absurd ⟨word, hword, hderives⟩ hnone⟩
    · refine ⟨fun hgenerates => absurd ?_ hnot, fun _ => ⟨error, ?_, ?_⟩⟩
      · rw [← hparsed.read] at hgenerates
        exact (wf.opens_of_generates hgenerates).mono (prefix_nextName _ _)
      · rw [hreported, hsteps.reported]
        rfl
      · rw [hsteps.reported]
        rfl

theorem run_correct_parentheses :
    let parser : Parser Nat Unit := ⟨.generate .parentheses, #[]⟩
    let tokens := tokensOf ["(", "(", ")", ")"]
    parser.run silent 16 (start (tokens.map .ok) ()) = some ⟨.ok (some 0), (), []⟩ ∧
    (PredictionTable.generate .parentheses).conflicts = [] ∧
    Grammar.parentheses.Generates ["(", "(", ")", ")"] ∧
    (∃ (word : List Nat) (tree : Tree (Token Nat)),
      ["(", "(", ")", ")"] = word.map Grammar.parentheses.terminalName ∧
      Grammar.parentheses.Yields [tree] [.nonterminal 1] (word.zip tokens) [2, 1, 1]) ∧
    ∃ n, ∀ fuel, n ≤ fuel → ∃ r v, parser.run silent fuel (start (tokens.map .ok) ()) = some r ∧
      r.outcome = .ok v := by
  intro parser tokens
  have hrun : parser.run silent 16 (start (tokens.map .ok) ()) =
      some ⟨.ok (some 0), (), []⟩ := by
    cbv
  have hevents : reductions (parser.events silent 16 (start (tokens.map .ok) ())) =
      [2, 1, 1, 0] := by
    cbv
  have hconflicts : (PredictionTable.generate .parentheses).conflicts = [] := by
    cbv
  obtain ⟨hsound, hcomplete⟩ := run_correct Grammar.parentheses_defined
    (ShiftReduce.plain_empty (V := Nat) (P := Unit)) silent tokens (by decide) ()
  obtain ⟨hgenerates, word, tree, ps, hword, hyields, hreductions⟩ := hsound 16 _ _ hrun rfl
  obtain ⟨n, hn⟩ := hcomplete hconflicts
  refine ⟨hrun, hconflicts, hgenerates, ⟨word, tree, hword, ?_⟩, n, fun fuel hfuel => ?_⟩
  · have hps : ps = [2, 1, 1] :=
      (List.append_inj_left' (hevents.symm.trans hreductions) rfl).symm
    rwa [hps] at hyields
  · obtain ⟨r, hr, hok, -⟩ := hn fuel hfuel
    obtain ⟨v, hv⟩ := hok hgenerates
    exact ⟨r, v, hr, hv⟩

end TableParsing.Predictive
