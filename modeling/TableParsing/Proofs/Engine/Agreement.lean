import TableParsing.Proofs.Engine.DefaultReduction
import TableParsing.Proofs.Engine.ErrorPosition
import TableParsing.Proofs.Engine.Predictive.Correctness
import TableParsing.Proofs.Engine.Soundness

/-! Where neither table has conflicts the two engines agree. A sentence has one tree; one engine
builds it from the top and the other from the leaves, but both perform its acts in the same
order, so that their actions run in the same contexts. On any other input both go on as far as
some form can be derived, and there is only one place where the tokens leave these forms. -/

namespace TableParsing

open ShiftReduce (Plain Accepts AnswersAlike answer reductionContexts silent tokensOf)

variable {V P : Type} {g : Grammar} {a : Automaton} {actions : Actions V P}

theorem Performs.agree {nested nested' : Nested V P} {s s₁ s₂ : Store V P} {acts : List Act}
    {contexts contexts' : List (Context V P)}
    (h : Performs g actions nested s acts contexts s₁)
    (h' : Performs g actions nested' s acts contexts' s₂)
    (halike : ∀ c ∈ contexts', answer actions nested c = answer actions nested' c) :
    contexts = contexts' ∧ s₁ = s₂ := by
  induction h generalizing contexts' with
  | done =>
    cases h'
    exact ⟨rfl, rfl⟩
  | shift hrest _ ih =>
    cases h' with
    | shift hrest' h' =>
      rw [hrest] at hrest'
      cases hrest'
      exact ih h' halike
  | finish _ _ ih =>
    cases h' with
    | finish _ h' => exact ih h' halike
  | @reduce s s₁ p v after acts contexts hrun _ ih =>
    cases h' with
    | @reduce _ _ _ v' after' _ contexts' hrun' h' =>
      rw [List.forall_mem_cons] at halike
      have hanswer := halike.1
      simp only [answer, hrun, hrun', Prod.mk.injEq, Reply.value.injEq] at hanswer
      obtain ⟨rfl, hlocation, hparams⟩ := hanswer
      have hstore : s.reduced g p v after = s.reduced g p v after' := by
        rw [Store.reduced, Store.reduced, hlocation, hparams]
      rw [← hstore] at h'
      obtain ⟨rfl, rfl⟩ := ih h' halike.2
      exact ⟨rfl, rfl⟩

theorem Performs.accept (wf : g.WellFormed) (hzero : actions.getD 0 none = none)
    {nested : Nested V P} {s s' : Store V P} {contexts : List (Context V P)}
    (h : Performs g actions nested s [.finish, .reduce 0] contexts s') :
    (∃ last : Context V P, last.production = 0 ∧ contexts = [last]) ∧
      s'.entries.head?.bind (·.value) = s.entries.head?.bind (·.value) := by
  cases h with
  | finish _ h =>
    cases h with
    | @reduce _ _ _ v after _ _ hrun h =>
      cases h
      refine ⟨⟨_, rfl, rfl⟩, ?_⟩
      have hdefault : actions.run nested (s.ended.context g 0) =
          (.value ((s.ended.context g 0).take 1).1, ((s.ended.context g 0).take 1).2) := by
        have hproduction : (s.ended.context g 0).production = 0 := rfl
        simp only [Actions.run, hproduction, hzero]
      rw [hdefault] at hrun
      cases hrun
      have hsize : (g.production 0).right.size = 2 := by
        rw [wf.right_zero]
        rfl
      simp only [Store.reduced, Store.context, Store.ended, Context.ofReduction, Context.take,
        hsize]
      cases s.entries <;> rfl

theorem ShiftReduce.AnswersAlike.mem_contexts {env env' : Environment V P}
    {history : List (ShiftReduce.Config V P × ShiftReduce.Move V P)}
    (h : AnswersAlike actions env env' history) : ∀ context ∈ reductionContexts history,
      answer actions env.nested context = answer actions env'.nested context := by
  intro context hmem
  obtain ⟨⟨c, move⟩, hm, hevent⟩ := List.mem_filterMap.mp hmem
  obtain ⟨e, he, hcontext⟩ := Option.bind_eq_some_iff.mp hevent
  cases move with
  | stop => cases he
  | next e' c' =>
    cases he
    cases e with
    | reduce context' =>
      cases hcontext
      exact h c context c' hm
    | shift => cases hcontext
    | recover => cases hcontext

section Sentences

variable {env : Environment V P} {tokens : List (Token V)} {params : P}
  (wf : g.WellFormed) (hf : a.Faithful g)
  (hnames : ∀ token ∈ tokens, token.name ≠ Symbol.endName) (plain : Plain actions)

include wf hf hnames plain

theorem ShiftReduce.generates_of_clean {fuel : Nat} {r : Result V P} :
    let parser : ShiftReduce.Parser V P := ⟨.ofTable (Table.generate g a), actions⟩
    let c := ShiftReduce.start (tokens.map .ok) params
    parser.run env fuel c = some r →
    (∀ step ∈ parser.history env fuel c, parser.meetsError step.1 = false) →
    g.Generates (tokens.map (·.name)) := by
  intro parser c hrun hclean
  have ht : parser.tables.Realizes g a := ShiftReduce.realizes_generate
  obtain ⟨v, hok⟩ : ∃ v, r.outcome = .ok v := by
    obtain ⟨hist, d, outcome, d', hsteps, hstop, hhistory, rfl⟩ :=
      ShiftReduce.exists_steps_of_run hrun
    rw [hhistory] at hclean
    obtain ⟨trees, γ, w, rest, hparsed, -⟩ := ShiftReduce.Parsed.steps hf ht wf plain hsteps
      (fun m hm => hclean m (List.mem_append_left _ hm))
      (ShiftReduce.parsed_start parser tokens params)
    have herror := hclean (d, .stop outcome d') (List.mem_append_right _ List.mem_cons_self)
    rcases hparsed.step hf ht wf env plain herror with ⟨e, c', hnext, -⟩ | ⟨⟨c', hstop'⟩, -⟩
    · rw [hstop] at hnext
      cases hnext
    · rw [hstop] at hstop'
      cases hstop'
      exact ⟨_, rfl⟩
  obtain ⟨d, tree, w, hparsed, rfl, -⟩ := ShiftReduce.exists_parsed wf hf ht
    (fun _ => (Table.terminal?_eq_endOfInput wf).mp) plain hnames hrun hok hclean
  refine ⟨w.map (·.1), ?_, ?_⟩
  · rw [List.map_map, List.map_map]
    exact List.map_congr_left fun e he => Table.eq_terminalName wf (hparsed.names e he)
  · rw [List.map_map]
    exact hparsed.yields.derives

variable (hd : (ShiftReduce.Tables.ofTable (Table.generate g a)).Decides g a)
  (hzero : actions.getD 0 none = none)

include hd hzero

theorem Predictive.Parsed.accepted (env' : Environment V P) {e : Predictive.Config V P}
    {events : List (Predictive.Event V P)} {γ : List Symbol}
    {trees : List (Tree (Option (Token V)))} {w : List (Nat × Option (Token V))}
    {rest : List (Token V)}
    (h : Predictive.Parsed g actions env tokens params e events γ trees w rest)
    (hgoals : e.goals = []) :
    let parser : ShiftReduce.Parser V P := ⟨.ofTable (Table.generate g a), actions⟩
    let c := ShiftReduce.start (tokens.map .ok) params
    (∃ ps, Accepts parser env' c ps) ∧ ∀ fuel r, parser.run env' fuel c = some r →
      AnswersAlike actions env env' (parser.history env' fuel c) →
      r.outcome = .ok (e.entries.head?.bind (·.value)) ∧
      ∃ last : Context V P, last.production = 0 ∧ Predictive.contexts events =
        reductionContexts (parser.history env' fuel c) ++ [last] := by
  intro parser c
  have ht : parser.tables.Realizes g a := ShiftReduce.realizes_generate
  obtain ⟨tree, u, ps, hyields, rfl, rfl, hend, hread, htokens⟩ := h.tree wf hnames hgoals
  obtain ⟨hsome, hname⟩ := Predictive.exists_tokens wf hread hend
  rw [htokens] at hsome hname
  have hproper := hyields.proper wf (by simpa using wf.start_proper)
  have hcomes : ShiftReduce.Comes parser.tables tokens (u.map (·.1) ++ [Symbol.endOfInput]) := by
    refine ShiftReduce.comes_of_names wf (fun t hmem => ?_) ?_
    · rcases List.mem_append.mp hmem with hmem | hmem
      · obtain ⟨x, hx, rfl⟩ := List.mem_map.mp hmem
        exact (hproper x hx).2
      · rw [List.mem_singleton.mp hmem]
        exact wf.terminals_pos
    · rw [List.map_append, hname, List.map_singleton, wf.terminalName_end]
  have hlength : tokens.length = u.length := by simpa using (congrArg List.length hsome).symm
  obtain ⟨hist, d, d', hruns, hclean, hreported, hstop⟩ :=
    ShiftReduce.tree_runs env' wf hf ht hd plain hyields hlength hcomes params
  refine ⟨⟨ps, hruns.accepts hyields hclean hreported hstop⟩, fun fuel r hrun halike => ?_⟩
  obtain ⟨rfl, hhistory⟩ := hruns.steps.run_eq hstop hrun
  have hcontexts : reductionContexts (parser.history env' fuel c) = reductionContexts hist := by
    rw [hhistory]
    simp [reductionContexts, ShiftReduce.Move.event?]
  have hanswers := halike.mem_contexts
  rw [hcontexts] at hanswers ⊢
  -- both engines have performed the acts of the tree, one of them some more
  have hperforms := h.performs
  rw [Tree.actsOf_accepted] at hperforms
  obtain ⟨s, before, after, hsplit, hbefore, hafter⟩ := hperforms.split
  obtain ⟨rfl, rfl⟩ := hbefore.agree hruns.performs hanswers
  obtain ⟨⟨last, hlast, rfl⟩, hvalue⟩ := hafter.accept wf hzero
  exact ⟨congrArg Except.ok hvalue.symm, last, hlast, hsplit⟩

end Sentences

theorem ShiftReduce.first_report (wf : g.WellFormed) (hf : a.Faithful g)
    (hd : (ShiftReduce.Tables.ofTable (Table.generate g a)).Decides g a)
    {env : Environment V P} {params : P} {read rest : List (Token V)}
    (hnames : ∀ token ∈ read ++ rest, token.name ≠ Symbol.endName)
    (hopens : g.Opens [.nonterminal Symbol.accept] (read.map (·.name)))
    (hnot : ¬ g.Opens [.nonterminal Symbol.accept] (read.map (·.name) ++ [nextName rest]))
    {hist : List (ShiftReduce.Config V P × ShiftReduce.Move V P)} {d : ShiftReduce.Config V P} :
    let parser : ShiftReduce.Parser V P := ⟨.ofTable (Table.generate g a), actions⟩
    ShiftReduce.Steps parser env (ShiftReduce.start ((read ++ rest).map .ok) params) hist d →
    (∀ m ∈ hist, parser.meetsError m.1 = false) → parser.meetsError d = true →
    ∃ error, (parser.step env d).config.reported = [error] ∧ error.token = nextName rest := by
  intro parser hsteps hclean herror
  obtain ⟨read', rest', heq, hrest', hopens'⟩ := ShiftReduce.exists_read wf hf
    ShiftReduce.realizes_generate (Table.eq_terminalName wf) hsteps hclean
  rw [heq] at hsteps hnames
  have hnot' := ShiftReduce.not_opens wf hf hd
    (fun token htoken => hnames token (List.mem_append_left _ htoken)) hsteps herror hrest'
  obtain rfl := hopens.rest_eq hnot hopens' hnot' heq
  obtain ⟨hreported, hrecovering⟩ := hsteps.quiet hclean
  obtain ⟨error, herror', htoken⟩ :=
    ShiftReduce.reported_of_meetsError env (hrecovering rfl) hrest' herror
  exact ⟨error, by rw [herror', hreported]; rfl, htoken⟩

/-- Where neither table has conflicts, the engines accept the same inputs. They then return the
same value and run the actions in the same contexts, production zero apart, as far as the actions
answer alike whichever engine runs their nested parses. On any other input the first error that
either of them reports names the same token; from the top there always is one, and from the
leaves unless reductions go on for ever. -/
theorem engines_agree (hg : g.Defined) {m : Method} (ha : m.automaton g = .ok a)
    (hpredictions : (PredictionTable.generate g).conflicts = [])
    (hconflicts : (Table.generate g a).conflicts = []) {actions : Actions V P}
    (plain : Plain actions) (hzero : actions.getD 0 none = none) (env env' : Environment V P)
    (tokens : List (Token V)) (hnames : ∀ token ∈ tokens, token.name ≠ Symbol.endName)
    (params : P) :
    let predictive : Predictive.Parser V P := ⟨.generate g, actions⟩
    let parser : ShiftReduce.Parser V P := ⟨.ofTable (Table.generate g a), actions⟩
    let c := Predictive.start (tokens.map .ok) params
    let d := ShiftReduce.start (tokens.map .ok) params
    ∃ n, ∀ fuel, n ≤ fuel → ∃ r, predictive.run env fuel c = some r ∧
      ((∃ v, r.outcome = .ok v) ↔ ∃ ps, Accepts parser env' d ps) ∧
      (∀ v, r.outcome = .ok v → ∀ fuel' r', parser.run env' fuel' d = some r' →
        AnswersAlike actions env env' (parser.history env' fuel' d) →
        r'.outcome = .ok v ∧ ∃ last : Context V P, last.production = 0 ∧
          Predictive.contexts (predictive.events env fuel c) =
            reductionContexts (parser.history env' fuel' d) ++ [last]) ∧
      ((∀ v, r.outcome ≠ .ok v) → ∃ error, r.reported = [error] ∧ ∀ fuel',
        (∀ before first after, parser.history env' fuel' d = before ++ first :: after →
          (∀ step ∈ before, parser.meetsError step.1 = false) →
          parser.meetsError first.1 = true →
          ∃ error', first.2.config.reported = [error'] ∧ error'.token = error.token) ∧
        (parser.run env' fuel' d ≠ none →
          ∃ step ∈ parser.history env' fuel' d, parser.meetsError step.1 = true)) := by
  intro predictive parser c d
  have wf := hg.wellFormed
  obtain ⟨hf, hc⟩ := Method.automaton_spec wf ha
  have hd : parser.tables.Decides g a := ShiftReduce.decides_generate wf hf hc hconflicts
  obtain ⟨events, e, outcome, e', hsteps, hstop⟩ := Predictive.exists_stop predictive env
    (Predictive.guarded_start _ (tokens.map .ok) params)
  obtain ⟨γ, trees, w, rest, hparsed⟩ :=
    Predictive.Parsed.steps wf hnames hsteps Predictive.parsed_start
  refine ⟨events.length + 1, fun fuel hfuel => ?_⟩
  obtain ⟨hrun, hevents⟩ := hsteps.run hstop hfuel
  rw [hevents]
  refine ⟨_, hrun, ?_⟩
  rcases hparsed.ending plain wf hpredictions hstop with
    ⟨hgoals, rfl⟩ | ⟨error, hnot, hopens, htoken, hreported, rfl⟩
  · obtain ⟨haccepts, hruns⟩ := hparsed.accepted wf hf hnames plain hd hzero env' hgoals
    refine ⟨⟨fun _ => haccepts, fun _ => ⟨_, rfl⟩⟩, fun v hv => ?_, fun hne => absurd rfl (hne _)⟩
    cases hv
    exact hruns
  · have hnone : ¬ g.Generates (tokens.map (·.name)) := by
      intro hgenerates
      rw [← hparsed.read] at hgenerates
      exact hnot ((wf.opens_of_generates hgenerates).mono (prefix_nextName _ _))
    refine ⟨⟨?_, ?_⟩, fun v hv => (by cases hv), fun _ => ⟨error, ?_, fun fuel' => ⟨?_, ?_⟩⟩⟩
    · rintro ⟨v, hv⟩
      cases hv
    · rintro ⟨ps, n, haccepts⟩
      obtain ⟨r, v, hr, -, -, hclean, -⟩ := haccepts n (Nat.le_refl n)
      exact absurd (ShiftReduce.generates_of_clean wf hf hnames plain hr hclean) hnone
    · rw [hreported, hsteps.reported]
      rfl
    · -- both engines go on as far as some form can be derived
      intro before first after hhistory hclean herror
      have hfirst : first ∈ parser.history env' fuel' d := by simp [hhistory]
      rw [ShiftReduce.history_step hfirst, htoken]
      have hsteps' := ShiftReduce.steps_of_history hhistory
      rw [← hparsed.read] at hnames
      exact ShiftReduce.first_report wf hf hd hnames hopens hnot
        (by rw [hparsed.read]; exact hsteps') hclean herror
    · intro hfinished
      obtain ⟨r, hr⟩ := Option.ne_none_iff_exists'.mp hfinished
      by_contra hclean
      simp only [not_exists, not_and, Bool.not_eq_true] at hclean
      exact hnone (ShiftReduce.generates_of_clean wf hf hnames plain hr hclean)

theorem engines_agree_parentheses :
    let predictive : Predictive.Parser Nat Unit := ⟨.generate .parentheses, #[]⟩
    let parser : ShiftReduce.Parser Nat Unit :=
      ⟨.ofTable (.generate .parentheses .parentheses), #[]⟩
    let source : Source Nat := (tokensOf ["(", "(", ")", ")"]).map .ok
    (PredictionTable.generate .parentheses).conflicts = [] ∧
    (Table.generate .parentheses .parentheses).conflicts = [] ∧
    parser.run silent 8 (ShiftReduce.start source ()) = some ⟨.ok (some 0), (), []⟩ ∧
    ∃ n, ∀ fuel, n ≤ fuel → ∃ r, predictive.run silent fuel (Predictive.start source ()) = some r ∧
      r.outcome = .ok (some 0) ∧ ∃ last : Context Nat Unit, last.production = 0 ∧
        Predictive.contexts (predictive.events silent fuel (Predictive.start source ())) =
          reductionContexts (parser.history silent 8 (ShiftReduce.start source ())) ++ [last] := by
  intro predictive parser source
  have hpredictions : (PredictionTable.generate .parentheses).conflicts = [] := by
    cbv
  have hconflicts : (Table.generate .parentheses .parentheses).conflicts = [] := by
    cbv
  have hrun : parser.run silent 8 (ShiftReduce.start source ()) =
      some ⟨.ok (some 0), (), []⟩ := by
    cbv
  have hclean : ((parser.history silent 8 (ShiftReduce.start source ())).all
      fun step => !parser.meetsError step.1) = true := by
    cbv
  simp only [List.all_eq_true, Bool.not_eq_true'] at hclean
  obtain ⟨n, hn⟩ := engines_agree Grammar.parentheses_defined Method.merged_parentheses
    hpredictions hconflicts ShiftReduce.plain_empty rfl silent silent
    (tokensOf ["(", "(", ")", ")"]) (by decide) ()
  refine ⟨hpredictions, hconflicts, hrun, n, fun fuel hfuel => ?_⟩
  obtain ⟨r, hr, -, hsame, herror⟩ := hn fuel hfuel
  refine ⟨r, hr, ?_⟩
  by_cases hok : ∃ v, r.outcome = .ok v
  · obtain ⟨v, hv⟩ := hok
    obtain ⟨hvalue, last, hlast, hcontexts⟩ := hsame v hv 8 _ hrun fun _ _ _ _ => rfl
    exact ⟨hv.trans hvalue.symm, last, hlast, hcontexts⟩
  · obtain ⟨error, -, hmet⟩ := herror (not_exists.mp hok)
    obtain ⟨step, hstep, hmeets⟩ := (hmet 8).2 (by rw [hrun]; simp)
    rw [hclean step hstep] at hmeets
    cases hmeets

def asking : Actions Nat Unit :=
  #[none, some fun nested c => (.value (nested [] ()).1.isOk.toNat, c)]

theorem lenient_endless (env : Environment Nat Unit) (fuel : Nat)
    {c : ShiftReduce.Config Nat Unit} {s : Nat} {states : List Nat} (hs : s = 4 ∨ s = 6)
    (hstates : c.states = s :: states) :
    let parser : ShiftReduce.Parser Nat Unit := ⟨.ofTable .lenient, asking⟩
    parser.run env fuel c = none ∧
      ∀ step ∈ parser.history env fuel c, parser.meetsError step.1 = false := by
  intro parser
  induction fuel generalizing c s states with
  | zero => exact ⟨rfl, by simp [ShiftReduce.Parser.history]⟩
  | succ fuel ih =>
    have hdefault : parser.tables.defaultReduction s = some 5 := by
      rcases hs with rfl | rfl <;> rfl
    have hgoto : parser.tables.goto s 3 = some 6 := by
      rcases hs with rfl | rfl <;> rfl
    obtain ⟨e, c', hstep, hstates'⟩ : ∃ e c', parser.step env c = .next e c' ∧
        c'.states = 6 :: s :: states := by
      rw [ShiftReduce.step_default hstates hdefault]
      have hshape : parser.tables.production 5 = ⟨3, 0, []⟩ := rfl
      simp only [ShiftReduce.Parser.reduce, hshape, List.drop_zero, hstates, hgoto]
      exact ⟨_, _, rfl, rfl⟩
    obtain ⟨hrun, hclean⟩ := ih (Or.inr rfl) hstates'
    refine ⟨?_, ?_⟩
    · simp only [ShiftReduce.Parser.run, hstep, hrun]
    · simp only [ShiftReduce.Parser.history, hstep, List.forall_mem_cons]
      exact ⟨ShiftReduce.meetsError_default hstates hdefault, hclean⟩

theorem lenient_unfinished (env : Environment Nat Unit) (fuel : Nat) :
    let parser : ShiftReduce.Parser Nat Unit := ⟨.ofTable .lenient, asking⟩
    let c := ShiftReduce.start ((tokensOf ["z"]).map .ok) ()
    parser.run env fuel c = none ∧
      ∀ step ∈ parser.history env fuel c, parser.meetsError step.1 = false := by
  intro parser c
  have hlook : parser.look c = .ok (parser.tables.ofToken ⟨"z", "z", 0, .zero⟩, []) := rfl
  have haction : parser.tables.actionOn 0 (parser.tables.ofToken ⟨"z", "z", 0, .zero⟩) =
      .shift 4 := by
    decide +kernel
  have hstep : parser.step env c = _ := ShiftReduce.step_shift rfl rfl hlook haction
  cases fuel with
  | zero => exact ⟨rfl, by simp [ShiftReduce.Parser.history]⟩
  | succ fuel =>
    obtain ⟨hrun, hclean⟩ :=
      lenient_endless env fuel (c := ShiftReduce.shifted c _ [] 4) (Or.inl rfl) rfl
    refine ⟨?_, ?_⟩
    · simp only [ShiftReduce.Parser.run, hstep]
      exact hrun
    · simp only [ShiftReduce.Parser.history, hstep, List.forall_mem_cons]
      exact ⟨ShiftReduce.meetsError_eq_false rfl hlook (by rw [haction]; simp), hclean⟩

/-- An action can tell the engines apart by a nested parse, since only one of them recovers from
errors. And a grammar with forms that never end keeps one of them reducing for ever where the
other reports an error. -/
theorem engines_disagree :
    let predictive : Predictive.Parser Nat Unit := ⟨.generate .lenient, asking⟩
    let parser : ShiftReduce.Parser Nat Unit := ⟨.ofTable (.generate .lenient .lenient), asking⟩
    let source : Source Nat := (tokensOf ["y"]).map .ok
    let endless : Source Nat := (tokensOf ["z"]).map .ok
    Grammar.lenient.Defined ∧ Method.lr0.automaton .lenient = .ok .lenient ∧
    (PredictionTable.generate .lenient).conflicts = [] ∧
    (Table.generate .lenient .lenient).conflicts = [] ∧
    Plain asking ∧ asking.getD 0 none = none ∧
    (∀ step ∈ parser.history ⟨parser.nested 20 2, fun _ _ => none⟩ 20
      (ShiftReduce.start source ()), parser.meetsError step.1 = false) ∧
    (parser.parse 20 2 (fun _ _ => none) source ()).outcome = .ok (some 1) ∧
    (predictive.parse 20 2 (fun _ _ => none) source ()).outcome = .ok (some 0) ∧
    (∀ env fuel, parser.run env fuel (ShiftReduce.start endless ()) = none ∧
      ∀ step ∈ parser.history env fuel (ShiftReduce.start endless ()),
        parser.meetsError step.1 = false) ∧
    (predictive.parse 20 2 (fun _ _ => none) endless ()).reported.map (·.token) = ["$end"] := by
  intro predictive parser source endless
  refine ⟨Grammar.lenient_defined, Method.lr0_lenient, ?_, ?_, ?_, rfl, ?_, ?_, ?_, ?_, ?_⟩
  · rw [PredictionTable.generate_lenient]
    rfl
  · rw [Table.generate_lenient]
    rfl
  · intro action haction nested c
    simp only [asking, List.mem_toArray, List.mem_cons, Option.some.injEq, reduceCtorEq,
      List.not_mem_nil, or_false, false_or] at haction
    rw [haction]
    rfl
  · have hclean : (parser.history ⟨parser.nested 20 2, fun _ _ => none⟩ 20
        (ShiftReduce.start source ())).all (fun m => !parser.meetsError m.1) = true := by
      simp only [source, parser, Table.generate_lenient]
      decide +kernel
    simpa only [List.all_eq_true, Bool.not_eq_true'] using hclean
  · simp only [source, parser, Table.generate_lenient]
    decide +kernel
  · simp only [source, predictive, PredictionTable.generate_lenient]
    decide +kernel
  · intro env fuel
    simp only [endless, parser, Table.generate_lenient]
    exact lenient_unfinished env fuel
  · simp only [endless, predictive, PredictionTable.generate_lenient]
    decide +kernel

end TableParsing
