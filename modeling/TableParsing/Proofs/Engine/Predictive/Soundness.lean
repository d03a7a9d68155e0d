import TableParsing.Proofs.Engine.Predictive.LeftRecursion

/-! What the predictive engine accepts, the grammar derives, whether or not the table has
conflicts. The trees on the stack have the consumed tokens as their leaves and were built by the
acts performed so far, and the consumed tokens with the goals after them make a form derived from
what is to be accepted. Without conflicts every form that begins with the consumed tokens and the
next one is derived from the goals, so that a token is refused only where no form goes on with
it. -/

namespace TableParsing.Predictive

open ShiftReduce (Plain)

variable {V P : Type}

abbrev engine (g : Grammar) (actions : Actions V P) : Parser V P := ⟨.generate g, actions⟩

def ReadAs (g : Grammar) (rest : List (Token V)) (e : Nat × Option (Token V)) : Prop :=
  match e.2 with
  | some token => (PredictionTable.generate g).terminal? token.name = some e.1
  | none => e.1 = Symbol.endOfInput ∧ rest = []

theorem ReadAs.later {g : Grammar} {read : Option (Token V)} {rest : List (Token V)}
    {e : Nat × Option (Token V)} (h : ReadAs g (read.toList ++ rest) e) : ReadAs g rest e := by
  obtain ⟨t, _ | token⟩ := e
  · exact ⟨h.1, (List.append_eq_nil_iff.mp h.2).2⟩
  · exact h

structure Parsed (g : Grammar) (actions : Actions V P) (env : Environment V P)
    (tokens : List (Token V)) (params : P) (c : Config V P) (events : List (Event V P))
    (γ : List Symbol) (trees : List (Tree (Option (Token V))))
    (w : List (Nat × Option (Token V))) (rest : List (Token V)) : Prop where
  frames : Open g γ c.goals
  yields : ∃ ps, g.Yields trees γ.reverse w ps
  names : ∀ e ∈ w, ReadAs g rest e
  read : w.filterMap (·.2) ++ rest = tokens
  pending : Pending (.generate g) c rest
  descent : Descent g c rest
  heights : c.entries.length = γ.length + 1
  form : g.Derives [.nonterminal Symbol.accept]
    ((w.map (·.1)).map .terminal ++ goalSymbols c.goals)
  forced : (PredictionTable.generate g).conflicts = [] → ∀ {t v},
    nextTerminal (.generate g) rest = some t →
    g.BeginsWith [.nonterminal Symbol.accept] (w.map (·.1) ++ t :: v) →
    g.BeginsWith (goalSymbols c.goals) (t :: v)
  performs : Performs g actions env.nested ⟨tokens, [⟨none, .zero⟩], params⟩ (Tree.actsOf trees)
    (contexts events) ⟨rest, c.entries, c.params⟩

variable {g : Grammar} {actions : Actions V P} {env : Environment V P} {tokens : List (Token V)}
  {params : P}

theorem parsed_start : Parsed g actions env tokens params (start (tokens.map .ok) params) [] [] []
    [] tokens :=
  ⟨.start, ⟨[], .nil⟩, by simp, rfl, pending_start _ _ _, descent_start _ _, rfl, .refl,
    fun _ _ _ _ h => h, .done _⟩

section Step

variable {c c' : Config V P} {events : List (Event V P)} {e : Event V P} {γ : List Symbol}
  {trees : List (Tree (Option (Token V)))} {w : List (Nat × Option (Token V))}
  {rest rest' : List (Token V)}
  (h : Parsed g actions env tokens params c events γ trees w rest)

include h

theorem Parsed.leaf {t : Nat} (read : Option (Token V))
    (hgoals : c.goals = .symbol (.terminal t) :: c'.goals)
    (hnext : nextTerminal (.generate g) rest = some t) (hrest : rest = read.toList ++ rest')
    (hread : ReadAs g rest' (t, read)) (hpending : Pending (.generate g) c' rest')
    (hdescent : Descent g c' rest')
    (hheights : c'.entries.length = c.entries.length + 1)
    (hperforms : Performs g actions env.nested ⟨rest, c.entries, c.params⟩
      (Tree.leaf t read).acts (contexts [e]) ⟨rest', c'.entries, c'.params⟩) :
    Parsed g actions env tokens params c' (events ++ [e]) (.terminal t :: γ)
      (trees ++ [.leaf t read]) (w ++ [(t, read)]) rest' := by
  obtain ⟨ps, hyields⟩ := h.yields
  have hframes := h.frames
  have hform := h.form
  rw [hgoals] at hframes hform
  refine ⟨hframes.consume, ⟨ps ++ [], ?_⟩, ?_, ?_, hpending, hdescent, ?_, ?_, ?_, ?_⟩
  · rw [List.reverse_cons]
    exact hyields.append (.leaf t _ .nil)
  · intro e he
    rcases List.mem_append.mp he with he | he
    · exact ReadAs.later (hrest ▸ h.names e he)
    · rwa [List.mem_singleton.mp he]
  · rw [List.filterMap_append, List.append_assoc, ← h.read, hrest]
    cases read <;> rfl
  · rw [hheights, h.heights, List.length_cons]
  · rw [List.map_append, List.map_append, List.append_assoc]
    exact hform
  · intro hconflicts u v _ hbegins
    rw [List.map_append, List.append_assoc] at hbegins
    have hsymbols := h.forced hconflicts hnext hbegins
    rw [hgoals] at hsymbols
    exact hsymbols.of_terminal.2 (List.cons_ne_nil u v)
  · rw [Tree.actsOf_append, contexts, List.filterMap_append]
    simp only [Tree.actsOf, List.append_nil]
    exact h.performs.trans hperforms

theorem Parsed.expand (wf : g.WellFormed) {n t p : Nat} {goals : List Goal}
    (hgoals : c.goals = .symbol (.nonterminal n) :: goals)
    (hnext : nextTerminal (.generate g) rest = some t)
    (hp : (PredictionTable.generate g).predict n t = some p)
    (hgoals' : c'.goals = (g.production p).right.toList.map .symbol ++ .reduce p :: goals)
    (hpending : Pending (.generate g) c' rest) (hdescent : Descent g c' rest)
    (hentries : c'.entries = c.entries) (hparams : c'.params = c.params) :
    Parsed g actions env tokens params c' (events ++ [.expand p]) γ trees w rest := by
  have hframes := h.frames
  have hform := h.form
  rw [hgoals] at hframes hform
  obtain ⟨hlt, hleft, -⟩ :=
    PredictionTable.mem_candidates.mp (PredictionTable.candidate_of_predict wf hp)
  refine ⟨?_, h.yields, h.names, h.read, hpending, hdescent, by rw [hentries, h.heights], ?_, ?_,
    ?_⟩
  · rw [hgoals']
    exact hframes.expand hlt hleft
  · have hrule := Grammar.Rewrites.rule ((w.map (·.1)).map .terminal) (goalSymbols goals) hlt
    rw [hleft, List.append_assoc] at hrule
    rw [hgoals', goalSymbols_expanded]
    exact hform.tail hrule
  · intro hconflicts u v hu hbegins
    have hsymbols := h.forced hconflicts hu hbegins
    rw [hgoals] at hsymbols
    obtain rfl := Option.some.inj (hu.symm.trans hnext)
    obtain ⟨q, hq, hright⟩ := hframes.awaits.predicted wf hconflicts hsymbols
    obtain rfl := Option.some.inj (hp.symm.trans hq)
    rwa [hgoals', goalSymbols_expanded]
  · have hcontexts : contexts (events ++ [.expand p]) = contexts events := by
      simp [contexts, Event.context?]
    rw [hcontexts, hentries, hparams]
    exact h.performs

theorem Parsed.reduce {p : Nat} {goals : List Goal} {v : Option V} {after : Context V P}
    (hgoals : c.goals = .reduce p :: goals)
    (hrun : actions.run env.nested (Store.context g ⟨rest, c.entries, c.params⟩ p) =
      (.value v, after)) (hgoals' : c'.goals = goals) (hpending : Pending (.generate g) c' rest)
    (hdescent : Descent g c' rest)
    (hentries : c'.entries = ⟨v, after.location⟩ :: c.entries.drop (g.production p).right.size)
    (hparams : c'.params = after.params) :
    ∃ γ' trees', Parsed g actions env tokens params c'
      (events ++ [.reduce (Store.context g ⟨rest, c.entries, c.params⟩ p)]) γ' trees' w rest := by
  obtain ⟨ps, hyields⟩ := h.yields
  have hframes := h.frames
  rw [hgoals] at hframes
  obtain ⟨hlt, δ, rfl, hopen⟩ := hframes.reduce
  have hright : g.Yields trees (δ.reverse ++ (g.production p).right.toList ++ []) w ps := by
    simpa using hyields
  obtain ⟨before, children, later, qs, rs, htrees, -, -, hnode, u, hlater⟩ := hright.fold hlt
  cases hlater
  rw [List.append_nil] at htrees
  refine ⟨.nonterminal (g.production p).left :: δ, before ++ [.node p children], ?_,
    ⟨qs ++ [p], ?_⟩, h.names, h.read, hpending, hdescent, ?_, ?_, ?_, ?_⟩
  · rwa [hgoals']
  · rwa [List.reverse_cons]
  · have hheights := h.heights
    simp only [List.length_append, List.length_reverse, Array.length_toList] at hheights
    rw [hentries, List.length_cons, List.length_drop, List.length_cons]
    omega
  · have hform := h.form
    rw [hgoals] at hform
    rwa [hgoals']
  · intro hconflicts u v hu hbegins
    have hsymbols := h.forced hconflicts hu hbegins
    rw [hgoals] at hsymbols
    rwa [hgoals']
  · have hacts : Tree.actsOf (before ++ [.node p children]) =
        Tree.actsOf trees ++ [.reduce p] := by
      rw [htrees, Tree.actsOf_append, Tree.actsOf_append, List.append_assoc]
      simp only [Tree.actsOf, Tree.acts, List.append_nil]
    rw [hacts, contexts, List.filterMap_append, hentries, hparams]
    exact h.performs.trans (.reduce hrun (.done _))

theorem Parsed.effect (wf : g.WellFormed)
    (hnames : ∀ token ∈ tokens, token.name ≠ Symbol.endName)
    (heffect : Effect (engine g actions) env c e c') : ∃ γ' trees' w' rest',
      Parsed g actions env tokens params c' (events ++ [e]) γ' trees' w' rest' := by
  obtain ⟨rest', hpending', hrest⟩ := heffect.pending h.pending
  have hlook : (engine g actions).look c = _ := h.pending.look
  have hdescent' := h.descent.effect wf h.pending h.frames heffect hrest
  cases heffect with
  | @consume t goals la input token hgoals hlook' hterminal htoken =>
    rw [hlook] at hlook'
    cases hlook'
    obtain ⟨later, rfl⟩ := List.head?_eq_some_iff.mp htoken
    obtain rfl := (List.cons.inj hrest).2
    have hend : t ≠ Symbol.endOfInput := by
      rintro rfl
      have hmem : token ∈ tokens := by simp [← h.read]
      exact hnames token hmem ((PredictionTable.terminal?_eq_endOfInput wf).mp hterminal)
    refine ⟨_, _, _, later, h.leaf (some token) hgoals hterminal rfl hterminal hpending'
      hdescent' rfl ?_⟩
    simp only [Tree.acts, if_neg hend]
    exact .shift rfl (.done _)
  | @ending t goals la input hgoals hlook' hterminal htoken =>
    rw [hlook] at hlook'
    cases hlook'
    obtain rfl := List.head?_eq_none_iff.mp htoken
    obtain rfl : rest' = [] := hrest.symm
    obtain rfl : t = Symbol.endOfInput := (Option.some.inj hterminal).symm
    refine ⟨_, _, _, [], h.leaf none hgoals hterminal rfl ⟨rfl, rfl⟩ hpending'
      hdescent' rfl ?_⟩
    simp only [Tree.acts, if_true]
    exact .finish rfl (.done _)
  | @expand n t p goals la input hgoals hlook' hterminal hp hnew =>
    rw [hlook] at hlook'
    cases hlook'
    obtain rfl : rest = rest' := hrest
    exact ⟨γ, trees, w, rest, h.expand wf hgoals hterminal hp rfl hpending' hdescent' rfl rfl⟩
  | @reduce p goals la input v after context hgoals hlook' hle hcontext hrun =>
    obtain rfl : rest = rest' := hrest
    subst hcontext
    obtain ⟨γ', trees', hparsed⟩ := h.reduce hgoals hrun rfl hpending' hdescent' rfl rfl
    exact ⟨γ', trees', w, rest, hparsed⟩

end Step

theorem Parsed.steps (wf : g.WellFormed) (hnames : ∀ token ∈ tokens, token.name ≠ Symbol.endName)
    {c d : Config V P} {events events' : List (Event V P)} {γ : List Symbol}
    {trees : List (Tree (Option (Token V)))} {w : List (Nat × Option (Token V))}
    {rest : List (Token V)} (hsteps : Steps (engine g actions) env c events' d)
    (h : Parsed g actions env tokens params c events γ trees w rest) : ∃ γ' trees' w' rest',
      Parsed g actions env tokens params d (events ++ events') γ' trees' w' rest' := by
  induction hsteps generalizing events γ trees w rest with
  | refl =>
    rw [List.append_nil]
    exact ⟨γ, trees, w, rest, h⟩
  | head hstep _ ih =>
    obtain ⟨γ₁, trees₁, w₁, rest₁, h₁⟩ := h.effect wf hnames (step_effect hstep)
    have hrest := ih h₁
    rwa [List.append_assoc] at hrest

theorem exists_tokens (wf : g.WellFormed) {w : List (Nat × Option (Token V))}
    {rest : List (Token V)} (hread : ∀ e ∈ w, ReadAs g rest e)
    (hend : ∀ e ∈ w, e.1 ≠ Symbol.endOfInput) :
    w.map (·.2) = (w.filterMap (·.2)).map some ∧
      (w.map (·.1)).map g.terminalName = (w.filterMap (·.2)).map (·.name) := by
  induction w with
  | nil => exact ⟨rfl, rfl⟩
  | cons e w ih =>
    rw [List.forall_mem_cons] at hread hend
    obtain ⟨hsome, hname⟩ := ih hread.2 hend.2
    obtain ⟨t, _ | token⟩ := e
    · exact absurd hread.1.1 hend.1
    · have htoken : token.name = g.terminalName t :=
        PredictionTable.eq_terminalName wf hread.1
      simp [hsome, hname, htoken]

section Ends

variable {c : Config V P} {events : List (Event V P)} {γ : List Symbol}
  {trees : List (Tree (Option (Token V)))} {w : List (Nat × Option (Token V))}
  {rest : List (Token V)} (wf : g.WellFormed)
  (h : Parsed g actions env tokens params c events γ trees w rest)

include wf h

/-- With no goal left, what was read is a tree of the start symbol and the end of input. -/
theorem Parsed.tree (hnames : ∀ token ∈ tokens, token.name ≠ Symbol.endName)
    (hgoals : c.goals = []) : ∃ tree u ps, g.Yields [tree] [.nonterminal g.start] u ps ∧
      trees = [.node 0 [tree, .leaf Symbol.endOfInput none]] ∧ rest = [] ∧
      (∀ e ∈ u, e.1 ≠ Symbol.endOfInput) ∧ (∀ e ∈ u, ReadAs g [] e) ∧
      u.filterMap (·.2) = tokens := by
  obtain ⟨ps, hyields⟩ := h.yields
  have hframes := h.frames
  rw [hgoals] at hframes
  obtain rfl := hframes.eq_accept
  rw [List.reverse_singleton] at hyields
  generalize hn : Symbol.accept = n at hyields
  cases hyields with
  | @node children later _ u u' p qs qs' hp hchildren hlater =>
    cases hlater
    obtain rfl := wf.eq_zero_of_left hp hn.symm
    rw [wf.right_zero] at hchildren
    obtain ⟨before, after, u, v, qs, rs, rfl, rfl, rfl, hlength, hstart, hend⟩ :=
      Grammar.Yields.split (γ := [.nonterminal g.start]) hchildren
    obtain ⟨tree, rfl⟩ := List.length_eq_one_iff.mp hlength
    cases hend with
    | leaf _ read hnil =>
      cases hnil
      have hproper := hstart.proper wf (by simpa using wf.start_proper)
      have hlast := h.names (Symbol.endOfInput, read) (by simp)
      have hread := h.read
      cases read with
      | some token =>
        -- only a token that bears the name of the end could be read there
        have hmem : token ∈ tokens := by simp [← hread]
        exact absurd ((PredictionTable.terminal?_eq_endOfInput wf).mp hlast)
          (hnames token hmem)
      | none =>
        obtain ⟨-, rfl⟩ := hlast
        refine ⟨tree, u, qs, hstart, rfl, rfl, fun e he => (hproper e he).1, ?_, ?_⟩
        · intro e he
          exact h.names e (by simp [he])
        · rw [← hread]
          simp

theorem Parsed.sentence (hnames : ∀ token ∈ tokens, token.name ≠ Symbol.endName)
    (hgoals : c.goals = []) : ∃ (word : List Nat) (tree : Tree (Token V)) (ps : List Nat),
      tokens.map (·.name) = word.map g.terminalName ∧
      g.Derives [.nonterminal g.start] (word.map .terminal) ∧
      g.Yields [tree] [.nonterminal g.start] (word.zip tokens) ps ∧
      reductions events = ps ++ [0] := by
  obtain ⟨tree, u, ps, hyields, rfl, rfl, hend, hread, htokens⟩ := h.tree wf hnames hgoals
  obtain ⟨hsome, hname⟩ := exists_tokens wf hread hend
  rw [htokens] at hsome hname
  have hlength : (u.map (·.1)).length = tokens.length := by
    simpa using congrArg List.length hsome
  have hword : ((u.map (·.1)).zip tokens).map (fun e => Symbol.terminal e.1) =
      u.map fun e => .terminal e.1 := by
    have hfst : ((u.map (·.1)).zip tokens).map (·.1) = u.map (·.1) :=
      List.map_fst_zip (by omega)
    have hmap := congrArg (List.map Symbol.terminal) hfst
    rwa [List.map_map, List.map_map] at hmap
  -- the same tree, with the tokens themselves as its leaves
  have hrightmost := hyields.rightmost [] []
  simp only [List.nil_append, List.map_nil, List.append_nil] at hrightmost
  rw [← hword] at hrightmost
  obtain ⟨forest, hforest⟩ := hrightmost.exists_yields
  obtain ⟨tree', rfl⟩ := List.length_eq_one_iff.mp hforest.length_eq
  rw [List.reverse_reverse] at hforest
  refine ⟨u.map (·.1), tree', ps, hname.symm, ?_, hforest, ?_⟩
  · rw [List.map_map]
    exact hyields.derives
  rw [reductions, h.performs.productions, Tree.actsOf_accepted, reductionsOf_append,
    hyields.reductionsOf_acts]
  rfl

theorem Parsed.names_eq {x : Symbol} {goals : List Goal} (hgoals : c.goals = .symbol x :: goals) :
    (w.map (·.1)).map g.terminalName = (w.filterMap (·.2)).map (·.name) := by
  have hform := h.form
  rw [hgoals] at hform
  have hend := wf.end_notMem_of_form hform
  refine (exists_tokens wf h.names fun e he heq => hend ?_).2
  rw [← heq]
  exact List.mem_map_of_mem he

theorem Parsed.opens {x : Symbol} {goals : List Goal} (hgoals : c.goals = .symbol x :: goals) :
    g.Opens [.nonterminal Symbol.accept] ((w.filterMap (·.2)).map (·.name)) :=
  ⟨w.map (·.1), goalSymbols c.goals, h.names_eq wf hgoals, h.form⟩

theorem Parsed.not_opens (hconflicts : (PredictionTable.generate g).conflicts = []) {x : Symbol}
    {goals : List Goal} (hgoals : c.goals = .symbol x :: goals)
    (hrefuses : Refuses (.generate g) x (lookaheadOf (.generate g) rest)) :
    ¬ g.Opens [.nonterminal Symbol.accept]
      ((w.filterMap (·.2)).map (·.name) ++ [nextName rest]) := by
  rintro ⟨word, β, hword, hderives⟩
  have hknown : ∀ {word : List Nat} {β : List Symbol},
      g.Derives [.nonterminal Symbol.accept] (word.map .terminal ++ β) →
      (word.map g.terminalName).map (PredictionTable.generate g).terminal? = word.map some := by
    intro word β hderives
    rw [List.map_map]
    refine List.map_congr_left fun t ht => ?_
    apply PredictionTable.terminal?_terminalName wf
    refine wf.derives_terminal_lt hderives (by simp) t (List.mem_append_left _ ?_)
    exact List.mem_map_of_mem ht
  have hnext : nextTerminal (.generate g) rest =
      (PredictionTable.generate g).terminal? (nextName rest) := by
    cases rest with
    | nil => exact ((PredictionTable.terminal?_eq_endOfInput wf).mpr rfl).symm
    | cons token rest => rfl
  have hterminals := congrArg (List.map (PredictionTable.generate g).terminal?) hword
  rw [hknown hderives, ← h.names_eq wf hgoals, List.map_append, hknown h.form,
    List.map_singleton, ← hnext] at hterminals
  obtain ⟨u, v, rfl, hu, hv⟩ := List.map_eq_append_iff.mp hterminals
  obtain rfl := List.map_injective_iff.mpr (Option.some_injective _) hu
  obtain ⟨t, rfl, ht⟩ := List.map_eq_singleton_iff.mp hv
  have hsymbols := h.forced hconflicts ht.symm (hderives.beginsWith (by simp))
  have hframes := h.frames
  rw [hgoals] at hsymbols hframes
  cases x with
  | terminal u => exact hrefuses (by rw [← hsymbols.of_terminal.1]; exact ht.symm)
  | nonterminal n =>
    obtain ⟨p, hp, -⟩ := hframes.awaits.predicted wf hconflicts hsymbols
    have hnone : (nextTerminal (.generate g) rest).bind
        ((PredictionTable.generate g).predict n) = none := hrefuses
    rw [← ht, Option.bind_some, hp] at hnone
    cases hnone

end Ends

end TableParsing.Predictive
