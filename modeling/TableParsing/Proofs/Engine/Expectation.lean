import TableParsing.Proofs.Engine.DefaultReduction
import TableParsing.Proofs.Engine.Reporting
import TableParsing.Proofs.Grammar.ExactSets

/-! What an error report over a canonical table expects. The look-ahead sets of such a table are
those of every prefix that leads to the state, so that a state has an action exactly for what
can come next after the stack. Default reductions before the error do not change that: a
terminal that could come next before them is reduced on by them. A reduction made with a look at
the next token would have found it in the look-ahead set, and the error would not be met. -/

namespace TableParsing

variable {g : Grammar}

/-- Some form of the start symbol begins with terminals of the names and then the terminal. -/
def Grammar.Continues (g : Grammar) (names : List String) (t : Nat) : Prop :=
  ∃ (word : List Nat) (β : List Symbol), word.map g.terminalName = names ∧
    g.Derives [.nonterminal g.start] ((word ++ [t]).map .terminal ++ β)

theorem Grammar.derives_expanded {α β β' γ ζ : List Symbol} {n p : Nat}
    (h : g.Derives γ (α ++ .nonterminal n :: (β ++ ζ))) (hβ : g.Derives β β')
    (hp : p ∈ g.productionsOf n) :
    g.Derives γ (α ++ (g.production p).right.toList ++ (β' ++ ζ)) := by
  obtain ⟨hlt, rfl⟩ := Grammar.mem_productionsOf.mp hp
  exact (derives_before hβ h).tail (.rule α (β' ++ ζ) hlt)

section Forms

variable (wf : g.WellFormed)

include wf

theorem Ahead.derives {γ : List Symbol} {i : Item} {t : Nat} (h : Ahead g γ i t) :
    ∃ ζ, g.Derives [.nonterminal Symbol.accept]
      (γ.reverse ++ (i.right g).drop i.index ++ .terminal t :: ζ) := by
  induction h with
  | @advance γ i x t _ hx _ ih =>
    obtain ⟨ζ, hζ⟩ := ih
    refine ⟨ζ, ?_⟩
    rw [Item.drop_eq hx] at hζ
    rw [List.reverse_cons, List.append_assoc γ.reverse]
    exact hζ
  | @first γ i n p t hi hn hp ht =>
    obtain ⟨ζ, hζ⟩ := hi.derives wf
    rw [Item.tail_eq] at ht
    obtain ⟨β, hβ⟩ := wf.mem_prefixes_iff_derives.mp ht
    rw [Item.drop_eq hn, List.append_assoc, List.cons_append] at hζ
    exact ⟨β ++ ζ, Grammar.derives_expanded hζ hβ hp⟩
  | @inherit γ i n p t _ hn hp hnull ih =>
    obtain ⟨ζ, hζ⟩ := ih
    rw [Item.tail_eq] at hnull
    rw [Item.drop_eq hn, List.append_assoc, List.cons_append] at hζ
    exact ⟨ζ, Grammar.derives_expanded hζ (wf.nullable_prefixes_iff_derives.mp hnull) hp⟩

theorem Readable.derives {γ : List Symbol} {t : Nat} (h : Readable g γ t) :
    ∃ ζ, g.Derives [.nonterminal Symbol.accept] (γ.reverse ++ .terminal t :: ζ) := by
  obtain ⟨i, hi, hfirst | ⟨hnull, hahead⟩⟩ := h
  · obtain ⟨β, hβ⟩ := wf.mem_prefixes_iff_derives.mp hfirst
    obtain ⟨ζ, hζ⟩ := hi.derives wf
    refine ⟨β ++ ζ, hζ.trans ?_⟩
    have hrest := hβ.append γ.reverse ζ
    rw [List.append_assoc _ (.terminal t :: β)] at hrest
    exact hrest
  · obtain ⟨ζ, hζ⟩ := hahead.derives wf
    refine ⟨ζ, hζ.trans ?_⟩
    have hrest := (wf.nullable_prefixes_iff_derives.mp hnull).append γ.reverse (.terminal t :: ζ)
    rw [List.append_nil] at hrest
    exact hrest

theorem Readable.derives_word {γ : List Symbol} {t : Nat} {word : List Nat}
    (h : Readable g γ t) (hγ : g.Derives γ.reverse (word.map .terminal)) :
    ∃ ζ, g.Derives [.nonterminal Symbol.accept] ((word ++ [t]).map .terminal ++ ζ) := by
  obtain ⟨ζ, hζ⟩ := h.derives wf
  have hword := hγ.append [] (.terminal t :: ζ)
  refine ⟨ζ, ?_⟩
  rw [List.map_append, List.append_assoc]
  exact hζ.trans hword

theorem readable_of_action {a : Automaton} (hf : a.Faithful g) (hprecise : a.Precise g)
    {γ : List Symbol} {s t : Nat} (hs : stateAfter a.step γ = some s)
    (h : (Table.generate g a).action s t ≠ .error) : Readable g γ t := by
  obtain ⟨st, hst, -, hd⟩ := hf.state γ s hs
  obtain ⟨st', hst', -, -, hcases⟩ := Table.action_cases h
  rw [hst] at hst'
  cases hst'
  rcases hcases with ⟨next, -, hstep⟩ | ⟨-, rfl, haccepts⟩ | ⟨p, l, -, hp, ht⟩
  · rw [Automaton.step, hst] at hstep
    obtain ⟨-, i, hi, hnext⟩ := (hd.moves _).mp ⟨next, hstep⟩
    exact readable_of_next wf hi hnext
  · obtain ⟨i, hi, hnext⟩ := hd.accepts.mp haccepts
    exact readable_of_next wf hi hnext
  · exact readable_of_ahead ((hprecise γ s st p l t hs hst hp).mp ht)

end Forms

theorem Table.mem_expected {a : Automaton} {s t : Nat} : t ∈ (Table.generate g a).expected s ↔
    t ≠ Symbol.endOfInput ∧ t ≠ Symbol.errorToken ∧ (Table.generate g a).action s t ≠ .error := by
  rw [Table.expected, List.mem_filter, List.mem_range, decide_eq_true_iff]
  refine and_iff_right_of_imp fun h => ?_
  obtain ⟨-, -, hlt, -⟩ := Table.action_cases h.2.2
  simpa [Table.generate] using hlt

theorem SyntaxError.expected_report {V : Type} (token : Option (Token V)) (location : Location)
    (expected : List String) (recoverable : Bool) :
    (SyntaxError.report token location expected recoverable).expected =
      expected.map fun name => "'" ++ name ++ "'" := by
  cases token <;> rfl

theorem Table.terminalName_generate {a : Automaton} (t : Nat) :
    (Table.generate g a).terminalName t = g.terminalName t := by
  simp only [Table.terminalName, Table.generate, Grammar.terminalName,
    Array.getD_eq_getD_getElem?, Array.getElem?_map]
  cases g.terminals[t]? <;> rfl

namespace ShiftReduce

variable {V P : Type} {a : Automaton} {parser : Parser V P} {env : Environment V P}
  {c c' d : Config V P} {hist : List (Config V P × Move V P)} {δ δ' : List Symbol} {u : Nat}
  {acts : List Act}

theorem Stacked.reduce (ht : parser.tables.Realizes g a) {p : Nat} {e : Event V P}
    (h : Stacked a ((g.production p).right.toList.reverse ++ δ) c.states)
    (hreduce : parser.reduce env c p = .next e c') :
    Stacked a (.nonterminal (g.production p).left :: δ) c'.states := by
  obtain ⟨state, deeper, next, v, after, hdrop, hgoto, -, -, rfl⟩ := reduced_of_next ht hreduce
  have hδ := h.drop_append
  rw [List.length_reverse, Array.length_toList, hdrop] at hδ
  rw [reduced, hdrop]
  exact .push hδ hgoto

theorem Steps.unread_eq (h : Steps parser env c hist d)
    (hlength : d.unread.length = c.unread.length) :
    c.unread = d.unread ∧ ∀ m ∈ hist, m.1.unread = d.unread := by
  induction h with
  | refl => exact ⟨rfl, by simp⟩
  | @head c c' d e hist hstep hsteps ih =>
    have hunread := (step_effect hstep).unread
    have hle := hsteps.unread_le
    have hsum := congrArg List.length hunread
    rw [List.length_append] at hsum
    have hnone : e.consumed = [] := List.eq_nil_of_length_eq_zero (by omega)
    rw [hnone, List.nil_append] at hunread
    obtain ⟨hsame, hall⟩ := ih (by omega)
    rw [List.forall_mem_cons]
    exact ⟨hunread.trans hsame, hunread.trans hsame, hall⟩

section Following

variable (wf : g.WellFormed) (hf : a.Faithful g) (hd : parser.tables.Decides g a)

include wf hf hd

theorem action_of_plan {s : Nat} {i : Item} (hs : stateAfter a.step δ = some s)
    (hplan : Plan g δ [u] acts δ' [u]) (hi : Viable g δ' i)
    (hnext : i.next g = some (.terminal u)) (hend : u ≠ Symbol.endOfInput) :
    (∃ next, parser.tables.action s u = .shift next) ∨
    ∃ p γ later, δ = (g.production p).right.toList.reverse ++ γ ∧
      parser.tables.action s u = .reduce p ∧
      Plan g (.nonterminal (g.production p).left :: γ) [u] later δ' [u] := by
  cases hplan with
  | done =>
    obtain ⟨st, hst, -, hdescribes⟩ := hf.state δ s hs
    obtain ⟨next, hstep⟩ := (hdescribes.moves _).mpr ⟨by simpa using hend, i, hi, hnext⟩
    refine Or.inl ⟨next, hd.shift hs (wf.terminal_lt (Item.next_mem hnext)) ?_⟩
    rw [Automaton.step, hst]
    exact hstep
  | shift _ _ _ hlater =>
    have hlength := hlater.suffix.length_le
    simp at hlength
  | reduce hahead hlater => exact Or.inr ⟨_, _, _, rfl, hd.reduce hs hahead, hlater⟩

theorem action_after_defaults (ht : parser.tables.Realizes g a)
    (hsteps : Steps parser env c hist d)
    (hdefaults : ∀ m ∈ hist, ∃ s p, m.1.states.head? = some s ∧
      parser.tables.defaultReduction s = some p)
    (h : Stacked a δ c.states) {i : Item} (hplan : Plan g δ [u] acts δ' [u])
    (hi : Viable g δ' i) (hnext : i.next g = some (.terminal u)) (hend : u ≠ Symbol.endOfInput)
    {s : Nat} {states : List Nat} (hstates : d.states = s :: states) :
    parser.tables.action s u ≠ .error := by
  induction hsteps generalizing δ acts with
  | refl c =>
    rw [hstates] at h
    rcases action_of_plan wf hf hd h.stateAfter_eq hplan hi hnext hend with
      ⟨next, hshift⟩ | ⟨p, -, -, -, hreduce, -⟩
    · simp [hshift]
    · simp [hreduce]
  | @head c c' d e hist hstep _ ih =>
    rw [List.forall_mem_cons] at hdefaults
    obtain ⟨⟨top, p, htop, hdefault⟩, hdefaults⟩ := hdefaults
    obtain ⟨top', below, htop', hs⟩ := h.exists_top
    rw [htop', List.head?_cons, Option.some.injEq] at htop
    subst htop
    rw [step_default htop' hdefault] at hstep
    -- the plan begins with the default reduction
    rcases action_of_plan wf hf hd hs hplan hi hnext hend with
      ⟨next, hshift⟩ | ⟨q, γ, later, rfl, hreduce, hlater⟩
    · have hp := hd.default hdefault (u := u) (by simp [hshift])
      rw [hshift] at hp
      cases hp
    · have hp := hd.default hdefault (u := u) (by simp [hreduce])
      rw [hreduce] at hp
      cases hp
      exact ih hdefaults (h.reduce ht hstep) hlater hstates

theorem exists_after_plan (ht : parser.tables.Realizes g a) (hsteps : Steps parser env c hist d)
    {rest : List (Token V)} {v : List Nat} (h : Stands a parser.tables c δ rest)
    (hv : Comes parser.tables rest v) (hplan : Plan g δ v acts δ' [])
    (hread : d.unread.length + v.length ≤ rest.length) :
    ∃ hist₁ hist₂ c₁ rest₁, hist = hist₁ ++ hist₂ ∧ Steps parser env c₁ hist₂ d ∧
      Stands a parser.tables c₁ δ' rest₁ ∧ rest₁.length + v.length = rest.length := by
  induction hsteps generalizing δ rest v acts with
  | refl c =>
    rw [h.pending.unread_eq] at hread
    obtain rfl : v = [] := List.eq_nil_of_length_eq_zero (by omega)
    cases hplan
    exact ⟨[], [], c, rest, rfl, .refl c, h, rfl⟩
  | @head c c' d e hist hstep hsteps ih =>
    cases acts with
    | nil =>
      cases hplan
      exact ⟨[], _, c, rest, rfl, .head hstep hsteps, h, rfl⟩
    | cons act acts =>
      obtain ⟨-, -, hfollow⟩ := h.follow env hf hd wf ht hv hplan
      obtain ⟨δ₁, v₁, rest₁, hstands, hv₁, hplan₁, hlength, -⟩ := hfollow e c' hstep
      obtain ⟨hist₁, hist₂, c₁, rest₂, rfl, hlater, hstands', hlength'⟩ :=
        ih hstands hv₁ hplan₁ (by omega)
      exact ⟨_ :: hist₁, hist₂, c₁, rest₂, rfl, hlater, hstands', by omega⟩

end Following

theorem nextName_eq (wf : g.WellFormed) {rest : List (Token V)}
    (h : nextTerminal (Tables.ofTable (Table.generate g a)) rest = some u) :
    nextName rest = g.terminalName u := by
  cases rest with
  | nil =>
    cases h
    exact wf.terminalName_end.symm
  | cons token rest => exact Table.eq_terminalName wf h

section Expected

variable (wf : g.WellFormed) (hf : a.Faithful g) (hprecise : a.Precise g)
  (hd : (Tables.ofTable (Table.generate g a)).Decides g a) {actions : Actions V P}
  {tokens : List (Token V)} (hnames : ∀ token ∈ tokens, token.name ≠ Symbol.endName) {params : P}
  {fuel : Nat} {before after : List (Config V P × Move V P)} {first : Config V P × Move V P}

include wf hf hprecise hd hnames

/-- Between the last shift and the error only default reductions are made. -/
theorem default_before_error :
    let parser : Parser V P := ⟨.ofTable (Table.generate g a), actions⟩
    parser.history env fuel (start (tokens.map .ok) params) = before ++ first :: after →
    (∀ step ∈ before, parser.meetsError step.1 = false) → parser.meetsError first.1 = true →
    ∀ m ∈ before, m.1.unread = first.1.unread → ∃ s p, m.1.states.head? = some s ∧
      parser.tables.defaultReduction s = some p := by
  intro parser hhistory hclean herror m hm hsame
  have ht : parser.tables.Realizes g a := realizes_generate
  have hnamed : ∀ {name t}, parser.tables.terminal? name = some t → name = g.terminalName t :=
    Table.eq_terminalName wf
  obtain ⟨read, rest, _, γ', rfl, -, hstands, -, -⟩ :=
    stack_derives wf hf ht hnamed (steps_of_history hhistory) hclean
  have hnot := not_opens wf hf hd (fun token htoken => hnames token
    (List.mem_append_left _ htoken)) (steps_of_history hhistory) herror hstands.pending
  rw [hstands.pending.unread_eq] at hsame
  -- the same tokens were read there
  obtain ⟨before₁, before₂, rfl⟩ := List.append_of_mem hm
  rw [List.append_assoc, List.cons_append] at hhistory
  obtain ⟨read', rest', word, γ, hread, -, hstands', hword, hγ⟩ :=
    stack_derives wf hf ht hnamed (steps_of_history hhistory)
      fun step hstep => hclean step (List.mem_append_left _ hstep)
  rw [hstands'.pending.unread_eq] at hsame
  subst hsame
  obtain rfl := List.append_cancel_right hread
  obtain ⟨s, states, hstates, hs⟩ := hstands'.stacked.exists_top
  cases hdefault : parser.tables.defaultReduction s with
  | some p => exact ⟨s, p, by rw [hstates]; rfl, hdefault⟩
  | none =>
    -- a look at the next token would have found that it can come next
    exfalso
    obtain ⟨la, input, hlook, hreads⟩ := hstands'.pending.look
    have hlooked := hclean m hm
    rw [meetsError_eq hstates hdefault hlook, beq_eq_false_iff_ne] at hlooked
    obtain ⟨u, hu, haction⟩ := Tables.actionOn_eq rfl hlooked
    rw [← haction] at hlooked
    obtain ⟨ζ, hζ⟩ := (readable_of_action wf hf hprecise hs hlooked).derives_word wf hγ
    rw [hreads.terminal_eq] at hu
    refine hnot ⟨word ++ [u], ζ, ?_, hζ⟩
    rw [List.map_append, hword, nextName_eq wf hu]
    rfl

theorem action_of_continues :
    let parser : Parser V P := ⟨.ofTable (Table.generate g a), actions⟩
    parser.history env fuel (start (tokens.map .ok) params) = before ++ first :: after →
    (∀ step ∈ before, parser.meetsError step.1 = false) → parser.meetsError first.1 = true →
    ∀ {read : List (Token V)} {s t : Nat} {states : List Nat},
      tokens = read ++ first.1.unread → first.1.states = s :: states → t ≠ Symbol.endOfInput →
      g.Continues (read.map (·.name)) t → parser.tables.action s t ≠ .error := by
  intro parser hhistory hclean herror read s t states htokens hstates hend hcontinues
  have ht : parser.tables.Realizes g a := realizes_generate
  obtain ⟨word, β, hword, hderives⟩ := hcontinues
  have hform : g.Derives [.nonterminal Symbol.accept]
      ((word ++ [t]).map .terminal ++ (β ++ [.terminal Symbol.endOfInput])) := by
    rw [← List.append_assoc]
    exact wf.derives_start_end.trans (hderives.append [] [.terminal Symbol.endOfInput])
  have hcomes : Comes parser.tables tokens word := by
    have hform' := hform
    rw [List.map_append, List.append_assoc] at hform'
    refine comes_of_form wf hform' ?_
    rw [hword, htokens, List.map_append, List.append_assoc]
    exact List.prefix_append _ _
  have hread : ∀ token ∈ read, token.name ≠ Symbol.endName := fun token htoken =>
    hnames token (htokens ▸ List.mem_append_left _ htoken)
  have hlast : ∀ u ∈ (word ++ [t]).dropLast, u ≠ Symbol.endOfInput := by
    rw [List.dropLast_concat]
    rintro u hu rfl
    exact wf.end_notMem hword hread hu
  obtain ⟨acts, δ, u, i, hplan, hi, hnext⟩ := form_plan wf (by simp) hform hlast
  obtain ⟨v, hv⟩ := hplan.suffix
  obtain rfl : u = t := by simpa using (List.append_inj' hv rfl).2
  -- the plan is followed up to the last token that was read, then by default reductions
  obtain ⟨acts₁, acts₂, δ₁, hfirst, hlater⟩ := hplan.split List.suffix_rfl
  have hlength : word.length = read.length := by simpa using congrArg List.length hword
  have hsum : tokens.length = read.length + first.1.unread.length := by
    rw [← List.length_append, ← htokens]
  obtain ⟨hist₁, hist₂, c₁, rest₁, rfl, hsteps, hstands, hrest⟩ :=
    exists_after_plan wf hf hd ht (steps_of_history hhistory) (stands_start _ _ _) hcomes hfirst
      (by omega)
  obtain ⟨-, hunread⟩ := hsteps.unread_eq (by rw [hstands.pending.unread_eq]; omega)
  refine action_after_defaults wf hf hd ht hsteps (fun m hm => ?_) hstands.stacked hlater hi hnext
    hend hstates
  exact default_before_error wf hf hprecise hd hnames hhistory hclean herror m
    (List.mem_append_right _ hm) (hunread m hm)

end Expected

/-- Over a canonical table without conflicts, the report of the first error names the terminals,
in order, with which the tokens shifted before it could go on in some form of the start symbol. -/
theorem expected_exact (hg : g.Defined) (ha : Method.lr1.automaton g = .ok a)
    (hconflicts : (Table.generate g a).conflicts = []) (actions : Actions V P)
    (env : Environment V P) (tokens : List (Token V))
    (hnames : ∀ token ∈ tokens, token.name ≠ Symbol.endName) (params : P) (fuel : Nat) :
    let parser : Parser V P := ⟨.ofTable (Table.generate g a), actions⟩
    let history := parser.history env fuel (start (tokens.map .ok) params)
    ∀ before first after, history = before ++ first :: after →
      (∀ step ∈ before, parser.meetsError step.1 = false) → parser.meetsError first.1 = true →
      ∃ (read : List (Token V)) (error : SyntaxError) (expected : List Nat),
        tokens = read ++ first.1.unread ∧
        consumption before = read.map (⟨·, true⟩) ∧ first.2.config.reported = [error] ∧
        error.expected = expected.map (fun t => "'" ++ g.terminalName t ++ "'") ∧
        expected.Pairwise (· < ·) ∧
        ∀ t, t ∈ expected ↔ t ≠ Symbol.endOfInput ∧ t ≠ Symbol.errorToken ∧
          g.Continues (read.map (·.name)) t := by
  intro parser history before first after hhistory hclean herror
  have wf := hg.wellFormed
  obtain ⟨nodes, hnodes⟩ := Canonical.build_nodes wf ha
  have hf := hnodes.faithful
  have hd := decides_generate wf hf hnodes.exact.covers hconflicts
  obtain ⟨read, rest, word, γ, rfl, hconsumed, hstands, hword, hγ⟩ := stack_derives wf hf
    realizes_generate (Table.eq_terminalName wf) (steps_of_history hhistory) hclean
  obtain ⟨s, states, la, input, hstates, hdefault, hlook, haction⟩ := exists_of_meetsError herror
  obtain ⟨hreported, hrecovering⟩ := (steps_of_history hhistory).quiet hclean
  have hmem : first ∈ history := by simp [hhistory]
  have hunread := hstands.pending.unread_eq
  refine ⟨read, parser.tables.syntaxError s la first.1.states, (Table.generate g a).expected s,
    by rw [hunread], hconsumed, ?_, ?_, List.pairwise_lt_range.filter _, fun t => ?_⟩
  · rw [history_step hmem, step_error hstates hdefault hlook haction, reported_fail,
      if_pos (hrecovering rfl), hreported]
    rfl
  · rw [Tables.syntaxError, SyntaxError.expected_report, List.map_map]
    refine List.map_congr_left fun t _ => ?_
    exact congrArg (fun name => "'" ++ name ++ "'") (Table.terminalName_generate t)
  · rw [Table.mem_expected]
    refine and_congr_right fun hend => and_congr_right fun _ => ⟨fun h => ?_, fun h => ?_⟩
    · have hs := hstands.stacked
      rw [hstates] at hs
      obtain ⟨ζ, hζ⟩ := (readable_of_action wf hf hnodes.precise hs.stateAfter_eq h).derives_word
        wf hγ
      have hread := wf.end_notMem hword fun token htoken =>
        hnames token (List.mem_append_left _ htoken)
      obtain ⟨β, hβ⟩ := wf.derives_start hζ (by simp [hread, Ne.symm hend])
      exact ⟨word, β, hword, hβ⟩
    · exact action_of_continues wf hf hnodes.precise hd hnames hhistory hclean herror
        (by rw [hunread]) hstates hend h

theorem expected_nested :
    (Table.generate .parentheses .nested).conflicts = [] ∧
    ¬ Grammar.parentheses.Continues ["(", "(", ")"] 2 ∧
    ∃ t, "'" ++ Grammar.parentheses.terminalName t ++ "'" = "')'" ∧
      Grammar.parentheses.Continues ["(", "(", ")"] t := by
  let parser : Parser Nat Unit := ⟨.ofTable (.generate .parentheses .nested), #[]⟩
  let history := parser.history silent 20 (start ((tokensOf ["(", "(", ")", "("]).map .ok) ())
  have hconflicts : (Table.generate .parentheses .nested).conflicts = [] := by cbv
  have hclean : ((history.take 5).all fun step => !parser.meetsError step.1) = true := by
    decide +kernel
  have hfirst : (history.drop 5).head?.map (fun step => (parser.meetsError step.1,
      step.1.unread.map (·.name), step.2.config.reported.map (·.expected))) =
      some (true, ["("], [["')'"]]) := by
    decide +kernel
  simp only [List.all_eq_true, Bool.not_eq_true'] at hclean
  refine ⟨hconflicts, ?_⟩
  cases hdrop : history.drop 5 with
  | nil =>
    rw [hdrop] at hfirst
    cases hfirst
  | cons first after =>
    rw [hdrop, List.head?_cons, Option.map_some, Option.some.injEq, Prod.mk.injEq,
      Prod.mk.injEq] at hfirst
    obtain ⟨herror, hunread, hreported⟩ := hfirst
    have hhistory : history = history.take 5 ++ first :: after := by
      rw [← hdrop, List.take_append_drop]
    obtain ⟨read, error, expected, htokens, -, hreport, hexpected, -, hexact⟩ :=
      expected_exact Grammar.parentheses_defined Method.lr1_parentheses hconflicts #[] silent
        (tokensOf ["(", "(", ")", "("]) (by decide) () 20 _ first after hhistory hclean herror
    have hread : read.map (·.name) = ["(", "(", ")"] := by
      have hnames := congrArg (List.map (·.name)) htokens
      rw [List.map_append, hunread] at hnames
      exact (List.append_inj_left' hnames rfl).symm
    rw [hreport, List.map_singleton, hexpected, List.singleton_inj] at hreported
    obtain ⟨t, rfl, hname⟩ := List.map_eq_singleton_iff.mp hreported
    rw [hread] at hexact
    refine ⟨fun hcontinues => ?_, t, hname, ((hexact t).mp (by simp)).2.2⟩
    obtain rfl := List.mem_singleton.mp ((hexact 2).mpr ⟨by decide, by decide, hcontinues⟩)
    revert hname
    decide +kernel

end ShiftReduce

end TableParsing
