import TableParsing.Proofs.Engine.Move
import TableParsing.Proofs.Engine.Run
import TableParsing.Proofs.Grammar.Derivation

/-! What the engine accepts, the grammar derives. The trees on the stack have the symbols of
the path as their roots and the shifted tokens as their leaves, and they have completed the
productions reduced so far. An accepting state stands only on the start symbol, so at the end
one tree is left. -/

namespace TableParsing.ShiftReduce

variable {V P : Type} {g : Grammar} {a : Automaton}

mutual

def treeValue (build : Nat → List V → V) : Tree (Token V) → V
  | .leaf _ token => token.value
  | .node p children => build p (treeValues build children)

def treeValues (build : Nat → List V → V) : List (Tree (Token V)) → List V
  | [] => []
  | tree :: trees => treeValue build tree :: treeValues build trees

end

theorem treeValues_eq_map (build : Nat → List V → V) (trees : List (Tree (Token V))) :
    treeValues build trees = trees.map (treeValue build) := by
  induction trees with
  | nil => rw [treeValues, List.map_nil]
  | cons tree trees ih => rw [treeValues, ih, List.map_cons]

def building (count : Nat) (build : Nat → List V → V) : Actions V P :=
  Array.replicate count
    (some fun _ c => (.value (build c.production (c.handle.filterMap (·.value))), c))

theorem run_building {count : Nat} {build : Nat → List V → V} {nested : Nested V P}
    {c : Context V P} (h : c.production < count) : (building count build).run nested c =
      (.value (some (build c.production (c.handle.filterMap (·.value)))), c) := by
  simp [Actions.run, building, Array.getD_eq_getD_getElem?, h]

theorem plain_building (count : Nat) (build : Nat → List V → V) :
    Plain (building count build : Actions V P) := by
  intro action haction nested c
  obtain ⟨-, heq⟩ := Array.mem_replicate.mp haction
  cases heq
  rfl

/-- The trees on the stack of a configuration, the latest first, with the shifted tokens as
their leaves, the productions reduced so far, and the tokens still to be read. -/
structure Parsed (g : Grammar) (a : Automaton) (parser : Parser V P) (c : Config V P)
    (trees : List (Tree (Token V))) (γ : List Symbol) (w : List (Nat × Token V)) (ps : List Nat)
    (rest : List (Token V)) : Prop where
  stacked : Stacked a γ c.states
  yields : g.Yields trees.reverse γ.reverse w ps
  names : ∀ e ∈ w, parser.tables.terminal? e.2.name = some e.1
  pending : Pending parser.tables c rest
  values : ∀ build, parser.actions = building g.productions.size build →
    c.entries.map (·.value) = trees.map (fun t => some (treeValue build t)) ++ [none]

theorem parsed_start (parser : Parser V P) (tokens : List (Token V)) (params : P) :
    Parsed g a parser (start (tokens.map .ok) params) [] [] [] [] tokens :=
  ⟨.base, .nil, by simp, pending_start _ _ _, fun _ _ => rfl⟩

theorem handle_values {α : Type} {entries : List (Entry V)} {f : α → V}
    {children before : List α} {n : Nat} (hlen : children.length = n)
    (h : entries.map (·.value) =
      (children.reverse ++ before.reverse).map (fun t => some (f t)) ++ [none]) :
    (entries.take n).reverse.filterMap (·.value) = children.map f ∧
      (entries.drop n).map (·.value) = before.reverse.map (fun t => some (f t)) ++ [none] := by
  have hn : (children.reverse.map fun t => some (f t)).length = n := by simpa using hlen
  rw [List.map_append, List.append_assoc] at h
  constructor
  · have htake : (entries.take n).map (·.value) = children.reverse.map fun t => some (f t) := by
      rw [List.map_take, h, List.take_left' hn]
    have hmap : (entries.take n).reverse.filterMap (·.value) =
        ((entries.take n).map (·.value)).reverse.filterMap id := by
      rw [← List.map_reverse, List.filterMap_map]
      rfl
    rw [hmap, htake, ← List.map_reverse, List.reverse_reverse, List.filterMap_map]
    simp
  · rw [List.map_drop, h, List.drop_left' hn]

section Moves

variable {parser : Parser V P} (hf : a.Faithful g)
  (ht : parser.tables.Realizes g a) {c : Config V P} {trees : List (Tree (Token V))}
  {γ : List Symbol} {w : List (Nat × Token V)} {ps : List Nat} {rest : List (Token V)}
  (h : Parsed g a parser c trees γ w ps rest)

include hf ht h

theorem Parsed.shift {la : Lookahead V} {input : Source V} {s u next : Nat} {states : List Nat}
    (hstates : c.states = s :: states) (hreads : Reads parser.tables la input rest)
    (hu : la.terminal = some u) (haction : parser.tables.action s u = .shift next) :
    ∃ token rest', rest = token :: rest' ∧ ∃ trees' γ',
      Parsed g a parser (shifted c la input next) trees' γ' (w ++ [(u, token)]) ps rest' := by
  have hγ := h.stacked
  rw [hstates] at hγ
  have hstep := ht.shift haction
  cases hreads with
  | ending hend _ =>
    -- the end of input is never shifted
    rw [hend] at hu
    cases hu
    exact absurd rfl (hf.viable_of_step hγ.stateAfter_eq hstep).1
  | token token rest' =>
    refine ⟨token, rest', rfl, .leaf u token :: trees, .terminal u :: γ, ?_, ?_, ?_, ?_, ?_⟩
    · simp only [shifted, hstates]
      exact .push hγ hstep
    · have hleaf := h.yields.append (.leaf u token .nil)
      simpa using hleaf
    · intro e he
      rcases List.mem_append.mp he with he | he
      · exact h.names e he
      · cases List.mem_singleton.mp he
        exact hu
    · exact Or.inl ⟨rfl, rfl⟩
    · intro build hbuild
      rw [shifted, List.map_cons, List.map_cons, h.values build hbuild, treeValue]
      rfl

variable (wf : g.WellFormed)

include wf

theorem Parsed.reduce (env : Environment V P) (plain : Plain parser.actions) {s p : Nat}
    {states : List Nat}
    (hstates : c.states = s :: states)
    (hp : ∃ st, a.states[s]? = some st ∧ p ∈ st.reduces.map (·.1)) :
    ∃ e c', parser.reduce env c p = .next e c' ∧ e.reduction? = some p ∧
      ∃ trees' γ', Parsed g a parser c' trees' γ' w (ps ++ [p]) rest := by
  obtain ⟨st, hst, hp⟩ := hp
  have hγ := h.stacked
  rw [hstates] at hγ
  have hd := hf.describes hγ.stateAfter_eq hst
  have hlt : p < g.productions.size := wf.viable_lt ((hd.completed p).mp hp)
  obtain ⟨δ, state, deeper, next, rfl, hdrop, hδ, hgoto⟩ := exists_goto wf hf hγ hst hp
  rw [← hstates] at hdrop
  obtain ⟨v, after, hrun, hreduce⟩ := reduce_next env ht plain hdrop hgoto
  refine ⟨_, _, hreduce, rfl, ?_⟩
  have hyields :
      g.Yields trees.reverse (δ.reverse ++ (g.production p).right.toList ++ []) w ps := by
    simpa using h.yields
  obtain ⟨before, children, after', qs, rs, htrees, rfl, hlen, hnode, v', hafter⟩ :=
    hyields.fold hlt
  cases hafter
  refine ⟨.node p children :: before.reverse, .nonterminal (g.production p).left :: δ,
    ?_, ?_, h.names, h.pending, ?_⟩
  · simp only [reduced, hdrop]
    exact .push hδ hgoto
  · simpa using hnode
  · intro build hbuild
    have htop : trees = children.reverse ++ before.reverse := by
      rw [List.append_nil] at htrees
      rw [← List.reverse_reverse trees, htrees, List.reverse_append]
    have hvalues := h.values build hbuild
    rw [htop] at hvalues
    obtain ⟨hhandle, hbelow⟩ := handle_values hlen hvalues
    rw [hbuild, run_building hlt] at hrun
    cases hrun
    simp only [reduced, List.map_cons, hbelow, List.cons_append, List.cons.injEq, and_true,
      treeValue, treeValues_eq_map]
    exact congrArg (fun l => some (build p l)) hhandle

theorem Parsed.step (env : Environment V P) (plain : Plain parser.actions)
    (herror : parser.meetsError c = false) :
    (∃ e c', parser.step env c = .next e c' ∧ ∃ trees' γ' w' rest',
      Parsed g a parser c' trees' γ' w' (ps ++ e.reduction?.toList) rest' ∧
        w'.map (·.2) ++ rest' = w.map (·.2) ++ rest) ∨
    (∃ c', parser.step env c = .stop (.ok (c.entries.head?.bind (·.value))) c') ∧
      γ = [.nonterminal g.start] ∧
      (rest = [] ∨
        ∃ token ∈ rest, parser.tables.terminal? token.name = some Symbol.endOfInput) := by
  obtain ⟨s, states, hstates, hs⟩ := h.stacked.exists_top
  cases hdefault : parser.tables.defaultReduction s with
  | some p =>
    obtain ⟨e, c', hreduce, he, trees', γ', hparsed⟩ :=
      h.reduce hf ht wf env plain hstates (ht.default hdefault)
    refine Or.inl ⟨e, c', ?_, trees', γ', w, rest, by rw [he]; exact hparsed, rfl⟩
    rw [step_default hstates hdefault, hreduce]
  | none =>
    obtain ⟨la, input, hlook, hreads⟩ := h.pending.look
    cases haction : parser.tables.actionOn s la with
    | shift next =>
      obtain ⟨u, hu, haction'⟩ := Tables.actionOn_eq haction (by simp)
      obtain ⟨token, rest', rfl, trees', γ', hparsed⟩ :=
        h.shift hf ht hstates hreads hu haction'
      refine Or.inl ⟨.shift la, shifted c la input next, ?_, trees', γ', w ++ [(u, token)], rest',
        ?_, ?_⟩
      · exact step_shift hstates hdefault hlook haction
      · simpa [Event.reduction?] using hparsed
      · simp
    | reduce p =>
      obtain ⟨u, hu, haction'⟩ := Tables.actionOn_eq haction (by simp)
      have hheld : Parsed g a parser { c with lookahead := some la, input := input } trees γ w
          ps rest := ⟨h.stacked, h.yields, h.names, Or.inr ⟨la, rfl, hreads⟩, h.values⟩
      obtain ⟨e, c', hreduce, he, trees', γ', hparsed⟩ :=
        hheld.reduce hf ht wf env plain hstates (ht.reduce haction')
      refine Or.inl ⟨e, c', ?_, trees', γ', w, rest, by rw [he]; exact hparsed, rfl⟩
      rw [step_reduce hstates hdefault hlook haction, hreduce]
    | accept =>
      obtain ⟨u, hu, haction'⟩ := Tables.actionOn_eq haction (by simp)
      obtain ⟨rfl, st, hst, haccepts⟩ := ht.accept haction'
      have hd := hf.describes hs hst
      obtain ⟨i, hi, hnext⟩ := hd.accepts.mp haccepts
      refine Or.inr ⟨⟨_, step_accept hstates hdefault hlook haction⟩,
        wf.accepting_prefix hi hnext, ?_⟩
      cases hreads with
      | ending => exact Or.inl rfl
      | token token rest' => exact Or.inr ⟨token, List.mem_cons_self, hu⟩
    | error =>
      rw [meetsError_eq hstates hdefault hlook, haction] at herror
      cases herror

end Moves

theorem Parsed.steps {parser : Parser V P} {env : Environment V P} (hf : a.Faithful g)
    (ht : parser.tables.Realizes g a) (wf : g.WellFormed) (plain : Plain parser.actions)
    {c d : Config V P} {hist : List (Config V P × Move V P)}
    (hsteps : Steps parser env c hist d) (hclean : ∀ m ∈ hist, parser.meetsError m.1 = false)
    {trees : List (Tree (Token V))} {γ : List Symbol} {w : List (Nat × Token V)}
    {ps : List Nat} {rest : List (Token V)} (h : Parsed g a parser c trees γ w ps rest) :
    ∃ trees' γ' w' rest', Parsed g a parser d trees' γ' w' (ps ++ reductions hist) rest' ∧
      w'.map (·.2) ++ rest' = w.map (·.2) ++ rest := by
  induction hsteps generalizing trees γ w ps rest with
  | refl => exact ⟨trees, γ, w, rest, by simpa [reductions] using h, rfl⟩
  | @head c c' d e hist hstep _ ih =>
    rw [List.forall_mem_cons] at hclean
    rcases h.step hf ht wf env plain hclean.1 with
      ⟨e', c'', hnext, trees', γ', w', rest', hparsed, hread⟩ | ⟨⟨c'', hstop⟩, -⟩
    · rw [hstep] at hnext
      cases hnext
      obtain ⟨trees₂, γ₂, w₂, rest₂, hparsed₂, hread₂⟩ := ih hclean.2 hparsed
      refine ⟨trees₂, γ₂, w₂, rest₂, ?_, hread₂.trans hread⟩
      have hreductions : reductions ((c, .next e c') :: hist) =
          e.reduction?.toList ++ reductions hist := by
        cases he : e.reduction? <;> simp [reductions, Move.event?, he]
      rw [hreductions, ← List.append_assoc]
      exact hparsed₂
    · rw [hstep] at hstop
      cases hstop

theorem exists_parsed {parser : Parser V P} (wf : g.WellFormed) (hf : a.Faithful g)
    (ht : parser.tables.Realizes g a)
    (hend : ∀ name, parser.tables.terminal? name = some Symbol.endOfInput → name = Symbol.endName)
    (plain : Plain parser.actions) {env : Environment V P} {tokens : List (Token V)}
    (hnames : ∀ token ∈ tokens, token.name ≠ Symbol.endName) {params : P} {fuel : Nat}
    {r : Result V P} {v : Option V}
    (hrun : parser.run env fuel (start (tokens.map .ok) params) = some r) (hok : r.outcome = .ok v)
    (hclean : ∀ step ∈ parser.history env fuel (start (tokens.map .ok) params),
      parser.meetsError step.1 = false) :
    ∃ d tree w, Parsed g a parser d [tree] [.nonterminal g.start] w
        (reductions (parser.history env fuel (start (tokens.map .ok) params))) [] ∧
      w.map (·.2) = tokens ∧ v = d.entries.head?.bind (·.value) := by
  obtain ⟨hist, d, outcome, d', hsteps, hstop, hhistory, rfl⟩ := exists_steps_of_run hrun
  rw [hhistory] at hclean ⊢
  have hlast : reductions (hist ++ [(d, .stop outcome d')]) = [] ++ reductions hist := by
    simp [reductions, Move.event?]
  obtain ⟨trees, γ, w, rest, hparsed, hread⟩ := Parsed.steps hf ht wf plain hsteps
    (fun m hm => hclean m (List.mem_append_left _ hm)) (parsed_start parser tokens params)
  rw [List.map_nil, List.nil_append] at hread
  have herror := hclean (d, .stop outcome d') (List.mem_append_right _ List.mem_cons_self)
  rcases hparsed.step hf ht wf env plain herror with
    ⟨e, c', hnext, -⟩ | ⟨⟨c', hstop'⟩, rfl, hrest⟩
  · rw [hstop] at hnext
    cases hnext
  · rw [hstop] at hstop'
    cases hstop'
    cases hok
    -- only a token that bears the name of the end could be accepted before the end
    have hempty : rest = [] := by
      rcases hrest with hrest | ⟨token, htoken, hterminal⟩
      · exact hrest
      · have hmem : token ∈ tokens := by
          rw [← hread]
          exact List.mem_append_right _ htoken
        exact absurd (hend token.name hterminal) (hnames token hmem)
    rw [hempty, List.append_nil] at hread
    have hone : trees.length = 1 := by
      have hlen := hparsed.yields.length_eq
      simpa using hlen
    obtain ⟨tree, rfl⟩ := List.length_eq_one_iff.mp hone
    rw [hempty] at hparsed
    exact ⟨d, tree, w, by rwa [hlast], hread, rfl⟩

/-- A run that accepts without having met an error has parsed a sentence: the start symbol
derives the tokens, the reductions read backwards are a rightmost derivation of them, and with
actions that build a value for every production the result is the value of the derivation
tree. -/
theorem accepted_derives (hg : g.Defined) {m : Method} (ha : m.automaton g = .ok a)
    {actions : Actions V P} (plain : Plain actions) (env : Environment V P)
    (tokens : List (Token V)) (hnames : ∀ token ∈ tokens, token.name ≠ Symbol.endName)
    (params : P) (fuel : Nat) {r : Result V P} {v : Option V} :
    let parser : Parser V P := ⟨.ofTable (Table.generate g a), actions⟩
    let history := parser.history env fuel (start (tokens.map .ok) params)
    parser.run env fuel (start (tokens.map .ok) params) = some r → r.outcome = .ok v →
    (∀ step ∈ history, parser.meetsError step.1 = false) →
    ∃ (word : List Nat) (tree : Tree (Token V)),
      tokens.map (·.name) = word.map g.terminalName ∧
      g.Derives [.nonterminal g.start] (word.map .terminal) ∧
      g.Rightmost [.nonterminal g.start] (reductions history).reverse (word.map .terminal) ∧
      g.Yields [tree] [.nonterminal g.start] (word.zip tokens) (reductions history) ∧
      ∀ build, actions = building g.productions.size build →
        v = some (treeValue build tree) := by
  intro parser history hrun hok hclean
  have wf := hg.wellFormed
  have hf := (Method.automaton_spec wf ha).1
  have hend : ∀ name, parser.tables.terminal? name = some Symbol.endOfInput →
      name = Symbol.endName := fun name => (Table.terminal?_eq_endOfInput wf).mp
  obtain ⟨d, tree, w, hparsed, hread, hvalue⟩ :=
    exists_parsed wf hf realizes_generate hend plain hnames hrun hok hclean
  have hyields : g.Yields [tree] [.nonterminal g.start] w (reductions history) := hparsed.yields
  have hrightmost := hyields.rightmost [] []
  simp only [List.nil_append, List.map_nil, List.append_nil] at hrightmost
  have hword : (w.map (·.1)).map Symbol.terminal = w.map fun e => .terminal e.1 := by
    rw [List.map_map]
    rfl
  refine ⟨w.map (·.1), tree, ?_, ?_, ?_, ?_, ?_⟩
  · rw [← hread, List.map_map, List.map_map]
    exact List.map_congr_left fun e he => Table.eq_terminalName wf (hparsed.names e he)
  · rw [hword]
    exact hrightmost.derives
  · rw [hword]
    exact hrightmost
  · have hzip : (w.map (·.1)).zip tokens = w := by
      rw [← hread]
      exact (List.zip_of_prod rfl rfl).symm
    rw [hzip]
    exact hyields
  · intro build hbuild
    have hvalues := hparsed.values build hbuild
    cases hentries : d.entries with
    | nil =>
      rw [hentries] at hvalues
      cases hvalues
    | cons entry below =>
      rw [hentries] at hvalues hvalue
      rw [hvalue]
      exact (List.cons.inj hvalues).1

abbrev counting : Parser Nat Unit :=
  ⟨.ofTable (.generate .parentheses .parentheses), building 3 fun _ children => children.sum + 1⟩

theorem accepted_parentheses :
    counting.run silent 8 (start ((tokensOf ["(", "(", ")", ")"]).map .ok) ()) =
      some ⟨.ok (some 3), (), []⟩ ∧
    ∃ (word : List Nat) (tree : Tree (Token Nat)),
      ["(", "(", ")", ")"] = word.map Grammar.parentheses.terminalName ∧
      Grammar.parentheses.Derives [.nonterminal 1] (word.map .terminal) ∧
      Grammar.parentheses.Rightmost [.nonterminal 1] [1, 1, 2] (word.map .terminal) ∧
      treeValue (fun _ children => children.sum + 1) tree = 3 := by
  have hrun : counting.run silent 8 (start ((tokensOf ["(", "(", ")", ")"]).map .ok) ()) =
      some ⟨.ok (some 3), (), []⟩ := by
    cbv
  have hclean : ((counting.history silent 8
      (start ((tokensOf ["(", "(", ")", ")"]).map .ok) ())).all
        fun step => !counting.meetsError step.1) = true := by
    cbv
  have hreductions : reductions (counting.history silent 8
      (start ((tokensOf ["(", "(", ")", ")"]).map .ok) ())) = [2, 1, 1] := by
    cbv
  simp only [List.all_eq_true, Bool.not_eq_true'] at hclean
  obtain ⟨word, tree, hnames, hderives, hrightmost, -, hvalue⟩ :=
    accepted_derives Grammar.parentheses_defined Method.merged_parentheses
      (plain_building 3 fun _ children => children.sum + 1) silent
      (tokensOf ["(", "(", ")", ")"]) (by decide) () 8 hrun rfl hclean
  rw [hreductions] at hrightmost
  exact ⟨hrun, word, tree, hnames, hderives, hrightmost, (Option.some.inj (hvalue _ rfl)).symm⟩

end TableParsing.ShiftReduce
