import TableParsing.Proofs.Engine.Move
import TableParsing.Proofs.Engine.Plan
import TableParsing.Proofs.Engine.Run

/-! What the grammar derives, the engine accepts over a table without conflicts. Such a table
has an action for all that can be done with the terminal that comes next, so that the engine
follows any plan for the terminals that its tokens stand for, meeting no error on the way. -/

namespace TableParsing

namespace ShiftReduce

variable {V P : Type} {g : Grammar} {a : Automaton}

/-- The tables do all that the automaton calls for. -/
structure Tables.Decides (t : Tables) (g : Grammar) (a : Automaton) : Prop where
  shift : ∀ {γ s u s'}, stateAfter a.step γ = some s → u < g.terminals.size →
    a.step s (.terminal u) = some s' → t.action s u = .shift s'
  reduce : ∀ {γ s u p}, stateAfter a.step γ = some s → Ahead g γ (.completed g p) u →
    t.action s u = .reduce p
  accept : ∀ {γ s i}, stateAfter a.step γ = some s → Viable g γ i →
    i.next g = some (.terminal Symbol.endOfInput) → t.action s Symbol.endOfInput = .accept
  default : ∀ {s u p}, t.defaultReduction s = some p → t.action s u ≠ .error →
    t.action s u = .reduce p

theorem decides_generate (wf : g.WellFormed) (hf : a.Faithful g) (hc : a.Covers g)
    (h : (Table.generate g a).conflicts = []) :
    (Tables.ofTable (Table.generate g a)).Decides g a where
  shift := by
    intro γ s u s' hs hu hstep
    obtain ⟨st, hst, -⟩ := hf.state γ s hs
    exact Table.action_of_step h hst hu hstep
  reduce := by
    intro γ s u p hs hahead
    obtain ⟨st, hst, -, hd⟩ := hf.state γ s hs
    obtain ⟨⟨q, l⟩, hl, rfl⟩ := List.mem_map.mp ((hd.completed p).mpr hahead.viable)
    exact Table.action_of_reduces h hst (wf.ahead_lt hahead) hl
      (hc γ s st q l u hs hst hl hahead)
  accept := by
    intro γ s i hs hi hnext
    obtain ⟨st, hst, -, hd⟩ := hf.state γ s hs
    refine Table.action_of_shiftOn h hst wf.terminals_pos
      (Table.shiftOn_eq_some.mpr (Or.inr ⟨rfl, rfl, hd.accepts.mpr ⟨i, hi, hnext⟩, ?_⟩))
    rw [Option.eq_none_iff_forall_ne_some]
    intro s' hs'
    exact ((hd.moves _).mp ⟨s', hs'⟩).1 rfl
  default := Table.action_of_defaultReduction

def Named (t : Tables) (g : Grammar) (e : Nat × Token V) : Prop :=
  t.terminal? e.2.name = some e.1 ∧ e.1 ≠ Symbol.endOfInput ∧ e.1 < g.terminals.size

def nextTerminal (t : Tables) (rest : List (Token V)) : Option Nat :=
  match rest with
  | [] => some Symbol.endOfInput
  | token :: _ => t.terminal? token.name

theorem Reads.terminal_eq {t : Tables} {la : Lookahead V} {input : Source V}
    {rest : List (Token V)} (h : Reads t la input rest) : la.terminal = nextTerminal t rest := by
  cases h with
  | token token rest => rfl
  | ending hterminal _ => exact hterminal

def Comes (t : Tables) (rest : List (Token V)) (v : List Nat) : Prop :=
  v.map some <+: rest.map (fun token => t.terminal? token.name) ++ [some Symbol.endOfInput]

namespace Comes

variable {t : Tables} {token : Token V} {rest : List (Token V)} {u : Nat} {v : List Nat}

theorem next (h : Comes t rest (u :: v)) : nextTerminal t rest = some u := by
  cases rest with
  | nil => exact (List.cons_prefix_cons.mp h).1.symm
  | cons token rest => exact (List.cons_prefix_cons.mp h).1.symm

theorem tail (h : Comes t (token :: rest) (u :: v)) : Comes t rest v :=
  (List.cons_prefix_cons.mp h).2

end Comes

def Event.context? : Event V P → Option (Context V P)
  | .reduce c => some c
  | .shift _ => none
  | .recover _ _ => none

def reductionContexts (history : List (Config V P × Move V P)) : List (Context V P) :=
  history.filterMap fun m => m.2.event?.bind Event.context?

theorem reductions_eq (history : List (Config V P × Move V P)) :
    reductions history = (reductionContexts history).map (·.production) := by
  rw [reductions, reductionContexts, List.map_filterMap]
  congr 1
  funext m
  cases m.2 with
  | next e c => cases e <;> rfl
  | stop outcome c => rfl

def Config.store (c : Config V P) (rest : List (Token V)) : Store V P :=
  ⟨rest, c.entries, c.params⟩

/-- The symbols on the stack of a configuration, the latest first, and the tokens that it has
not read. -/
structure Stands (a : Automaton) (t : Tables) (c : Config V P) (δ : List Symbol)
    (rest : List (Token V)) : Prop where
  stacked : Stacked a δ c.states
  pending : Pending t c rest

theorem stands_start (t : Tables) (tokens : List (Token V)) (params : P) :
    Stands a t (start (tokens.map .ok) params) [] tokens := ⟨.base, pending_start t tokens params⟩

section Moves

variable {parser : Parser V P} (env : Environment V P) (hf : a.Faithful g)
  (hd : parser.tables.Decides g a) {c : Config V P} {δ : List Symbol} {rest : List (Token V)}
  {u : Nat}

theorem exists_action_of_default {s : Nat} (hdefault : ∀ p,
      parser.tables.defaultReduction s = some p → parser.tables.action s u ≠ .error →
        parser.tables.action s u = .reduce p)
    (hpending : Pending parser.tables c rest)
    (hu : nextTerminal parser.tables rest = some u) {act : Action}
    (hact : parser.tables.action s u = act) (hne : act ≠ .error) :
    (∃ p, act = .reduce p ∧ parser.tables.defaultReduction s = some p) ∨
    parser.tables.defaultReduction s = none ∧ ∃ la input, parser.look c = .ok (la, input) ∧
      Reads parser.tables la input rest ∧ parser.tables.actionOn s la = act := by
  cases hreduction : parser.tables.defaultReduction s with
  | some p =>
    refine Or.inl ⟨p, ?_, rfl⟩
    rw [← hact] at hne ⊢
    exact hdefault p hreduction hne
  | none =>
    obtain ⟨la, input, hlook, hreads⟩ := hpending.look
    refine Or.inr ⟨rfl, la, input, hlook, hreads, ?_⟩
    rw [Tables.actionOn, hreads.terminal_eq, hu]
    exact hact

theorem exists_action (hd : parser.tables.Decides g a) (hpending : Pending parser.tables c rest)
    (hu : nextTerminal parser.tables rest = some u) {s : Nat} {act : Action}
    (hact : parser.tables.action s u = act) (hne : act ≠ .error) :
    (∃ p, act = .reduce p ∧ parser.tables.defaultReduction s = some p) ∨
    parser.tables.defaultReduction s = none ∧ ∃ la input, parser.look c = .ok (la, input) ∧
      Reads parser.tables la input rest ∧ parser.tables.actionOn s la = act :=
  exists_action_of_default (fun _ => hd.default) hpending hu hact hne

variable (wf : g.WellFormed)

include wf hf hd

theorem Stands.shift (h : Stands a parser.tables c δ rest)
    (hu : nextTerminal parser.tables rest = some u) {i : Item} (hi : Viable g δ i)
    (hnext : i.next g = some (.terminal u)) (hend : u ≠ Symbol.endOfInput) :
    parser.meetsError c = false ∧ ∃ token later la c', rest = token :: later ∧
      parser.step env c = .next (.shift la) c' ∧
      Stands a parser.tables c' (.terminal u :: δ) later ∧
      c'.store later = (c.store rest).taken token later ∧ c'.reported = c.reported := by
  obtain ⟨s, states, hstates, hs⟩ := h.stacked.exists_top
  obtain ⟨st, hst, -, hdescribes⟩ := hf.state δ s hs
  obtain ⟨s', hs'⟩ := (hdescribes.moves _).mpr ⟨by simpa using hend, i, hi, hnext⟩
  have hstep : a.step s (.terminal u) = some s' := by
    rw [Automaton.step, hst]
    exact hs'
  have haction := hd.shift hs (wf.terminal_lt (Item.next_mem hnext)) hstep
  rcases exists_action hd h.pending hu haction (by simp) with
    ⟨p, hp, -⟩ | ⟨hdefault, la, input, hlook, hreads, hon⟩
  · cases hp
  refine ⟨?_, ?_⟩
  · rw [meetsError_eq hstates hdefault hlook, hon]
    rfl
  · cases hreads with
    | ending =>
      cases hu
      exact absurd rfl hend
    | token token later =>
      refine ⟨token, later, _, _, rfl, step_shift hstates hdefault hlook hon, ⟨?_, ?_⟩, rfl, rfl⟩
      · have hδ := h.stacked
        rw [hstates] at hδ
        rw [shifted, hstates]
        exact .push hδ hstep
      · exact Or.inl ⟨rfl, rfl⟩

theorem Stands.reduce {p : Nat}
    (h : Stands a parser.tables c ((g.production p).right.toList.reverse ++ δ) rest)
    (hu : nextTerminal parser.tables rest = some u)
    (hahead : Ahead g ((g.production p).right.toList.reverse ++ δ) (.completed g p) u) :
    parser.meetsError c = false ∧ ∃ c₁ state deeper next,
      parser.step env c = parser.reduce env c₁ p ∧ c₁.store rest = c.store rest ∧
      c₁.reported = c.reported ∧ Pending parser.tables c₁ rest ∧
      c₁.states.drop (g.production p).right.size = state :: deeper ∧
      a.step state (.nonterminal (g.production p).left) = some next ∧
      Stacked a (.nonterminal (g.production p).left :: δ) (next :: state :: deeper) := by
  obtain ⟨s, states, hstates, hs⟩ := h.stacked.exists_top
  obtain ⟨st, hst, -, hdescribes⟩ := hf.state _ s hs
  have hmem := (hdescribes.completed p).mpr hahead.viable
  have hδ := h.stacked
  rw [hstates] at hδ
  obtain ⟨γ, state, deeper, next, hγ, hdrop, hγ', hgoto⟩ := exists_goto wf hf hδ hst hmem
  obtain rfl : δ = γ := List.append_cancel_left hγ
  rw [← hstates] at hdrop
  rcases exists_action hd h.pending hu (hd.reduce hs hahead) (by simp) with
    ⟨q, hq, hdefault⟩ | ⟨hdefault, la, input, hlook, hreads, hon⟩
  · cases hq
    exact ⟨meetsError_default hstates hdefault, c, state, deeper, next,
      step_default hstates hdefault, rfl, rfl, h.pending, hdrop, hgoto, .push hγ' hgoto⟩
  · refine ⟨?_, { c with lookahead := some la, input := input }, state, deeper, next,
      step_reduce hstates hdefault hlook hon, rfl, rfl, Or.inr ⟨la, rfl, hreads⟩, hdrop, hgoto,
      .push hγ' hgoto⟩
    rw [meetsError_eq hstates hdefault hlook, hon]
    rfl

variable (ht : parser.tables.Realizes g a) {δ' : List Symbol} {v v' : List Nat} {act : Act}
  {acts : List Act}

include ht

/-- The first act of a plan meets no error. Unless an action ends the run, the engine performs
it and goes on with the rest of the plan. -/
theorem Stands.follow (h : Stands a parser.tables c δ rest) (hv : Comes parser.tables rest v)
    (hplan : Plan g δ v (act :: acts) δ' v') :
    parser.meetsError c = false ∧
    (Plain parser.actions → ∃ e c', parser.step env c = .next e c') ∧
    ∀ e c', parser.step env c = .next e c' → ∃ δ₁ v₁ rest₁, Stands a parser.tables c' δ₁ rest₁ ∧
      Comes parser.tables rest₁ v₁ ∧ Plan g δ₁ v₁ acts δ' v' ∧
      rest₁.length + v.length = rest.length + v₁.length ∧ c'.reported = c.reported ∧
      ∀ contexts s, Performs g parser.actions env.nested (c'.store rest₁) acts contexts s →
        Performs g parser.actions env.nested (c.store rest) (act :: acts)
          (e.context?.toList ++ contexts) s := by
  cases hplan with
  | @shift _ _ i t v _ _ hi hnext hend hplan =>
    obtain ⟨hclean, token, later, la, c', rfl, hstep, hstands, hstore, hreported⟩ :=
      h.shift env hf hd wf hv.next hi hnext hend
    refine ⟨hclean, fun _ => ⟨_, _, hstep⟩, fun e d hnext => ?_⟩
    rw [hstep] at hnext
    cases hnext
    refine ⟨_, v, later, hstands, hv.tail, hplan, ?_, hreported, fun contexts s hrest => ?_⟩
    · simp only [List.length_cons]
      omega
    · rw [hstore] at hrest
      exact .shift rfl hrest
  | @reduce δ _ p t v _ _ hahead hplan =>
    obtain ⟨hclean, c₁, state, deeper, next, hstep, hstore, hreported, hpending, hdrop, hgoto,
      hstacked⟩ := h.reduce env hf hd wf hv.next hahead
    refine ⟨hclean, fun plain => ?_, fun e d hnext => ?_⟩
    · obtain ⟨_, _, -, hreduce⟩ := reduce_next env ht plain hdrop hgoto
      exact ⟨_, _, hstep.trans hreduce⟩
    · rw [hstep] at hnext
      obtain ⟨state', deeper', next', value, after, hdrop', hgoto', hrun, rfl, rfl⟩ :=
        reduced_of_next ht hnext
      rw [hdrop] at hdrop'
      cases hdrop'
      rw [hgoto] at hgoto'
      cases hgoto'
      refine ⟨_, t :: v, rest, ⟨?_, hpending⟩, hv, hplan, rfl, hreported,
        fun contexts s hrest => ?_⟩
      · rw [reduced, hdrop]
        exact hstacked
      · have hcontext : contextOf g c₁ p = (c₁.store rest).context g p := rfl
        rw [hcontext, hstore] at hrun
        rw [Event.context?, hcontext, hstore]
        refine .reduce hrun ?_
        rw [← hstore]
        exact hrest

end Moves

structure Runs (g : Grammar) (parser : Parser V P) (env : Environment V P) (c : Config V P)
    (rest : List (Token V)) (hist : List (Config V P × Move V P)) (d : Config V P)
    (rest' : List (Token V)) (acts : List Act) : Prop where
  steps : Steps parser env c hist d
  clean : ∀ m ∈ hist, parser.meetsError m.1 = false
  reported : d.reported = c.reported
  performs : Performs g parser.actions env.nested (c.store rest) acts (reductionContexts hist)
    (d.store rest')

theorem plan_runs {parser : Parser V P} (env : Environment V P) (wf : g.WellFormed)
    (hf : a.Faithful g) (ht : parser.tables.Realizes g a) (hd : parser.tables.Decides g a)
    (plain : Plain parser.actions) {c : Config V P} {δ δ' : List Symbol} {v v' : List Nat}
    {rest : List (Token V)} {acts : List Act} (h : Stands a parser.tables c δ rest)
    (hv : Comes parser.tables rest v) (hplan : Plan g δ v acts δ' v') :
    ∃ hist d rest', Runs g parser env c rest hist d rest' acts ∧
      Stands a parser.tables d δ' rest' ∧ Comes parser.tables rest' v' ∧
      rest'.length + v.length = rest.length + v'.length := by
  induction acts generalizing c δ v rest with
  | nil =>
    cases hplan
    exact ⟨[], c, rest, ⟨.refl c, by simp, rfl, .done _⟩, h, hv, rfl⟩
  | cons act acts ih =>
    obtain ⟨hclean, hnext, hfollow⟩ := h.follow env hf hd wf ht hv hplan
    obtain ⟨e, c', hstep⟩ := hnext plain
    obtain ⟨δ₁, v₁, rest₁, hstands, hv₁, hplan₁, hlength, hreported, hperforms⟩ :=
      hfollow e c' hstep
    obtain ⟨hist, d, rest', hruns, hd', hv', hlength'⟩ := ih hstands hv₁ hplan₁
    refine ⟨(c, .next e c') :: hist, d, rest',
      ⟨.head hstep hruns.steps, ?_, hruns.reported.trans hreported, ?_⟩, hd', hv', by omega⟩
    · rw [List.forall_mem_cons]
      exact ⟨hclean, hruns.clean⟩
    · have hcontexts : reductionContexts ((c, .next e c') :: hist) =
          e.context?.toList ++ reductionContexts hist := by
        cases he : e.context? <;> simp [reductionContexts, Move.event?, he]
      rw [hcontexts]
      exact hperforms _ _ hruns.performs

/-- Every run with enough fuel ends successfully, meets no error, reports none, and reduces the
given productions. -/
def Accepts (parser : Parser V P) (env : Environment V P) (c : Config V P) (ps : List Nat) :
    Prop :=
  ∃ n, ∀ fuel, n ≤ fuel → ∃ r v, parser.run env fuel c = some r ∧
    r.outcome = .ok v ∧ r.reported = [] ∧
    (∀ step ∈ parser.history env fuel c, parser.meetsError step.1 = false) ∧
    reductions (parser.history env fuel c) = ps

theorem Accepts.unique {parser : Parser V P} {env : Environment V P} {c : Config V P}
    {ps qs : List Nat} (hps : Accepts parser env c ps) (hqs : Accepts parser env c qs) :
    ps = qs := by
  obtain ⟨n, hn⟩ := hps
  obtain ⟨k, hk⟩ := hqs
  obtain ⟨_, _, -, -, -, -, hp⟩ := hn (max n k) (Nat.le_max_left n k)
  obtain ⟨_, _, -, -, -, -, hq⟩ := hk (max n k) (Nat.le_max_right n k)
  exact hp.symm.trans hq

theorem comes_of_named {t : Tables} {w : List (Nat × Token V)} (h : ∀ e ∈ w, Named t g e) :
    Comes t (w.map (·.2)) (w.map (·.1) ++ [Symbol.endOfInput]) := by
  have hmap : (w.map (·.1)).map some = (w.map (·.2)).map fun token => t.terminal? token.name := by
    rw [List.map_map, List.map_map]
    exact List.map_congr_left fun e he => (h e he).1.symm
  rw [Comes, List.map_append, hmap]
  exact List.prefix_rfl

theorem tree_runs {parser : Parser V P} (env : Environment V P) (wf : g.WellFormed)
    (hf : a.Faithful g) (ht : parser.tables.Realizes g a) (hd : parser.tables.Decides g a)
    (plain : Plain parser.actions) {α : Type} {trees : List (Tree α)}
    {w : List (Nat × α)} {ps : List Nat} (h : g.Yields trees [.nonterminal g.start] w ps)
    {tokens : List (Token V)} (hlength : tokens.length = w.length)
    (hcomes : Comes parser.tables tokens (w.map (·.1) ++ [Symbol.endOfInput])) (params : P) :
    ∃ hist d d', Runs g parser env (start (tokens.map .ok) params) tokens hist d []
        (Tree.actsOf trees) ∧ parser.meetsError d = false ∧ d'.reported = d.reported ∧
      parser.step env d = .stop (.ok (d.entries.head?.bind (·.value))) d' := by
  have hdrop : ((Item.start 0).right g).drop (Item.start 0).index =
      [.nonterminal g.start] ++ [.terminal Symbol.endOfInput] := by
    simp [Item.right, Item.start, wf.right_zero]
  have hexpects : Expects g [] (.start 0) [.terminal Symbol.endOfInput] Symbol.endOfInput :=
    Or.inl (wf.mem_prefixes_cons.mpr (Or.inl (.terminal _)))
  have hend : ∀ e ∈ w, e.1 ≠ Symbol.endOfInput := by
    intro e he heq
    exact (h.proper wf (by simpa using wf.start_proper) e he).1 heq
  have hplan := yields_plan wf h hend .start hdrop hexpects []
  obtain ⟨hist, d, rest, hruns, hstands, hcomes, hread⟩ :=
    plan_runs env wf hf ht hd plain (stands_start _ _ params) hcomes hplan
  obtain ⟨s, states, hstates, hs⟩ := hstands.stacked.exists_top
  have haction := hd.accept hs wf.viable_accept (by simp [Item.next, wf.right_zero])
  rcases exists_action hd hstands.pending hcomes.next haction (by simp) with
    ⟨p, hp, -⟩ | ⟨hdefault, la, input, hlook, hreads, hon⟩
  · cases hp
  obtain rfl : rest = [] := by
    simp only [List.length_append, List.length_map, List.length_singleton] at hread
    exact List.length_eq_zero_iff.mp (by omega)
  refine ⟨hist, d, { d with lookahead := none, input := input }, hruns, ?_, rfl,
    step_accept hstates hdefault hlook hon⟩
  rw [meetsError_eq hstates hdefault hlook, hon]
  rfl

theorem Runs.accepts {parser : Parser V P} {env : Environment V P} {α : Type}
    {trees : List (Tree α)} {w : List (Nat × α)} {ps : List Nat} {tokens : List (Token V)}
    {params : P} {hist : List (Config V P × Move V P)} {d d' : Config V P} {v : Option V}
    (hruns : Runs g parser env (start (tokens.map .ok) params) tokens hist d []
      (Tree.actsOf trees)) (h : g.Yields trees [.nonterminal g.start] w ps)
    (hclean : parser.meetsError d = false) (hreported : d'.reported = d.reported)
    (hstop : parser.step env d = .stop (.ok v) d') :
    Accepts parser env (start (tokens.map .ok) params) ps := by
  refine ⟨hist.length + 1, fun fuel hfuel => ?_⟩
  obtain ⟨hrun, hhistory⟩ := hruns.steps.run hstop hfuel
  refine ⟨_, _, hrun, rfl, ?_, ?_, ?_⟩
  · simp [hreported, hruns.reported, start]
  · rw [hhistory]
    intro m hm
    rcases List.mem_append.mp hm with hm | hm
    · exact hruns.clean m hm
    · cases List.mem_singleton.mp hm
      exact hclean
  · have hreductions : reductions hist = ps := by
      rw [reductions_eq, hruns.performs.productions, h.reductionsOf_acts]
    rw [hhistory, ← hreductions]
    simp [reductions, Move.event?]

theorem tree_accepted {parser : Parser V P} (env : Environment V P) (wf : g.WellFormed)
    (hf : a.Faithful g) (ht : parser.tables.Realizes g a) (hd : parser.tables.Decides g a)
    (plain : Plain parser.actions) {trees : List (Tree (Token V))}
    {w : List (Nat × Token V)} {ps : List Nat}
    (h : g.Yields trees [.nonterminal g.start] w ps)
    (hnames : ∀ e ∈ w, Named parser.tables g e) (params : P) :
    Accepts parser env (start ((w.map (·.2)).map .ok) params) ps := by
  obtain ⟨hist, d, d', hruns, hclean, hreported, hstop⟩ :=
    tree_runs env wf hf ht hd plain h (List.length_map _) (comes_of_named hnames) params
  exact hruns.accepts h hclean hreported hstop

theorem named_of_yields (wf : g.WellFormed) {trees : List (Tree (Token V))} {word : List Nat}
    {tokens : List (Token V)} {ps : List Nat}
    (h : g.Yields trees [.nonterminal g.start] (word.zip tokens) ps)
    (hnames : tokens.map (·.name) = word.map g.terminalName) :
    ∀ e ∈ word.zip tokens, Named (Tables.ofTable (Table.generate g a)) g e := by
  intro e he
  have hproper := h.proper wf (by simpa using wf.start_proper) e he
  refine ⟨?_, hproper⟩
  have hname : e.2.name = g.terminalName e.1 := by
    obtain ⟨i, hi⟩ := List.mem_iff_getElem?.mp he
    rw [List.getElem?_zip_eq_some] at hi
    have hget := congrArg (·[i]?) hnames
    simp only [List.getElem?_map, hi.1, hi.2, Option.map_some, Option.some.injEq] at hget
    exact hget
  rw [hname]
  exact Table.terminal?_terminalName wf hproper.2

/-- Over a table without conflicts the engine accepts whatever the start symbol derives,
meeting no error and reporting none. It reduces the productions of the rightmost derivation in
reverse, of which there is only one. -/
theorem derived_accepted (hg : g.Defined) {m : Method} (ha : m.automaton g = .ok a)
    (hconflicts : (Table.generate g a).conflicts = []) {actions : Actions V P}
    (plain : Plain actions) (env : Environment V P) {word : List Nat}
    (hderives : g.Derives [.nonterminal g.start] (word.map .terminal))
    (tokens : List (Token V)) (hnames : tokens.map (·.name) = word.map g.terminalName)
    (params : P) :
    let parser : Parser V P := ⟨.ofTable (Table.generate g a), actions⟩
    ∃ ps, g.Rightmost [.nonterminal g.start] ps (word.map .terminal) ∧
      (∀ qs, g.Rightmost [.nonterminal g.start] qs (word.map .terminal) → qs = ps) ∧
      Accepts parser env (start (tokens.map .ok) params) ps.reverse := by
  intro parser
  have wf := hg.wellFormed
  obtain ⟨hf, hc⟩ := Method.automaton_spec wf ha
  have ht : parser.tables.Realizes g a := realizes_generate
  have hd : parser.tables.Decides g a := decides_generate wf hf hc hconflicts
  have hlen : tokens.length = word.length := by simpa using congrArg List.length hnames
  have hsnd : (word.zip tokens).map (·.2) = tokens := List.map_snd_zip (by omega)
  have hfst : (word.zip tokens).map (fun e => Symbol.terminal e.1) = word.map .terminal := by
    have hzip : (word.zip tokens).map (·.1) = word := List.map_fst_zip (by omega)
    conv_rhs => rw [← hzip, List.map_map]
    rfl
  rw [← hfst] at hderives ⊢
  -- every forest of the word, whatever it completes, is accepted by the one run
  have accepted : ∀ trees ps, g.Yields trees [.nonterminal g.start] (word.zip tokens) ps →
      Accepts parser env (start (tokens.map .ok) params) ps := by
    intro trees ps h
    have htree := tree_accepted env wf hf ht hd plain h (named_of_yields wf h hnames) params
    rwa [hsnd] at htree
  obtain ⟨trees, ps, hyields⟩ := hderives.exists_yields
  have hrightmost := hyields.rightmost [] []
  simp only [List.nil_append, List.map_nil, List.append_nil] at hrightmost
  refine ⟨ps.reverse, hrightmost, fun qs hqs => ?_, ?_⟩
  · obtain ⟨trees', hyields'⟩ := hqs.exists_yields
    have heq := (accepted trees' _ hyields').unique (accepted trees ps hyields)
    rw [← heq, List.reverse_reverse]
  · rw [List.reverse_reverse]
    exact accepted trees ps hyields

theorem parentheses_accepted :
    (Table.generate .parentheses .parentheses).conflicts = [] ∧
    Grammar.parentheses.Derives [.nonterminal 1] ([2, 2, 3, 3].map .terminal) ∧
    ∃ ps, Grammar.parentheses.Rightmost [.nonterminal 1] ps ([2, 2, 3, 3].map .terminal) ∧
      Accepts (⟨.ofTable (.generate .parentheses .parentheses), #[]⟩ : Parser Nat Unit) silent
        (start ((tokensOf ["(", "(", ")", ")"]).map .ok) ()) ps.reverse := by
  have hconflicts : (Table.generate .parentheses .parentheses).conflicts = [] := by
    cbv
  have hderives : Grammar.parentheses.Derives [.nonterminal 1] ([2, 2, 3, 3].map .terminal) :=
    .head (.rule (p := 1) [] [] (by decide))
      (.head (.rule (p := 1) [.terminal 2] [.terminal 3] (by decide))
        (.single (.rule (p := 2) [.terminal 2, .terminal 2] [.terminal 3, .terminal 3]
          (by decide))))
  have hplain : Plain (#[] : Actions Nat Unit) := by
    intro action haction
    simp at haction
  obtain ⟨ps, hrightmost, -, haccepts⟩ := derived_accepted Grammar.parentheses_defined
    Method.merged_parentheses hconflicts hplain silent hderives
    (tokensOf ["(", "(", ")", ")"]) (by decide) ()
  exact ⟨hconflicts, hderives, ps, hrightmost, haccepts⟩

end ShiftReduce

end TableParsing
