import TableParsing.Proofs.Engine.Completeness
import TableParsing.Proofs.Engine.Replay

/-! Default reductions are transparent. A run with them makes the same steps as one without
until the latter meets an error. From then on it only reduces: a terminal that can be read
after a reduction is in the look-ahead set of the reduction, so that what the table rejects
before a default reduction is still rejected after it. -/

namespace TableParsing

/-- The terminal can come next after the prefix. -/
def Readable (g : Grammar) (γ : List Symbol) (u : Nat) : Prop :=
  ∃ i, Viable g γ i ∧ Expects g γ i ((i.right g).drop i.index) u

section Readable

variable {g : Grammar} (wf : g.WellFormed) {γ : List Symbol} {u : Nat}

include wf

theorem readable_of_next {i : Item} (hi : Viable g γ i) (hnext : i.next g = some (.terminal u)) :
    Readable g γ u :=
  ⟨i, hi, Or.inl ((wf.mem_first_drop hnext).mpr (Or.inl (.terminal u)))⟩

omit wf in
theorem readable_of_ahead {p : Nat} (h : Ahead g γ (.completed g p) u) : Readable g γ u := by
  refine ⟨_, h.viable, Or.inr ⟨?_, h⟩⟩
  have hdrop : (Item.right g (.completed g p)).drop (Item.completed g p).index = [] := by
    simp [Item.right, Item.completed]
  rw [hdrop]
  rfl

theorem nullable_of_right {n p : Nat} (hp : p ∈ g.productionsOf n)
    (h : (g.prefixes ((Item.right g (.start p)).drop (Item.start p).index)).nullable = true) :
    g.Nullable (.nonterminal n) := by
  obtain ⟨hlt, rfl⟩ := Grammar.mem_productionsOf.mp hp
  apply wf.nullable_left hlt
  intro x hx
  apply Grammar.nullable_prefixes.mp h x
  simpa [Item.right, Item.start] using hx

theorem follows_of_readable {n : Nat} (h : Readable g (.nonterminal n :: γ) u) :
    Follows g γ n u := by
  have first : ∀ i, Viable g (.nonterminal n :: γ) i →
      u ∈ (g.prefixes ((i.right g).drop i.index)).first → Follows g γ n u := by
    intro i hi hu
    obtain ⟨j, hj, hnext, htail⟩ := wf.first_before hi hu
    exact ⟨j, hj, hnext, Or.inl htail⟩
  obtain ⟨i, hi, hfirst | ⟨hnull, hahead⟩⟩ := h
  · exact first i hi hfirst
  · -- the item may be completed at once: go back to the one that needed it
    clear hi
    generalize hδ : Symbol.nonterminal n :: γ = δ at hahead
    induction hahead with
    | @advance γ' j x u' hj hx hend ih =>
      cases hδ
      refine ⟨j, hj.viable, hx, Or.inr ⟨?_, hj⟩⟩
      rw [Item.tail_eq]
      exact hnull
    | @first γ' j m p u' hj hm hp hu =>
      subst hδ
      have hnullable := nullable_of_right wf hp hnull
      exact first j hj ((wf.mem_first_drop hm).mpr (Or.inr ⟨hnullable, hu⟩))
    | @inherit γ' j m p u' hj hm hp htail ih =>
      have hnullable := nullable_of_right wf hp hnull
      refine ih first ?_ hδ
      rw [Item.tail_eq, Grammar.nullable_prefixes] at htail
      rw [Item.drop_eq hm, Grammar.nullable_prefixes, List.forall_mem_cons]
      exact ⟨hnullable, htail⟩

theorem not_readable_of_reduction {p : Nat} (hp : p ≠ 0) (hlt : p < g.productions.size)
    (h : ¬ Ahead g ((g.production p).right.toList.reverse ++ γ) (.completed g p) u) :
    ¬ Readable g (.nonterminal (g.production p).left :: γ) u := by
  intro hreadable
  have hfollows := follows_of_readable wf hreadable
  have hahead := hfollows.ahead (Grammar.mem_productionsOf.mpr ⟨hlt, rfl⟩)
  exact h (wf.ahead_completed hahead hp)

end Readable

theorem resolve_action_ne_none {g : Grammar} {s t p : Nat} {shift : Option Action}
    {reduces : List Nat} (h : p ∈ reduces) : (resolve g s t shift reduces).action ≠ none := by
  simp only [resolve]
  split
  case h_1 hnil =>
    rw [← mem_candidates, hnil] at h
    cases h
  case h_2 => split <;> simp

namespace ShiftReduce

variable {V P : Type} {g : Grammar} {a : Automaton}

/-- A default reduction stands for every action of its state, and for nothing that can come
next besides. -/
structure Tables.Defaulting (t : Tables) (g : Grammar) (a : Automaton) : Prop where
  action : ∀ {s u p : Nat}, t.defaultReduction s = some p → t.action s u ≠ .error →
    t.action s u = .reduce p
  absent : ∀ {γ : List Symbol} {s u p : Nat}, stateAfter a.step γ = some s →
    t.defaultReduction s = some p → t.action s u = .error → ¬ Ahead g γ (.completed g p) u

theorem defaulting_generate (wf : g.WellFormed) (hf : a.Faithful g) (hc : a.Covers g) :
    (Tables.ofTable (Table.generate g a)).Defaulting g a where
  action := Table.action_of_defaultReduction
  absent := by
    intro γ s u p hs hdefault herror hahead
    have hu := wf.ahead_lt hahead
    obtain ⟨st, hst, -, hall⟩ := Table.defaultReduction_eq_some.mp hdefault
    have hd := hf.describes hs hst
    obtain ⟨⟨q, l⟩, hl, rfl⟩ := List.mem_map.mp ((hd.completed p).mpr hahead.viable)
    have hmem : q ∈ Table.reducesOn st u :=
      Table.mem_reducesOn.mpr ⟨l, hl, hc γ s st q l u hs hst hl hahead⟩
    obtain ⟨act, hact⟩ := Option.ne_none_iff_exists'.mp (resolve_action_ne_none hmem)
    obtain rfl := hall u act hu hact
    have haction : (Table.generate g a).action s u = .reduce q := by
      rw [Table.action_generate hst, if_pos hu, Table.entry, hact]
      rfl
    rw [show (Tables.ofTable (Table.generate g a)).action s u = .reduce q from haction] at herror
    cases herror

def Tables.withoutDefaults (t : Tables) : Tables := { t with defaultReduction := fun _ => none }

def Parser.withoutDefaults (parser : Parser V P) : Parser V P :=
  { parser with tables := parser.tables.withoutDefaults }

theorem Tables.Realizes.withoutDefaults {parser : Parser V P} (h : parser.tables.Realizes g a) :
    parser.withoutDefaults.tables.Realizes g a where
  shift := h.shift
  reduce := h.reduce
  accept := h.accept
  default hdefault := by cases hdefault
  goto := h.goto
  production := h.production

def answer (actions : Actions V P) (nested : Nested V P) (context : Context V P) :
    Reply V × Location × P :=
  let r := actions.run nested context
  (r.1, r.2.location, r.2.params)

/-- The actions answer the reductions of a history alike in either surroundings. -/
def AnswersAlike (actions : Actions V P) (env env' : Environment V P)
    (history : List (Config V P × Move V P)) : Prop :=
  ∀ c context c', (c, Move.next (.reduce context) c') ∈ history →
    answer actions env.nested context = answer actions env'.nested context

/-- Configurations that differ only in whether the next token was read. -/
structure Alike (t : Tables) (rest : List (Token V)) (c c' : Config V P) : Prop where
  states : c.states = c'.states
  entries : c.entries = c'.entries
  params : c.params = c'.params
  recovering : c.recovering = c'.recovering
  reported : c.reported = c'.reported
  pending : Pending t c rest
  pending' : Pending t c' rest

theorem alike_start (t : Tables) (tokens : List (Token V)) (params : P) :
    Alike t tokens (start (tokens.map .ok) params) (start (tokens.map .ok) params) :=
  ⟨rfl, rfl, rfl, rfl, rfl, pending_start t tokens params, pending_start t tokens params⟩

section Simulation

variable {parser : Parser V P} {env env' : Environment V P} {c c' : Config V P}
  {rest : List (Token V)}

theorem Alike.held (h : Alike parser.tables rest c c') {la' : Lookahead V} {input' : Source V}
    (hreads' : Reads parser.tables la' input' rest) :
    Alike parser.tables rest c { c' with lookahead := some la', input := input' } :=
  ⟨h.states, h.entries, h.params, h.recovering, h.reported, h.pending, Or.inr ⟨la', rfl, hreads'⟩⟩

theorem Alike.hold (h : Alike parser.tables rest c c') {la : Lookahead V} {input : Source V}
    (hreads : Reads parser.tables la input rest) :
    Alike parser.tables rest { c with lookahead := some la, input := input } c' :=
  ⟨h.states, h.entries, h.params, h.recovering, h.reported, Or.inr ⟨la, rfl, hreads⟩, h.pending'⟩

theorem Alike.action (hd : parser.tables.Defaulting g a) (h : Alike parser.tables rest c c')
    {s : Nat} {la' : Lookahead V} {input' : Source V}
    (hreads' : Reads parser.tables la' input' rest)
    (hne : parser.tables.actionOn s la' ≠ .error) :
    (∃ p, parser.tables.defaultReduction s = some p ∧
      parser.tables.actionOn s la' = .reduce p) ∨
    parser.tables.defaultReduction s = none ∧ ∃ la input, parser.look c = .ok (la, input) ∧
      Reads parser.tables la input rest ∧
      parser.tables.actionOn s la = parser.tables.actionOn s la' := by
  cases hdefault : parser.tables.defaultReduction s with
  | some p =>
    obtain ⟨u, hu, haction⟩ := Tables.actionOn_eq rfl hne
    rw [← haction] at hne ⊢
    exact Or.inl ⟨p, rfl, hd.action hdefault hne⟩
  | none =>
    obtain ⟨la, input, hlook, hreads⟩ := h.pending.look
    refine Or.inr ⟨rfl, la, input, hlook, hreads, ?_⟩
    simp only [Tables.actionOn, hreads.terminal_eq, hreads'.terminal_eq]

theorem Alike.clean (h : Alike parser.tables rest c c') {s : Nat} {states : List Nat}
    (hstates : c.states = s :: states) {la' : Lookahead V} {input' : Source V}
    (hreads' : Reads parser.tables la' input' rest)
    (hne : parser.tables.actionOn s la' ≠ .error) : parser.meetsError c = false := by
  obtain ⟨la, input, hlook, hreads⟩ := h.pending.look
  apply meetsError_eq_false hstates hlook
  rwa [Tables.actionOn, hreads.terminal_eq, ← hreads'.terminal_eq]

theorem shift_alike (h : Alike parser.tables rest c c') {la la' : Lookahead V}
    {input input' : Source V} (hreads : Reads parser.tables la input rest)
    (hreads' : Reads parser.tables la' input' rest) {token : Token V}
    (htoken : la'.token = some token) (next : Nat) : la = la' ∧ ∃ later,
      Alike parser.tables later (shifted c la input next) (shifted c' la' input' next) := by
  cases hreads' with
  | ending _ hnone =>
    rw [hnone] at htoken
    cases htoken
  | token token later =>
    cases hreads with
    | token =>
      refine ⟨rfl, later, ?_, ?_, h.params, ?_, h.reported, Or.inl ⟨rfl, rfl⟩, Or.inl ⟨rfl, rfl⟩⟩
      · simp only [shifted, h.states]
      · simp only [shifted, h.entries]
      · simp only [shifted, h.recovering]

variable (wf : g.WellFormed) (hf : a.Faithful g) (ht : parser.tables.Realizes g a)
  (plain : Plain parser.actions)

include wf hf ht plain

theorem reduce_alike {γ : List Symbol} {s p : Nat} {states : List Nat}
    (hγ : Stacked a γ (s :: states)) (hp : ∃ st, a.states[s]? = some st ∧ p ∈ st.reduces.map (·.1))
    (h : Alike parser.tables rest c c') (hstates : c.states = s :: states)
    (hsame : ∀ context d', parser.withoutDefaults.reduce env' c' p = .next (.reduce context) d' →
      answer parser.actions env.nested context = answer parser.actions env'.nested context) :
    ∃ context d d', parser.reduce env c p = .next (.reduce context) d ∧
      parser.withoutDefaults.reduce env' c' p = .next (.reduce context) d' ∧
      Alike parser.tables rest d d' := by
  obtain ⟨st, hst, hp⟩ := hp
  obtain ⟨δ, state, deeper, next, -, hdrop, -, hgoto⟩ := exists_goto wf hf hγ hst hp
  have hcontext : contextOf g c' p = contextOf g c p := by
    simp only [contextOf, h.entries, h.params]
  rw [← hstates] at hdrop
  have hdrop' := hdrop
  rw [h.states] at hdrop'
  obtain ⟨v, after, hrun, hreduce⟩ := reduce_next env ht plain hdrop hgoto
  have plain' : Plain parser.withoutDefaults.actions := plain
  obtain ⟨v', after', hrun', hreduce'⟩ :=
    reduce_next env' ht.withoutDefaults plain' hdrop' hgoto
  rw [hcontext] at hrun' hreduce'
  have hanswer := hsame _ _ hreduce'
  have hrun'' : parser.actions.run env'.nested (contextOf g c p) = (.value v', after') := hrun'
  simp only [answer, hrun, hrun'', Prod.mk.injEq, Reply.value.injEq] at hanswer
  obtain ⟨rfl, hlocation, hparams⟩ := hanswer
  refine ⟨_, _, _, hreduce, hreduce', ?_, ?_, hparams, h.recovering, h.reported, h.pending,
    h.pending'⟩
  · simp only [reduced, h.states]
  · simp only [reduced, h.entries, hlocation]

variable (hd : parser.tables.Defaulting g a)

include hd

theorem Alike.step (h : Alike parser.tables rest c c') (hc : Reading a c')
    (herror : parser.withoutDefaults.meetsError c' = false)
    (hsame : ∀ context d', parser.withoutDefaults.step env' c' = .next (.reduce context) d' →
      answer parser.actions env.nested context = answer parser.actions env'.nested context) :
    parser.meetsError c = false ∧
    ((∃ outcome d d', parser.step env c = .stop outcome d ∧
      parser.withoutDefaults.step env' c' = .stop outcome d' ∧ d.params = d'.params ∧
      d.reported = d'.reported) ∨
    ∃ e d d' later, parser.step env c = .next e d ∧
      parser.withoutDefaults.step env' c' = .next e d' ∧ Alike parser.tables later d d') := by
  obtain ⟨γ, hγ⟩ := hc.path.stacked
  obtain ⟨s, states, hstates', -⟩ := hγ.exists_top
  have hstates : c.states = s :: states := h.states.trans hstates'
  rw [hstates'] at hγ
  obtain ⟨la', input', hlook', hreads'⟩ := h.pending'.look
  have hbare : parser.withoutDefaults.tables.defaultReduction s = none := rfl
  have hlook'' : parser.withoutDefaults.look c' = .ok (la', input') := hlook'
  have hne : parser.tables.actionOn s la' ≠ .error := by
    rw [meetsError_eq hstates' hbare hlook'', beq_eq_false_iff_ne] at herror
    exact herror
  refine ⟨h.clean hstates hreads' hne, ?_⟩
  -- the same reduction, whether or not the token was read for it
  have reduces : ∀ p c₁, parser.tables.actionOn s la' = .reduce p →
      Alike parser.tables rest c₁ { c' with lookahead := some la', input := input' } →
      c₁.states = s :: states → parser.step env c = parser.reduce env c₁ p →
      ∃ e d d' later, parser.step env c = .next e d ∧
        parser.withoutDefaults.step env' c' = .next e d' ∧ Alike parser.tables later d d' := by
    intro p c₁ haction' halike hstates₁ hstep
    have hstep' : parser.withoutDefaults.step env' c' = _ :=
      step_reduce hstates' hbare hlook'' haction'
    rw [hstep'] at hsame
    obtain ⟨u, -, hu⟩ := Tables.actionOn_eq haction' (by simp)
    obtain ⟨context, d, d', hreduce, hreduce', hlater⟩ :=
      reduce_alike wf hf ht plain hγ (ht.reduce hu) halike hstates₁ hsame
    exact ⟨_, d, d', rest, hstep.trans hreduce, hstep'.trans hreduce', hlater⟩
  rcases h.action hd hreads' hne with ⟨p, hdefault, haction'⟩ |
    ⟨hdefault, la, input, hlook, hreads, hon⟩
  · exact Or.inr (reduces p c haction' (h.held hreads') hstates (step_default hstates hdefault))
  cases haction' : parser.tables.actionOn s la' with
  | error => exact absurd haction' hne
  | shift next =>
    rw [haction'] at hon
    have hstep' : parser.withoutDefaults.step env' c' = .next (.shift la') _ :=
      step_shift hstates' hbare hlook'' haction'
    obtain ⟨token, htoken⟩ := (step_effect hstep').shifts_token hf ht.withoutDefaults hc rfl
    obtain ⟨rfl, later, halike⟩ := shift_alike h hreads hreads' htoken next
    exact Or.inr ⟨_, _, _, later, step_shift hstates hdefault hlook hon, hstep', halike⟩
  | reduce p =>
    rw [haction'] at hon
    exact Or.inr (reduces p _ haction' ((h.held hreads').hold hreads) hstates
      (step_reduce hstates hdefault hlook hon))
  | accept =>
    rw [haction'] at hon
    have hstep : parser.step env c = _ := step_accept hstates hdefault hlook hon
    rw [h.entries] at hstep
    exact Or.inl ⟨_, _, _, hstep, step_accept hstates' hbare hlook'' haction', h.params,
      h.reported⟩

theorem Alike.steps {d' : Config V P} {before : List (Config V P × Move V P)}
    (hsteps : Steps parser.withoutDefaults env' c' before d') (h : Alike parser.tables rest c c')
    (hc : Reading a c') (hclean : ∀ m ∈ before, parser.withoutDefaults.meetsError m.1 = false)
    (hsame : AnswersAlike parser.actions env env' before) :
    ∃ same d later, Steps parser env c same d ∧ same.length = before.length ∧
      events same = events before ∧ (∀ m ∈ same, parser.meetsError m.1 = false) ∧
      Alike parser.tables later d d' ∧ Reading a d' := by
  induction hsteps generalizing c rest with
  | refl c' => exact ⟨[], c, rest, .refl c, rfl, rfl, by simp, h, hc⟩
  | @head c' c₁' d' e before hstep _ ih =>
    rw [List.forall_mem_cons] at hclean
    have hanswer : ∀ context d', parser.withoutDefaults.step env' c' =
        .next (.reduce context) d' →
        answer parser.actions env.nested context = answer parser.actions env'.nested context := by
      intro context d' hreduce
      rw [hstep] at hreduce
      cases hreduce
      exact hsame c' context _ List.mem_cons_self
    obtain ⟨herror, ⟨_, _, _, -, hstop, -⟩ | ⟨e', c₁, _, later, hnext, hnext', halike⟩⟩ :=
      h.step wf hf ht plain hd hc hclean.1 hanswer
    · rw [hstep] at hstop
      cases hstop
    · rw [hstep] at hnext'
      cases hnext'
      have hc₁ := (step_effect hstep).reading wf hf ht.withoutDefaults hc
      obtain ⟨same, d, later', hsteps, hlength, hevents, hsameclean, hfinal⟩ :=
        ih halike hc₁ hclean.2 fun c context d hmem => hsame c context d
          (List.mem_cons_of_mem _ hmem)
      refine ⟨_, d, later', .head hnext hsteps, ?_, ?_, ?_, hfinal⟩
      · rw [List.length_cons, hlength, List.length_cons]
      · exact congrArg (e :: ·) hevents
      · rw [List.forall_mem_cons]
        exact ⟨herror, hsameclean⟩

end Simulation

def OnlyReduces (parser : Parser V P) (history : List (Config V P × Move V P)) : Prop :=
  ∀ m ∈ history, parser.meetsError m.1 = false ∧ ∃ context d, m.2 = .next (.reduce context) d

def Rejects (parser : Parser V P) (env : Environment V P) (rest : List (Token V))
    (c : Config V P) : Prop :=
  (∀ fuel, parser.run env fuel c = none ∧ OnlyReduces parser (parser.history env fuel c)) ∨
    ∃ reducing d, Steps parser env c reducing d ∧ OnlyReduces parser reducing ∧
      parser.meetsError d = true ∧ d.unread = rest

structure Blocked (g : Grammar) (a : Automaton) (t : Tables) (rest : List (Token V))
    (c : Config V P) : Prop where
  path : ∃ γ, Stacked a γ c.states ∧ ∀ u ∈ nextTerminal t rest, ¬ Readable g γ u
  pending : Pending t c rest

section Rejection

variable {parser : Parser V P} {env : Environment V P} {c c' d : Config V P}
  {rest : List (Token V)}

theorem OnlyReduces.cons {context : Context V P} {history : List (Config V P × Move V P)}
    (herror : parser.meetsError c = false) (h : OnlyReduces parser history) :
    OnlyReduces parser ((c, .next (.reduce context) d) :: history) := by
  rw [OnlyReduces, List.forall_mem_cons]
  exact ⟨⟨herror, context, d, rfl⟩, h⟩

theorem Rejects.head {context : Context V P} (herror : parser.meetsError c = false)
    (hstep : parser.step env c = .next (.reduce context) d) (h : Rejects parser env rest d) :
    Rejects parser env rest c := by
  rcases h with hforever | ⟨reducing, d', hsteps, hreducing, hend⟩
  · refine Or.inl fun fuel => ?_
    cases fuel with
    | zero => exact ⟨rfl, by simp [OnlyReduces, Parser.history]⟩
    | succ fuel =>
      obtain ⟨hrun, hreducing⟩ := hforever fuel
      simp only [Parser.run, Parser.history, hstep]
      exact ⟨hrun, hreducing.cons herror⟩
  · exact Or.inr ⟨_, d', .head hstep hsteps, hreducing.cons herror, hend⟩

variable (env) (wf : g.WellFormed) (hf : a.Faithful g) (ht : parser.tables.Realizes g a)
  (plain : Plain parser.actions)

include wf hf ht plain

theorem reduce_blocked {γ : List Symbol} {s p : Nat} {states : List Nat}
    (hγ : Stacked a γ (s :: states)) (hp : ∃ st, a.states[s]? = some st ∧ p ∈ st.reduces.map (·.1))
    (hpending : Pending parser.tables c rest) (hstates : c.states = s :: states)
    (hahead : ∀ u ∈ nextTerminal parser.tables rest, ¬ Ahead g γ (.completed g p) u) :
    ∃ context d, parser.reduce env c p = .next (.reduce context) d ∧
      Blocked g a parser.tables rest d := by
  obtain ⟨st, hst, hp⟩ := hp
  have hdescribes := hf.describes hγ.stateAfter_eq hst
  have hviable := (hdescribes.completed p).mp hp
  obtain ⟨δ, state, deeper, next, rfl, hdrop, hδ, hgoto⟩ := exists_goto wf hf hγ hst hp
  rw [← hstates] at hdrop
  obtain ⟨v, after, -, hreduce⟩ := reduce_next env ht plain hdrop hgoto
  refine ⟨_, _, hreduce, ⟨.nonterminal (g.production p).left :: δ, ?_, ?_⟩, hpending⟩
  · simp only [reduced, hdrop]
    exact .push hδ hgoto
  · intro u hu
    exact not_readable_of_reduction wf (wf.completed hviable).1 (wf.viable_lt hviable)
      (hahead u hu)

namespace Blocked

theorem step (h : Blocked g a parser.tables rest c) : parser.meetsError c = true ∨
    parser.meetsError c = false ∧ ∃ context d, parser.step env c = .next (.reduce context) d ∧
      Blocked g a parser.tables rest d := by
  obtain ⟨γ, hγ, hblocked⟩ := h.path
  obtain ⟨s, states, hstates, hs⟩ := hγ.exists_top
  obtain ⟨st, hst, -, hdescribes⟩ := hf.state γ s hs
  rw [hstates] at hγ
  have hahead : ∀ p, ∀ u ∈ nextTerminal parser.tables rest, ¬ Ahead g γ (.completed g p) u :=
    fun p u hu hahead => hblocked u hu (readable_of_ahead hahead)
  cases hdefault : parser.tables.defaultReduction s with
  | some p =>
    obtain ⟨context, d, hreduce, hd⟩ :=
      reduce_blocked env wf hf ht plain hγ (ht.default hdefault) h.pending hstates (hahead p)
    refine Or.inr ⟨meetsError_default hstates hdefault, context, d, ?_, hd⟩
    rw [step_default hstates hdefault, hreduce]
  | none =>
    obtain ⟨la, input, hlook, hreads⟩ := h.pending.look
    cases haction : parser.tables.actionOn s la with
    | error =>
      rw [meetsError_eq hstates hdefault hlook, haction]
      exact Or.inl rfl
    | shift next =>
      -- a shift goes over the next symbol of some item, so the terminal could be read
      obtain ⟨u, hu, haction⟩ := Tables.actionOn_eq haction (by simp)
      have hstep := ht.shift haction
      rw [Automaton.step, hst] at hstep
      obtain ⟨-, i, hi, hnext⟩ := (hdescribes.moves _).mp ⟨next, hstep⟩
      rw [hreads.terminal_eq] at hu
      exact absurd (readable_of_next wf hi hnext) (hblocked u hu)
    | reduce p =>
      have hne : parser.tables.actionOn s la ≠ .error := by simp [haction]
      obtain ⟨u, -, hu⟩ := Tables.actionOn_eq haction (by simp)
      have hpending : Pending parser.tables { c with lookahead := some la, input := input } rest :=
        Or.inr ⟨la, rfl, hreads⟩
      obtain ⟨context, d, hreduce, hd⟩ :=
        reduce_blocked env wf hf ht plain hγ (ht.reduce hu) hpending hstates (hahead p)
      refine Or.inr ⟨meetsError_eq_false hstates hlook hne, context, d, ?_, hd⟩
      rw [step_reduce hstates hdefault hlook haction, hreduce]
    | accept =>
      obtain ⟨u, hu, haction⟩ := Tables.actionOn_eq haction (by simp)
      obtain ⟨rfl, st', hst', haccepts⟩ := ht.accept haction
      rw [hst] at hst'
      cases hst'
      obtain ⟨i, hi, hnext⟩ := hdescribes.accepts.mp haccepts
      rw [hreads.terminal_eq] at hu
      exact absurd (readable_of_next wf hi hnext) (hblocked _ hu)

theorem runs (h : Blocked g a parser.tables rest c) (fuel : Nat) :
    parser.run env fuel c = none ∧ OnlyReduces parser (parser.history env fuel c) ∨
      ∃ reducing d, Steps parser env c reducing d ∧ OnlyReduces parser reducing ∧
        parser.meetsError d = true ∧ d.unread = rest := by
  induction fuel generalizing c with
  | zero => exact Or.inl ⟨rfl, by simp [OnlyReduces, Parser.history]⟩
  | succ fuel ih =>
    rcases h.step env wf hf ht plain with herror | ⟨herror, context, d, hstep, hd⟩
    · exact Or.inr ⟨[], c, .refl c, by simp [OnlyReduces], herror, h.pending.unread_eq⟩
    · rcases ih hd with ⟨hrun, hreducing⟩ | ⟨reducing, d', hsteps, hreducing, hend⟩
      · simp only [Parser.run, Parser.history, hstep]
        exact Or.inl ⟨hrun, hreducing.cons herror⟩
      · exact Or.inr ⟨_, d', .head hstep hsteps, hreducing.cons herror, hend⟩

theorem rejects (h : Blocked g a parser.tables rest c) : Rejects parser env rest c := by
  by_cases hend : ∃ reducing d, Steps parser env c reducing d ∧ OnlyReduces parser reducing ∧
      parser.meetsError d = true ∧ d.unread = rest
  · exact Or.inr hend
  · exact Or.inl fun fuel => (h.runs env wf hf ht plain fuel).resolve_right hend

end Blocked

/-- Where an error is met without default reductions, it is met with them after some more
reductions at most. -/
theorem Alike.rejects (hd : parser.tables.Defaulting g a) (h : Alike parser.tables rest c c')
    (hc : Reading a c') (herror : parser.withoutDefaults.meetsError c' = true) :
    Rejects parser env rest c := by
  obtain ⟨γ, hγ⟩ := hc.path.stacked
  obtain ⟨s, states, hstates', hs⟩ := hγ.exists_top
  have hstates : c.states = s :: states := h.states.trans hstates'
  rw [hstates'] at hγ
  obtain ⟨la', input', hlook', hreads'⟩ := h.pending'.look
  have hbare : parser.withoutDefaults.tables.defaultReduction s = none := rfl
  have hlook'' : parser.withoutDefaults.look c' = .ok (la', input') := hlook'
  rw [meetsError_eq hstates' hbare hlook'', beq_iff_eq] at herror
  have haction' : parser.tables.actionOn s la' = .error := herror
  cases hdefault : parser.tables.defaultReduction s with
  | none =>
    obtain ⟨la, input, hlook, hreads⟩ := h.pending.look
    refine Or.inr ⟨[], c, .refl c, by simp [OnlyReduces], ?_, h.pending.unread_eq⟩
    rw [meetsError_eq hstates hdefault hlook, beq_iff_eq, Tables.actionOn, hreads.terminal_eq,
      ← hreads'.terminal_eq]
    exact haction'
  | some p =>
    -- the table has no action here, so the token is not in the look-ahead set of the reduction
    have hahead : ∀ u ∈ nextTerminal parser.tables rest, ¬ Ahead g γ (.completed g p) u := by
      intro u hu
      apply hd.absent hs hdefault
      rw [← hreads'.terminal_eq] at hu
      simpa only [Tables.actionOn, Option.mem_def.mp hu] using haction'
    obtain ⟨context, d, hreduce, hblocked⟩ :=
      reduce_blocked env wf hf ht plain hγ (ht.default hdefault) h.pending hstates hahead
    have hstep := (step_default hstates hdefault).trans hreduce
    exact (hblocked.rejects env wf hf ht plain).head (meetsError_default hstates hdefault) hstep

end Rejection

theorem Alike.runs {parser : Parser V P} {env env' : Environment V P} {c c' : Config V P}
    {rest : List (Token V)} (wf : g.WellFormed) (hf : a.Faithful g)
    (ht : parser.tables.Realizes g a) (plain : Plain parser.actions)
    (hd : parser.tables.Defaulting g a) (h : Alike parser.tables rest c c') (hc : Reading a c')
    {fuel : Nat} (hclean : ∀ m ∈ parser.withoutDefaults.history env' fuel c',
      parser.withoutDefaults.meetsError m.1 = false)
    (hsame : AnswersAlike parser.actions env env'
      (parser.withoutDefaults.history env' fuel c')) :
    events (parser.history env fuel c) = events (parser.withoutDefaults.history env' fuel c') ∧
      parser.run env fuel c = parser.withoutDefaults.run env' fuel c' := by
  cases hrun' : parser.withoutDefaults.run env' fuel c' with
  | none =>
    obtain ⟨d', hsteps', hlength'⟩ := exists_steps_of_unfinished hrun'
    obtain ⟨same, d, later, hsteps, hlength, hevents, -⟩ :=
      h.steps wf hf ht plain hd hsteps' hc hclean hsame
    rw [hlength'] at hlength
    obtain ⟨hrun, hhistory⟩ := hsteps.add 0
    rw [Nat.add_zero, hlength] at hrun hhistory
    rw [hrun, hhistory, ← hevents, Parser.history, List.append_nil]
    exact ⟨rfl, rfl⟩
  | some r =>
    obtain ⟨before, d', outcome, last', hsteps', hstop', hhistory', rfl⟩ :=
      exists_steps_of_run hrun'
    have hfuel : before.length < fuel := by
      have hle := parser.withoutDefaults.length_history_le env' fuel c'
      rw [hhistory', List.length_append, List.length_singleton] at hle
      omega
    rw [hhistory'] at hclean hsame ⊢
    obtain ⟨same, d, later, hsteps, hlength, hevents, -, halike, hd'⟩ :=
      h.steps wf hf ht plain hd hsteps' hc (fun m hm => hclean m (List.mem_append_left _ hm))
        fun c context c' hmem => hsame c context c' (List.mem_append_left _ hmem)
    have herror := hclean (d', .stop outcome last') (List.mem_append_right _ List.mem_cons_self)
    have hanswer : ∀ context e, parser.withoutDefaults.step env' d' = .next (.reduce context) e →
        answer parser.actions env.nested context = answer parser.actions env'.nested context := by
      intro context e hreduce
      rw [hstop'] at hreduce
      cases hreduce
    obtain ⟨-, ⟨_, last, _, hstop, hlast', hparams, hreported⟩ | ⟨_, _, _, _, -, hnext', -⟩⟩ :=
      halike.step wf hf ht plain hd hd' herror hanswer
    · rw [hstop'] at hlast'
      cases hlast'
      obtain ⟨hrun, hhistory⟩ := hsteps.run hstop (hlength.trans_lt hfuel)
      rw [hrun, hhistory, hparams, hreported]
      refine ⟨?_, rfl⟩
      simp only [events, List.filterMap_append] at hevents ⊢
      rw [hevents]
      rfl
    · rw [hstop'] at hnext'
      cases hnext'

theorem Tables.Agrees.rejects {t : Tables} {f : Nat → Nat → Action} {bound : Nat}
    (h : t.Agrees f bound) {actions : Actions V P} {env : Environment V P}
    {rest : List (Token V)} {c : Config V P}
    (hc : ∀ la, c.lookahead = some la → la.Within bound)
    (hrejects : Rejects (⟨t, actions⟩ : Parser V P) env rest c) :
    Rejects (⟨t.withAction f, actions⟩ : Parser V P) env rest c := by
  rcases hrejects with hforever | ⟨reducing, d, hsteps, hreducing, herror, hunread⟩
  · refine Or.inl fun fuel => ?_
    obtain ⟨hrun, hreducing⟩ := hforever fuel
    rw [h.run_eq actions env hc, h.history_eq actions env hc]
    refine ⟨hrun, fun m hm => ?_⟩
    rw [h.meetsError actions (h.within_history actions env hc fuel m hm)]
    exact hreducing m hm
  · obtain ⟨hsteps', herrors, hd⟩ := h.steps actions env hc hsteps
    refine Or.inr ⟨reducing, d, hsteps', fun m hm => ?_, ?_, hunread⟩
    · rw [herrors m hm]
      exact hreducing m hm
    · rw [h.meetsError actions hd]
      exact herror

end ShiftReduce

def EncodedTable.withoutDefaults (e : EncodedTable) : EncodedTable :=
  { e with defaultReductions := #[] }

theorem EncodedTable.validate_withoutDefaults {e : EncodedTable} (h : e.validate = .ok ()) :
    e.withoutDefaults.validate = .ok () := by
  unfold EncodedTable.validate at h
  obtain ⟨⟨⟩, hrows, h⟩ := bind_eq_ok h
  obtain ⟨⟨⟩, -, hproductions⟩ := bind_eq_ok h
  unfold EncodedTable.validate
  apply bind_eq_ok_of
  · exact hrows
  apply bind_eq_ok_of
  · rfl
  · exact hproductions

namespace ShiftReduce

theorem ofEncoded_withoutDefaults (e : EncodedTable) :
    Tables.ofEncoded e.withoutDefaults = (Tables.ofEncoded e).withoutDefaults := rfl

/-- Default reductions do not show in a run, as far as the actions answer alike. As long as the
encoding without them meets no error, the one with them makes the same steps and ends alike. An
error of the former is met by the latter before the same token, after the same steps and perhaps
some more reductions; or else the latter goes on reducing forever. -/
theorem default_reductions_transparent (hg : g.Defined) {m : Method}
    (ha : m.automaton g = .ok a) {actions : Actions V P} (plain : Plain actions)
    (env env' : Environment V P) (tokens : List (Token V)) (params : P) :
    let encoded := (Table.generate g a).encode
    let full : Parser V P := ⟨.ofEncoded encoded, actions⟩
    let bare : Parser V P := ⟨.ofEncoded encoded.withoutDefaults, actions⟩
    let c := start (tokens.map .ok) params
    encoded.withoutDefaults.validate = .ok () ∧
    (∀ fuel, (∀ step ∈ bare.history env' fuel c, bare.meetsError step.1 = false) →
      AnswersAlike actions env env' (bare.history env' fuel c) →
      events (full.history env fuel c) = events (bare.history env' fuel c) ∧
        full.run env fuel c = bare.run env' fuel c) ∧
    ∀ fuel before first after, bare.history env' fuel c = before ++ first :: after →
      (∀ step ∈ before, bare.meetsError step.1 = false) → bare.meetsError first.1 = true →
      AnswersAlike actions env env' before →
      ∃ same d, Steps full env c same d ∧ events same = events before ∧
        (∀ step ∈ same, full.meetsError step.1 = false) ∧
        Rejects full env first.1.unread d := by
  intro encoded full bare c
  have wf := hg.wellFormed
  obtain ⟨hf, hc⟩ := Method.automaton_spec wf ha
  have hencodable : (Table.generate g a).Encodable :=
    Table.generate_encodable hg hf (Method.size_le ha)
  let parser : Parser V P := ⟨.ofTable (Table.generate g a), actions⟩
  have ht : parser.tables.Realizes g a := realizes_generate
  have hd : parser.tables.Defaulting g a := defaulting_generate wf hf hc
  have halike := alike_start parser.tables tokens params
  have hreading : Reading a c := reading_start (tokens.map .ok) params
  -- both encodings agree with the table on the terminals
  have hagrees := encode_agrees hencodable
  have hagrees' : parser.withoutDefaults.tables.Agrees encoded.action
      (Table.generate g a).terminals.size := ⟨hagrees.action, hagrees.reserved, hagrees.known⟩
  have hfull : full = ⟨parser.tables.withAction encoded.action, actions⟩ :=
    congrArg (Parser.mk · actions) (ofEncoded_encode hencodable)
  have hbare : bare = ⟨parser.withoutDefaults.tables.withAction encoded.action, actions⟩ := by
    refine congrArg (Parser.mk · actions) ?_
    rw [ofEncoded_withoutDefaults, ofEncoded_encode hencodable]
    rfl
  have hstart : ∀ la, c.lookahead = some la → la.Within (Table.generate g a).terminals.size :=
    fun la hla => by cases hla
  rw [hfull, hbare]
  refine ⟨EncodedTable.validate_withoutDefaults (Table.validate_encode hencodable), ?_, ?_⟩
  · intro fuel hclean hsame
    rw [hagrees'.history_eq actions env' hstart] at hclean hsame ⊢
    rw [hagrees'.run_eq actions env' hstart, hagrees.history_eq actions env hstart,
      hagrees.run_eq actions env hstart]
    refine halike.runs wf hf ht plain hd hreading (fun step hstep => ?_) hsame
    rw [← hclean step hstep]
    exact (hagrees'.meetsError actions
      (hagrees'.within_history actions env' hstart fuel step hstep)).symm
  · intro fuel before first after hhistory hclean herror hsame
    rw [hagrees'.history_eq actions env' hstart] at hhistory
    have hsteps' := steps_of_history hhistory
    obtain ⟨-, herrors, hfirst⟩ := hagrees'.steps actions env' hstart hsteps'
    rw [hagrees'.meetsError actions hfirst] at herror
    obtain ⟨same, d, later, hsteps, -, hevents, hsameclean, hlast, hread⟩ :=
      halike.steps wf hf ht plain hd hsteps' hreading
        (fun step hstep => (herrors step hstep).symm.trans (hclean step hstep)) hsame
    obtain ⟨hsteps, herrors, hwithin⟩ := hagrees.steps actions env hstart hsteps
    refine ⟨same, d, hsteps, hevents, fun step hstep => ?_, ?_⟩
    · rw [herrors step hstep]
      exact hsameclean step hstep
    · apply hagrees.rejects hwithin
      rw [Pending.unread_eq hlast.pending']
      exact hlast.rejects env wf hf ht plain hd hread herror

theorem default_reductions_tolerant :
    let encoded := (Table.generate .tolerant .tolerant).encode
    let full : Parser Nat Unit := ⟨.ofEncoded encoded, #[]⟩
    let bare : Parser Nat Unit := ⟨.ofEncoded encoded.withoutDefaults, #[]⟩
    let c := start ((tokensOf ["x"]).map .ok) ()
    let d := start ((tokensOf ["x", "x"]).map .ok) ()
    ((bare.run silent 5 c).map (·.outcome) = some (.ok (some 0)) ∧
      full.run silent 5 c = bare.run silent 5 c) ∧
    (bare.run silent 5 d).map (·.outcome.isOk) = some false ∧
      ∃ same d' rest, Steps full silent d same d' ∧ rest.map (·.name) = ["x"] ∧
        Rejects full silent rest d' := by
  intro encoded full bare c d
  have hplain : Plain (#[] : Actions Nat Unit) := by
    intro action haction
    simp at haction
  have transparent := fun names => default_reductions_transparent Grammar.tolerant_defined
    Method.slr_tolerant hplain silent silent (tokensOf names) ()
  refine ⟨⟨?_, ?_⟩, ?_, ?_⟩
  · simp only [c, bare, encoded, Table.generate_tolerant]
    decide +kernel
  · have hclean : (bare.history silent 5 c).all (fun m => !bare.meetsError m.1) = true := by
      simp only [c, bare, encoded, Table.generate_tolerant]
      decide +kernel
    simp only [List.all_eq_true, Bool.not_eq_true'] at hclean
    exact ((transparent ["x"]).2.1 5 hclean fun _ _ _ _ => rfl).2
  · simp only [d, bare, encoded, Table.generate_tolerant]
    decide +kernel
  · have hsteps : (bare.history silent 2 d).map
        (fun m => (bare.meetsError m.1, m.1.unread.map (·.name))) =
          [(false, ["x", "x"]), (true, ["x"])] := by
      simp only [d, bare, encoded, Table.generate_tolerant]
      decide +kernel
    obtain ⟨step, later, hhistory, hclean, hlater⟩ := List.map_eq_cons_iff.mp hsteps
    obtain ⟨first, after, rfl, herror, -⟩ := List.map_eq_cons_iff.mp hlater
    rw [Prod.mk.injEq] at hclean herror
    obtain ⟨same, d', hsteps, -, -, hrejects⟩ := (transparent ["x", "x"]).2.2 2 [step] first after
      hhistory (by simpa using hclean.1) herror.1 fun _ _ _ _ => rfl
    exact ⟨same, d', _, hsteps, herror.2, hrejects⟩

def nesting : Actions Nat Unit :=
  #[none, none, none,
    some fun nested c => (.value (nested ((tokensOf ["x", "x"]).map .ok) ()).1.isOk.toNat, c)]

/-- Default reductions show in what a nested parse recovers from: they may lead to a state that
shifts the recovery token, and the run that asks for the parse meets no error itself. -/
theorem default_reductions_nested :
    let encoded := (Table.generate .tolerant .tolerant).encode
    let full : Parser Nat Unit := ⟨.ofEncoded encoded, nesting⟩
    let bare : Parser Nat Unit := ⟨.ofEncoded encoded.withoutDefaults, nesting⟩
    let source : Source Nat := (tokensOf ["y"]).map .ok
    Grammar.tolerant.Defined ∧ Method.slr.automaton .tolerant = .ok .tolerant ∧ Plain nesting ∧
    (∀ step ∈ bare.history ⟨bare.nested 20 2, fun _ _ => none⟩ 20 (start source ()),
      bare.meetsError step.1 = false) ∧
    (bare.parse 20 2 (fun _ _ => none) source ()).outcome = .ok (some 0) ∧
    (full.parse 20 2 (fun _ _ => none) source ()).outcome = .ok (some 1) := by
  intro encoded full bare source
  refine ⟨Grammar.tolerant_defined, Method.slr_tolerant, ?_, ?_, ?_, ?_⟩
  · intro action haction nested c
    simp only [nesting, List.mem_toArray, List.mem_cons, Option.some.injEq, reduceCtorEq,
      List.not_mem_nil, or_false, false_or] at haction
    rw [haction]
    rfl
  · have hclean : (bare.history ⟨bare.nested 20 2, fun _ _ => none⟩ 20 (start source ())).all
        (fun m => !bare.meetsError m.1) = true := by
      simp only [source, bare, encoded, Table.generate_tolerant]
      decide +kernel
    simpa only [List.all_eq_true, Bool.not_eq_true'] using hclean
  · simp only [source, bare, encoded, Table.generate_tolerant]
    decide +kernel
  · simp only [source, full, encoded, Table.generate_tolerant]
    decide +kernel

end ShiftReduce

end TableParsing
