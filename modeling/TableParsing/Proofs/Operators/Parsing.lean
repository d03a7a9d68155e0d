import TableParsing.Proofs.Engine.ErrorPosition
import TableParsing.Proofs.Engine.Soundness
import TableParsing.Proofs.Engine.Termination
import TableParsing.Proofs.Operators.Cells

/-! The engine over the table of an operator grammar does as precedence climbing. Where climbing
takes an operator into an operand, the engine shifts it; where climbing completes an operand, the
engine reduces; and where two operators cannot be grouped, it finds an error. Any other tokens are
refused, as the grammar does not derive them. -/

namespace TableParsing.ShiftReduce

variable {V P : Type} {g : Grammar} {a : Automaton}

/-- The values on the stack of a configuration that has met no error, the latest first, with the
symbols that they stand for, and the tokens still to be read. -/
structure Holding (a : Automaton) (t : Tables) (c : Config V P) (γ : List Symbol)
    (values : List V) (rest : List (Token V)) : Prop where
  stacked : Stacked a γ c.states
  values : c.entries.map (·.value) = values.map some ++ [none]
  pending : Pending t c rest
  recovering : c.recovering = 0
  reported : c.reported = []

theorem holding_start (t : Tables) (tokens : List (Token V)) (params : P) :
    Holding a t (start (tokens.map .ok) params) [] [] tokens :=
  ⟨.base, rfl, pending_start t tokens params, rfl, rfl⟩

abbrev builder (g : Grammar) (a : Automaton) (build : Nat → List V → V) : Parser V P :=
  ⟨.ofTable (Table.generate g a), building g.productions.size build⟩

section Moves

variable (actions : Actions V P) (env : Environment V P) {c : Config V P}
  {γ : List Symbol} {values : List V} {rest : List (Token V)} {u s : Nat}

theorem Holding.shift_with {token : Token V}
    (h : Holding a (.ofTable (Table.generate g a)) c γ values (token :: rest))
    (hu : (Table.generate g a).terminal? token.name = some u)
    (haction : ∀ s, stateAfter a.step γ = some s →
      ∃ next, (Table.generate g a).action s u = .shift next) :
    ∃ e c', (⟨.ofTable (Table.generate g a), actions⟩ : Parser V P).step env c = .next e c' ∧
      Holding a (.ofTable (Table.generate g a)) c' (.terminal u :: γ) (token.value :: values)
        rest := by
  obtain ⟨s, states, hstates, hs⟩ := h.stacked.exists_top
  obtain ⟨next, haction⟩ := haction s hs
  let parser : Parser V P := ⟨.ofTable (Table.generate g a), actions⟩
  have hpending : Pending parser.tables c (token :: rest) := h.pending
  rcases exists_action_of_default
    (fun p => Table.action_of_defaultReduction) hpending hu haction (by simp) with
    ⟨p, hp, -⟩ | ⟨hdefault, la, input, hlook, hreads, hon⟩
  · cases hp
  cases hreads with
  | token =>
    refine ⟨_, _, step_shift hstates hdefault hlook hon, ?_, ?_, Or.inl ⟨rfl, rfl⟩, ?_, h.reported⟩
    · have hγ := h.stacked
      rw [hstates] at hγ
      rw [shifted, hstates]
      exact .push hγ (Table.action_shift haction)
    · simp [shifted, h.values, Tables.ofToken]
    · simp [shifted, h.recovering]

theorem Holding.reduce_with (wf : g.WellFormed) (hf : a.Faithful g) {p : Nat} {v : V}
    (children : List V) (hlen : children.length = (g.production p).right.size)
    (h : Holding a (.ofTable (Table.generate g a)) c
      ((g.production p).right.toList.reverse ++ γ) (children.reverse ++ values) rest)
    (hu : nextTerminal (.ofTable (Table.generate g a)) rest = some u)
    (haction : ∀ s, stateAfter a.step ((g.production p).right.toList.reverse ++ γ) = some s →
      (Table.generate g a).action s u = .reduce p)
    (hrun : ∀ context : Context V P, context.production = p →
      context.aliases = (g.production p).aliases →
      context.handle.map (·.value) = children.map some →
      ∃ after, actions.run env.nested context = (.value (some v), after)) :
    ∃ e c', (⟨.ofTable (Table.generate g a), actions⟩ : Parser V P).step env c = .next e c' ∧
      Holding a (.ofTable (Table.generate g a)) c' (.nonterminal (g.production p).left :: γ)
        (v :: values) rest := by
  obtain ⟨s, states, hstates, hs⟩ := h.stacked.exists_top
  have haction := haction s hs
  have hγ := h.stacked
  rw [hstates] at hγ
  obtain ⟨st, hst, hp⟩ := Table.action_reduce haction
  obtain ⟨δ, state, deeper, next, hδ, hdrop, hstacked, hgoto⟩ := exists_goto wf hf hγ hst hp
  obtain rfl : γ = δ := List.append_cancel_left hδ
  let parser : Parser V P := ⟨.ofTable (Table.generate g a), actions⟩
  have hpending : Pending parser.tables c rest := h.pending
  obtain ⟨c₁, hstep, hstates₁, hentries₁, hpending₁, hrecovering₁, hreported₁⟩ :
      ∃ c₁ : Config V P, parser.step env c = parser.reduce env c₁ p ∧
        c₁.states = c.states ∧ c₁.entries = c.entries ∧ Pending parser.tables c₁ rest ∧
        c₁.recovering = 0 ∧ c₁.reported = [] := by
    rcases exists_action_of_default
      (fun p => Table.action_of_defaultReduction) hpending hu haction (by simp) with
      ⟨q, hq, hdefault⟩ | ⟨hdefault, la, input, hlook, hreads, hon⟩
    · cases hq
      exact ⟨c, step_default hstates hdefault, rfl, rfl, h.pending, h.recovering, h.reported⟩
    · exact ⟨_, step_reduce hstates hdefault hlook hon, rfl, rfl, Or.inr ⟨la, rfl, hreads⟩,
        h.recovering, h.reported⟩
  rw [← hstates, ← hstates₁] at hdrop
  have hrealizes : parser.tables.Realizes g a := realizes_generate
  have hvalues : c₁.entries.map (·.value) =
      children.reverse.map some ++ (values.map some ++ [none]) := by
    rw [hentries₁, h.values, List.map_append, List.append_assoc]
  have hlength : (children.reverse.map some).length = (g.production p).right.size := by
    rw [List.length_map, List.length_reverse, hlen]
  have hhandle : (contextOf g c₁ p).handle.map (·.value) = children.map some := by
    change ((c₁.entries.take _).reverse).map _ = _
    rw [List.map_reverse, List.map_take, hvalues, List.take_left' hlength, List.map_reverse,
      List.reverse_reverse]
  have hbelow : (c₁.entries.drop (g.production p).right.size).map (·.value) =
      values.map some ++ [none] := by
    rw [List.map_drop, hvalues, List.drop_left' hlength]
  obtain ⟨after, hafter⟩ := hrun (contextOf g c₁ p) rfl rfl hhandle
  have hreduce := reduce_of_run hrealizes hafter hdrop hgoto
  refine ⟨_, _, hstep.trans hreduce, ?_, ?_, hpending₁, hrecovering₁, hreported₁⟩
  · simp only [reduced, hdrop]
    exact .push hstacked hgoto
  · simp only [reduced, List.map_cons, hbelow, List.cons_append]

theorem Holding.accept_with {v : V}
    (h : Holding a (.ofTable (Table.generate g a)) c γ (v :: values) [])
    (haction : ∀ s, stateAfter a.step γ = some s →
      (Table.generate g a).action s Symbol.endOfInput = .accept) :
    ∃ d, (⟨.ofTable (Table.generate g a), actions⟩ : Parser V P).step env c =
      .stop (.ok (some v)) d ∧ d.reported = [] := by
  obtain ⟨s, states, hstates, hs⟩ := h.stacked.exists_top
  let parser : Parser V P := ⟨.ofTable (Table.generate g a), actions⟩
  have hpending : Pending parser.tables c [] := h.pending
  rcases exists_action_of_default
    (fun p => Table.action_of_defaultReduction) hpending rfl (haction s hs) (by simp) with
    ⟨p, hp, -⟩ | ⟨hdefault, la, input, hlook, hreads, hon⟩
  · cases hp
  have hhead : c.entries.head?.bind (·.value) = some v := by
    have hvalues := h.values
    cases hentries : c.entries with
    | nil =>
      rw [hentries] at hvalues
      cases hvalues
    | cons entry below =>
      rw [hentries] at hvalues
      exact (List.cons.inj hvalues).1
  have hstep : parser.step env c =
      .stop (.ok (some v)) { c with lookahead := none, input := input } := by
    rw [step_accept hstates hdefault hlook hon, hhead]
  exact ⟨_, hstep, h.reported⟩

variable {build : Nat → List V → V}

theorem Holding.shift {token : Token V}
    (h : Holding a (builder g a build : Parser V P).tables c γ values (token :: rest))
    (hu : (Table.generate g a).terminal? token.name = some u)
    (haction : ∀ s, stateAfter a.step γ = some s →
      ∃ next, (Table.generate g a).action s u = .shift next) :
    ∃ e c', (builder g a build).step env c = .next e c' ∧
      Holding a (builder g a build : Parser V P).tables c' (.terminal u :: γ)
        (token.value :: values) rest := Holding.shift_with _ env h hu haction

theorem Holding.reduce (wf : g.WellFormed) (hf : a.Faithful g) {p : Nat} (children : List V)
    (hlen : children.length = (g.production p).right.size)
    (h : Holding a (builder g a build : Parser V P).tables c
      ((g.production p).right.toList.reverse ++ γ) (children.reverse ++ values) rest)
    (hu : nextTerminal (builder g a build : Parser V P).tables rest = some u)
    (haction : ∀ s, stateAfter a.step ((g.production p).right.toList.reverse ++ γ) = some s →
      (Table.generate g a).action s u = .reduce p) :
    ∃ e c', (builder g a build).step env c = .next e c' ∧
      Holding a (builder g a build : Parser V P).tables c'
        (.nonterminal (g.production p).left :: γ) (build p children :: values) rest := by
  obtain ⟨s, -, -, hs⟩ := h.stacked.exists_top
  obtain ⟨st, hst, hp⟩ := Table.action_reduce (haction s hs)
  have hd := hf.describes hs hst
  have hlt : p < g.productions.size := wf.viable_lt ((hd.completed p).mp hp)
  refine Holding.reduce_with _ env wf hf children hlen h hu haction ?_
  rintro context rfl - hvalues
  have hchildren : context.handle.filterMap (·.value) = children := by
    have hmap := congrArg (List.filterMap id) hvalues
    simpa [List.filterMap_map] using hmap
  exact ⟨_, by rw [run_building hlt, hchildren]⟩

theorem Holding.accept {v : V}
    (h : Holding a (builder g a build : Parser V P).tables c γ (v :: values) [])
    (haction : ∀ s, stateAfter a.step γ = some s →
      (Table.generate g a).action s Symbol.endOfInput = .accept) :
    ∃ d, (builder g a build).step env c = .stop (.ok (some v)) d ∧ d.reported = [] :=
  Holding.accept_with _ env h haction

theorem Holding.meetsError (h : Holding a (builder g a build : Parser V P).tables c γ values rest)
    (hu : nextTerminal (builder g a build : Parser V P).tables rest = some u)
    (haction : ∀ s, stateAfter a.step γ = some s → (Table.generate g a).action s u = .error ∧
      (Table.generate g a).defaultReduction s = none) :
    (builder g a build).meetsError c = true := by
  obtain ⟨s, states, hstates, hs⟩ := h.stacked.exists_top
  obtain ⟨haction, hdefault⟩ := haction s hs
  obtain ⟨la, input, hlook, hreads⟩ := h.pending.look
  rw [meetsError_eq hstates hdefault hlook, Tables.actionOn,
    hreads.terminal_eq, hu]
  exact beq_iff_eq.mpr haction

end Moves

theorem stop_of_meetsError {parser : Parser V P} {c : Config V P} (env : Environment V P)
    (hshifts : ∀ s, parser.tables.shiftsError s = none) (hzero : c.recovering = 0)
    (herror : parser.meetsError c = true) : ∃ error d,
      parser.step env c =
        .stop (.error ((env.onError c.reported error).getD (.unexpected error))) d ∧
      d.reported = error :: c.reported := by
  obtain ⟨s, states, la, input, hstates, hdefault, hlook, haction⟩ := exists_of_meetsError herror
  have hrecoverable := (recoverable_syntaxError parser.tables s la c.states).mpr
    fun s _ => hshifts s
  refine ⟨parser.tables.syntaxError s la c.states, ?_⟩
  rw [step_error hstates hdefault hlook haction]
  simp only [Parser.fail, hzero, if_true]
  cases henv : env.onError c.reported (parser.tables.syntaxError s la c.states) with
  | some e => exact ⟨_, rfl, rfl⟩
  | none =>
    rw [hrecoverable]
    exact ⟨_, rfl, rfl⟩

def exprValue (build : Nat → List V → V) (number : Token V → Nat) : Expr (Token V) → V
  | .operand token => build (number token) [token.value]
  | .binary op left right => build (number op)
      [exprValue build number left, op.value, exprValue build number right]

def flatten (input : List (Token V × Token V)) : List (Token V) :=
  input.flatMap fun pair => [pair.1, pair.2]

def IsOperand (table : Table) (x : Nat) (rule : Nat → Nat) (number : Token V → Nat)
    (token : Token V) : Prop := table.terminal? token.name = some x ∧ number token = rule x

/-- The token stands for the operator, has its level and is numbered as its production. -/
structure IsOperator (table : Table) (g : Grammar) (rule : Nat → Nat) (rank : Token V → Precedence)
    (number : Token V → Nat) (token : Token V) (u : Nat) : Prop where
  terminal : table.terminal? token.name = some u
  ranked : g.terminalPrecedence u = some (rank token)
  numbered : number token = rule u

def Alternating (table : Table) (g : Grammar) (x : Nat) (rule : Nat → Nat)
    (rank : Token V → Precedence) (number : Token V → Nat) (input : List (Token V × Token V)) :
    Prop :=
  ∀ pair ∈ input, (∃ u, IsOperator table g rule rank number pair.1 u) ∧
    IsOperand table x rule number pair.2

def leastAfter (g : Grammar) : List Nat → Nat
  | [] => 0
  | t :: _ => ((g.terminalPrecedence t).map Precedence.rightBound).getD 0

section Climbing

variable {x : Nat} {rule : Nat → Nat} (h : OperatorGrammar g x rule) (hf : a.Faithful g)
  (hcovers : a.Covers g) {rank : Token V → Precedence} {number : Token V → Nat}
  {build : Nat → List V → V} (env : Environment V P) {c : Config V P} {values : List V}
  {ts : List Nat} {rest : List (Token V)} {u : Nat}

theorem nextTerminal_flatten {input : List (Token V × Token V)}
    (hinput : Alternating (Table.generate g a) g x rule rank number input) :
    ∃ u, nextTerminal (.ofTable (Table.generate g a)) (flatten input) = some u ∧
      g.EndsOperand u := by
  cases input with
  | nil => exact ⟨_, rfl, Or.inl rfl⟩
  | cons pair input =>
    obtain ⟨⟨u, hu⟩, -⟩ := hinput pair List.mem_cons_self
    exact ⟨u, hu.terminal, Or.inr ⟨_, hu.ranked⟩⟩

include h hf hcovers

theorem Holding.operand {token : Token V}
    (hc : Holding a (builder g a build : Parser V P).tables c (spine g ts) values (token :: rest))
    (hts : g.AllRanked ts) (htoken : IsOperand (Table.generate g a) x rule number token)
    (hnext : ∃ u, nextTerminal (.ofTable (Table.generate g a)) rest = some u ∧ g.EndsOperand u) :
    ∃ hist d, Steps (builder g a build) env c hist d ∧
      Holding a (builder g a build : Parser V P).tables d (.nonterminal g.start :: spine g ts)
        (exprValue build number (.operand token) :: values) rest := by
  obtain ⟨u, hu, hends⟩ := hnext
  obtain ⟨e, c₁, hstep, h₁⟩ := hc.shift env htoken.1
    fun s hs => h.action_operand hf hts hs
  have hright := h.right_operand
  have hγ : .terminal x :: spine g ts =
      (g.production (rule x)).right.toList.reverse ++ spine g ts := by
    rw [hright]
    rfl
  rw [hγ] at h₁
  obtain ⟨e', c₂, hstep', h₂⟩ := Holding.reduce env h.wellFormed hf [token.value]
    (by rw [h.operand.2.2]; rfl) h₁ hu fun s hs => h.action_operand_read hf hcovers hts hends
      (by rwa [hγ])
  refine ⟨_, c₂, .head hstep (.single hstep'), ?_⟩
  rwa [h.operand.2.1, ← htoken.2] at h₂

theorem Holding.enter {op token : Token V} {v : V}
    (hc : Holding a (builder g a build : Parser V P).tables c
      (.nonterminal g.start :: spine g ts) (v :: values) (op :: token :: rest))
    (hts : g.AllRanked ts) (hop : IsOperator (Table.generate g a) g rule rank number op u)
    (htoken : IsOperand (Table.generate g a) x rule number token)
    (hleast : leastAfter g ts ≤ (rank op).priority)
    (hnext : ∃ u, nextTerminal (.ofTable (Table.generate g a)) rest = some u ∧ g.EndsOperand u) :
    ∃ hist d, Steps (builder g a build) env c hist d ∧
      Holding a (builder g a build : Parser V P).tables d
        (.nonterminal g.start :: spine g (u :: ts))
        (exprValue build number (.operand token) :: op.value :: v :: values) rest := by
  have hshift : ∀ s, stateAfter a.step (.nonterminal g.start :: spine g ts) = some s →
      ∃ next, (Table.generate g a).action s u = .shift next := by
    intro s hs
    cases ts with
    | nil => exact (h.action_first hf hs).2 u _ hop.ranked
    | cons t ts =>
      rw [Grammar.AllRanked, List.forall_mem_cons] at hts
      obtain ⟨⟨r, ht⟩, hts⟩ := hts
      rw [leastAfter, ht] at hleast
      exact (h.action_operator hf hcovers hts ht hs hop.ranked).1 hleast
  obtain ⟨e, c₁, hstep, h₁⟩ := hc.shift env hop.terminal hshift
  have hts' : g.AllRanked (u :: ts) := List.forall_mem_cons.mpr ⟨⟨_, hop.ranked⟩, hts⟩
  obtain ⟨hist, d, hsteps, hd⟩ := Holding.operand h hf hcovers env h₁ hts' htoken hnext
  exact ⟨_, d, .head hstep hsteps, hd⟩

theorem Holding.leave {op : Token V} {v v' w : V} {later : List (Token V × Token V)}
    (hc : Holding a (builder g a build : Parser V P).tables c
      (.nonterminal g.start :: spine g (u :: ts)) (w :: v' :: v :: values) (flatten later))
    (hts : g.AllRanked ts) (hop : IsOperator (Table.generate g a) g rule rank number op u)
    (hlater : Alternating (Table.generate g a) g x rule rank number later)
    (hstops : ∀ next ∈ later.head?, (rank next.1).priority < (rank op).rightBound)
    (hclash : Expr.clashes rank op later = false) :
    ∃ e d, (builder g a build).step env c = .next e d ∧
      Holding a (builder g a build : Parser V P).tables d (.nonterminal g.start :: spine g ts)
        (build (number op) [v, v', w] :: values) (flatten later) := by
  have hright := h.right_operator hop.ranked
  have hγ : .nonterminal g.start :: spine g (u :: ts) =
      (g.production (rule u)).right.toList.reverse ++ spine g ts := by
    rw [hright]
    rfl
  obtain ⟨u', hu', haction⟩ :
      ∃ u', nextTerminal (.ofTable (Table.generate g a)) (flatten later) = some u' ∧
        ∀ s, stateAfter a.step (.nonterminal g.start :: spine g (u :: ts)) = some s →
          (Table.generate g a).action s u' = .reduce (rule u) := by
    cases later with
    | nil => exact ⟨_, rfl, fun s hs => h.action_operator_end hf hcovers hts hop.ranked hs⟩
    | cons next later =>
      obtain ⟨⟨u', hu'⟩, -⟩ := hlater next List.mem_cons_self
      refine ⟨u', hu'.terminal, fun s hs => ?_⟩
      refine (h.action_operator hf hcovers hts hop.ranked hs hu'.ranked).2.1 (hstops next rfl) ?_
      intro hnone heq
      simp [Expr.clashes, hnone, heq] at hclash
  rw [hγ] at hc haction
  obtain ⟨e, d, hstep, hd⟩ := Holding.reduce env h.wellFormed hf [v, v', w]
    (by rw [← Array.length_toList, hright]; rfl) hc hu' haction
  refine ⟨e, d, hstep, ?_⟩
  rwa [(h.operator u _ hop.ranked).2.1, ← hop.numbered] at hd

theorem Holding.clash {op : Token V} {later : List (Token V × Token V)}
    (hc : Holding a (builder g a build : Parser V P).tables c
      (.nonterminal g.start :: spine g (u :: ts)) values (flatten later))
    (hts : g.AllRanked ts) (hop : IsOperator (Table.generate g a) g rule rank number op u)
    (hlater : Alternating (Table.generate g a) g x rule rank number later)
    (hclash : Expr.clashes rank op later = true) :
    (builder g a build).meetsError c = true := by
  cases later with
  | nil => cases hclash
  | cons next later =>
    obtain ⟨⟨u', hu'⟩, -⟩ := hlater next List.mem_cons_self
    simp only [Expr.clashes, decide_eq_true_eq] at hclash
    exact hc.meetsError hu'.terminal fun s hs =>
      (h.action_operator hf hcovers hts hop.ranked hs hu'.ranked).2.2 hclash.1 hclash.2

def Climbs (g : Grammar) (a : Automaton) (build : Nat → List V → V) (number : Token V → Nat)
    (env : Environment V P) (c : Config V P) (γ : List Symbol) (values : List V)
    (result : Option (Expr (Token V) × List (Token V × Token V))) : Prop :=
  ∃ hist d, Steps (builder g a build) env c hist d ∧
    match result with
    | some (e, rest) => Holding a (builder g a build : Parser V P).tables d γ
        (exprValue build number e :: values) (flatten rest)
    | none => d.recovering = 0 ∧ d.reported = [] ∧ (builder g a build).meetsError d = true

omit h hf hcovers in
theorem Climbs.after {γ : List Symbol} {d : Config V P} {hist : List (Config V P × Move V P)}
    {result : Option (Expr (Token V) × List (Token V × Token V))}
    (hsteps : Steps (builder g a build) env c hist d)
    (hd : Climbs g a build number env d γ values result) :
    Climbs g a build number env c γ values result := by
  obtain ⟨hist', f, hsteps', hf⟩ := hd
  exact ⟨_, f, hsteps.trans hsteps', hf⟩

/-- The engine follows the recursion of climbing. -/
theorem Holding.climb {least : Nat} {left : Expr (Token V)} {input : List (Token V × Token V)}
    (hc : Holding a (builder g a build : Parser V P).tables c (.nonterminal g.start :: spine g ts)
      (exprValue build number left :: values) (flatten input))
    (hts : g.AllRanked ts) (hleast : leastAfter g ts = least)
    (hinput : Alternating (Table.generate g a) g x rule rank number input) :
    Climbs g a build number env c (.nonterminal g.start :: spine g ts) values
      (Expr.climb rank least left input) := by
  generalize hn : input.length = n
  induction n using Nat.strong_induction_on generalizing c ts values least left input with
  | _ n ih =>
    by_cases hstops : ∀ next ∈ input.head?, (rank next.1).priority < least
    · rw [Expr.climb_of_stops hstops]
      exact ⟨[], c, .refl c, hc⟩
    obtain ⟨⟨op, token⟩, input, rfl, hge⟩ :
        ∃ next later, input = next :: later ∧ least ≤ (rank next.1).priority := by
      cases input with
      | nil => simp at hstops
      | cons next later => exact ⟨next, later, rfl, by simpa using hstops⟩
    obtain ⟨⟨⟨u, hop⟩, htoken⟩, hrest⟩ := List.forall_mem_cons.mp hinput
    have hts' : g.AllRanked (u :: ts) := List.forall_mem_cons.mpr ⟨⟨_, hop.ranked⟩, hts⟩
    have hleast' : leastAfter g (u :: ts) = (rank op).rightBound := by
      rw [leastAfter, hop.ranked]
      rfl
    -- the operator is shifted and its right operand climbed
    obtain ⟨hist₁, c₁, hsteps₁, h₁⟩ := Holding.enter h hf hcovers env hc hts hop htoken
      (hleast.trans_le hge) (nextTerminal_flatten hrest)
    have hright := ih input.length (by rw [← hn]; simp) h₁ hts' hleast' hrest rfl
    rw [Expr.climb_cons hge]
    refine .after env hsteps₁ ?_
    cases hclimb : Expr.climb rank (rank op).rightBound (.operand token) input with
    | none =>
      rw [hclimb] at hright
      exact hright
    | some result =>
      obtain ⟨right, later⟩ := result
      rw [hclimb] at hright
      obtain ⟨hist₂, c₂, hsteps₂, h₂⟩ := hright
      obtain ⟨hsuffix, hstops', -⟩ := Expr.climbed_of_climb hclimb
      have hlater : Alternating (Table.generate g a) g x rule rank number later :=
        fun pair hpair => hrest pair (hsuffix.subset hpair)
      refine .after env hsteps₂ ?_
      rw [Option.bind_some]
      split
      case isTrue hclash =>
        exact ⟨[], c₂, .refl c₂, h₂.recovering, h₂.reported,
          Holding.clash h hf hcovers h₂ hts hop hlater hclash⟩
      case isFalse hclash =>
        -- the operation is complete and becomes the left operand
        obtain ⟨e, c₃, hstep, h₃⟩ := Holding.leave h hf hcovers env h₂ hts hop hlater hstops'
          (by simpa using hclash)
        have hlength : later.length < n := by
          have hle := hsuffix.length_le
          rw [List.length_cons] at hn
          omega
        exact .after env (.single hstep) (ih later.length hlength h₃ hts hleast hlater rfl)

end Climbing

def Refused (env : Environment V P) (r : Result V P) : Prop :=
  ∃ error, r.outcome = .error ((env.onError [] error).getD (.unexpected error)) ∧
    r.reported = [error]

def Ends (parser : Parser V P) (env : Environment V P) (c : Config V P)
    (Q : Result V P → Prop) : Prop :=
  ∃ n r, (∀ fuel, n ≤ fuel → parser.run env fuel c = some r) ∧ Q r

theorem Steps.ends {parser : Parser V P} {env : Environment V P} {c d d' : Config V P}
    {hist : List (Config V P × Move V P)} {outcome : Except ParseError (Option V)}
    {Q : Result V P → Prop} (hsteps : Steps parser env c hist d)
    (hstop : parser.step env d = .stop outcome d')
    (hQ : Q ⟨outcome, d'.params, d'.reported.reverse⟩) : Ends parser env c Q :=
  ⟨hist.length + 1, _, fun _ hfuel => (hsteps.run hstop hfuel).1, hQ⟩

theorem Steps.clean {parser : Parser V P} {env : Environment V P} {c d : Config V P}
    {hist : List (Config V P × Move V P)} (hsteps : Steps parser env c hist d)
    (hshifts : ∀ s, parser.tables.shiftsError s = none) (hrecovering : c.recovering = 0) :
    ∀ m ∈ hist, parser.meetsError m.1 = false := by
  induction hsteps with
  | refl => simp
  | @head c c' d e hist hstep _ ih =>
    have hclean : parser.meetsError c = false := by
      rw [← Bool.not_eq_true]
      intro herror
      obtain ⟨_, _, hstop, -⟩ := stop_of_meetsError env hshifts hrecovering herror
      rw [hstep] at hstop
      cases hstop
    rw [List.forall_mem_cons]
    exact ⟨hclean, ih (((step_effect hstep).quiet hclean).2 hrecovering)⟩

theorem Steps.refused {parser : Parser V P} {env : Environment V P} {c d : Config V P}
    {hist : List (Config V P × Move V P)} (hsteps : Steps parser env c hist d)
    (hshifts : ∀ s, parser.tables.shiftsError s = none) (hrecovering : d.recovering = 0)
    (hreported : d.reported = []) (herror : parser.meetsError d = true) :
    Ends parser env c (Refused env) := by
  obtain ⟨error, d', hstop, hd'⟩ := stop_of_meetsError env hshifts hrecovering herror
  rw [hreported] at hstop hd'
  exact hsteps.ends hstop ⟨error, rfl, by rw [hd']; rfl⟩

inductive Operated (g : Grammar) (x : Nat) : List (Nat × Token V) → Prop
  | operand (token : Token V) : Operated g x [(x, token)]
  | operator {w w' : List (Nat × Token V)} {t : Nat} {r : Precedence} (token : Token V) :
      g.terminalPrecedence t = some r → Operated g x w → Operated g x w' →
      Operated g x (w ++ (t, token) :: w')

def Phrase (g : Grammar) (x : Nat) (symbol : Symbol) (w : List (Nat × Token V)) : Prop :=
  match symbol with
  | .terminal t => ∃ token, w = [(t, token)]
  | .nonterminal n => n = g.start → Operated g x w

theorem Operated.exists_flatten {x : Nat} {w : List (Nat × Token V)} (h : Operated g x w)
    {table : Table} (hnames : ∀ e ∈ w, table.terminal? e.2.name = some e.1) :
    ∃ token input, w.map (·.2) = token :: flatten input ∧
      table.terminal? token.name = some x ∧ ∀ pair ∈ input,
        (∃ u r, table.terminal? pair.1.name = some u ∧ g.terminalPrecedence u = some r) ∧
          table.terminal? pair.2.name = some x := by
  induction h with
  | operand token => exact ⟨token, [], rfl, hnames _ List.mem_cons_self, by simp⟩
  | @operator w w' t r op ht _ _ ih ih' =>
    rw [List.forall_mem_append, List.forall_mem_cons] at hnames
    obtain ⟨token, input, hw, htoken, hinput⟩ := ih hnames.1
    obtain ⟨token', input', hw', htoken', hinput'⟩ := ih' hnames.2.2
    refine ⟨token, input ++ (op, token') :: input', ?_, htoken, ?_⟩
    · rw [List.map_append, List.map_cons, hw, hw']
      simp [flatten]
    · rw [List.forall_mem_append, List.forall_mem_cons]
      exact ⟨hinput, ⟨⟨t, r, hnames.2.1, ht⟩, htoken'⟩, hinput'⟩

section Outcomes

variable {x : Nat} {rule : Nat → Nat} (h : OperatorGrammar g x rule) (hf : a.Faithful g)

include h hf

theorem shiftsError_eq_none (s : Nat) :
    (Tables.ofTable (Table.generate g a)).shiftsError s = none := by
  rw [Option.eq_none_iff_forall_ne_some]
  intro next hnext
  have hstep := Table.action_shift (Tables.action_of_shiftsError hnext)
  obtain ⟨st, hst, htarget⟩ := Option.bind_eq_some_iff.mp hstep
  obtain ⟨γ, -, -, hd⟩ := hf.of_state hst
  obtain ⟨-, i, hi, hi'⟩ := (hd.moves _).mp ⟨next, htarget⟩
  have hmem := Item.next_mem hi'
  by_cases hzero : i.production = 0
  · rw [hzero, h.wellFormed.right_zero] at hmem
    simp [Symbol.errorToken, Symbol.endOfInput] at hmem
  · rcases h.only _ hzero (h.wellFormed.viable_lt hi) with hp | ⟨t, r, ht, hp⟩
    · rw [hp, h.operand.2.2] at hmem
      obtain rfl : Symbol.errorToken = x := by simpa using hmem
      exact h.operand_ne_error rfl
    · rw [hp, (h.operator t r ht).2.2.1] at hmem
      obtain rfl : Symbol.errorToken = t := by simpa using hmem
      rw [h.error_unranked] at ht
      cases ht

theorem group_ends (hcovers : a.Covers g) {rank : Token V → Precedence} {number : Token V → Nat}
    (build : Nat → List V → V) (env : Environment V P) {token : Token V}
    {input : List (Token V × Token V)}
    (htoken : IsOperand (Table.generate g a) x rule number token)
    (hinput : Alternating (Table.generate g a) g x rule rank number input) (params : P) :
    Ends (builder g a build) env (start ((token :: flatten input).map .ok) params) fun r =>
      match Expr.group rank token input with
      | some e => r.outcome = .ok (some (exprValue build number e)) ∧ r.reported = []
      | none => Refused env r := by
  have hts : g.AllRanked [] := by simp [Grammar.AllRanked]
  obtain ⟨hist, c, hsteps, hc⟩ := Holding.operand h hf hcovers env
    (holding_start (builder g a build : Parser V P).tables (token :: flatten input) params) hts
    htoken (nextTerminal_flatten hinput)
  obtain ⟨hist', d, hsteps', hd⟩ := Holding.climb h hf hcovers env hc hts rfl hinput
  have hall := hsteps.trans hsteps'
  rw [Expr.group]
  cases hclimb : Expr.climb rank 0 (.operand token) input with
  | none =>
    rw [leastAfter, hclimb] at hd
    obtain ⟨hrecovering, hreported, herror⟩ := hd
    exact hall.refused (shiftsError_eq_none h hf) hrecovering hreported herror
  | some result =>
    obtain ⟨e, rest⟩ := result
    rw [leastAfter, hclimb] at hd
    obtain rfl := Expr.climb_zero hclimb
    obtain ⟨d', hstop, hreported⟩ := hd.accept env fun s hs => (h.action_first hf hs).1
    exact hall.ends hstop ⟨rfl, by rw [hreported]; rfl⟩

omit hf in
theorem length_le_of_chain {γ : List Symbol} {ps : List Nat} (hchain : Chain g γ ps) :
    ps.length ≤ γ.countP (·.terminal?.isSome) := by
  apply hchain.length_le
  intro γ p hp
  rcases h.completed_cases hp with ⟨rfl, -⟩ | ⟨t, r, -, ht, rfl, -⟩
  · rw [h.right_operand]
    exact Nat.le_refl 1
  · rw [h.right_operator ht]
    exact Nat.le_refl 1

omit hf in
theorem phrases_of_yields {trees : List (Tree (Token V))} {γ : List Symbol}
    {w : List (Nat × Token V)} {ps : List Nat} (hyields : g.Yields trees γ w ps) :
    ∃ words, w = words.flatten ∧ List.Forall₂ (Phrase g x) γ words := by
  induction hyields with
  | nil => exact ⟨[], rfl, .nil⟩
  | leaf t token _ ih =>
    obtain ⟨words, rfl, hwords⟩ := ih
    exact ⟨[(t, token)] :: words, rfl, .cons ⟨token, rfl⟩ hwords⟩
  | @node children trees γ w w' p ps ps' hp _ _ ihchildren ihrest =>
    obtain ⟨words, rfl, hwords⟩ := ihchildren
    obtain ⟨words', rfl, hwords'⟩ := ihrest
    refine ⟨words.flatten :: words', rfl, .cons (fun hstart => ?_) hwords'⟩
    have hzero : p ≠ 0 := by
      rintro rfl
      rw [h.wellFormed.accepting] at hstart
      exact h.wellFormed.start_proper.1 hstart.symm
    rcases h.only p hzero hp with rfl | ⟨t, r, ht, rfl⟩
    · rw [h.right_operand] at hwords
      obtain _ | ⟨⟨token, rfl⟩, _ | _⟩ := hwords
      exact .operand token
    · rw [h.right_operator ht] at hwords
      obtain _ | ⟨hleft, _ | ⟨⟨token, rfl⟩, _ | ⟨hright, _ | _⟩⟩⟩ := hwords
      simpa using Operated.operator token ht (hleft rfl) (hright rfl)

/-- Tokens that are not operands with operators between them are refused. -/
theorem refused_ends (build : Nat → List V → V) (env : Environment V P) {tokens : List (Token V)}
    (hnames : ∀ token ∈ tokens, token.name ≠ Symbol.endName)
    (hform : ∀ token input, tokens = token :: flatten input →
      (Table.generate g a).terminal? token.name = some x →
      ¬ ∀ pair ∈ input, (∃ u r, (Table.generate g a).terminal? pair.1.name = some u ∧
        g.terminalPrecedence u = some r) ∧ (Table.generate g a).terminal? pair.2.name = some x)
    (params : P) :
    Ends (builder g a build) env (start (tokens.map .ok) params) (Refused env) := by
  have wf := h.wellFormed
  have ht : (builder g a build : Parser V P).tables.Realizes g a := realizes_generate
  have plain : Plain (builder g a build : Parser V P).actions := plain_building _ build
  have hshifts := shiftsError_eq_none h hf
  obtain ⟨hist, d, outcome, d', hsteps, hstop⟩ := exists_stop wf hf ht env
    (fun hγ => ⟨_, fun ps hchain => length_le_of_chain h hchain⟩)
    (reading_start (tokens.map .ok) params)
  have hclean := hsteps.clean hshifts rfl
  obtain ⟨hreported, hrecovering⟩ := hsteps.quiet hclean
  cases herror : (builder g a build : Parser V P).meetsError d with
  | true => exact hsteps.refused hshifts (hrecovering rfl) hreported herror
  | false =>
    -- a run that meets no error accepts, and then the tokens are those of a tree
    obtain ⟨trees, γ, w, rest, hparsed, -⟩ := Parsed.steps hf ht wf plain hsteps hclean
      (parsed_start _ tokens params)
    rcases hparsed.step hf ht wf env plain herror with ⟨_, _, hnext, -⟩ | ⟨⟨_, hstop'⟩, -⟩
    · rw [hstop] at hnext
      cases hnext
    rw [hstop] at hstop'
    cases hstop'
    obtain ⟨hrun, hhistory⟩ := hsteps.run hstop (Nat.lt_succ_self _)
    have hend : ∀ name, (builder g a build : Parser V P).tables.terminal? name =
        some Symbol.endOfInput → name = Symbol.endName :=
      fun name => (Table.terminal?_eq_endOfInput wf).mp
    obtain ⟨_, tree, w, hparsed, hread, -⟩ := exists_parsed wf hf ht hend plain hnames hrun rfl (by
      rw [hhistory, List.forall_mem_append]
      exact ⟨hclean, by simpa using herror⟩)
    have hyields : g.Yields [tree] [.nonterminal g.start] w _ := hparsed.yields
    obtain ⟨words, rfl, hwords⟩ := phrases_of_yields h hyields
    obtain _ | ⟨hphrase, _ | _⟩ := hwords
    obtain ⟨token, input, htokens, htoken, hinput⟩ :=
      (hphrase rfl).exists_flatten fun e he => hparsed.names e (by simpa using he)
    refine absurd hinput (hform token input ?_ htoken)
    rw [← hread, ← htokens]
    simp

end Outcomes

end TableParsing.ShiftReduce
