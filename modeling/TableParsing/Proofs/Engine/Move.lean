import TableParsing.Proofs.Automaton.Method
import TableParsing.Proofs.Engine.Step
import TableParsing.Proofs.Table

/-! What the moves of the engine rest on: tables that do only what an automaton allows, stacks
that follow its paths, actions that end no parse, and the tokens still to be read. -/

namespace TableParsing.ShiftReduce

variable {V P : Type} {g : Grammar} {a : Automaton}

/-- The tables do only what the automaton allows. -/
structure Tables.Realizes (t : Tables) (g : Grammar) (a : Automaton) : Prop where
  shift : ∀ {s u s' : Nat}, t.action s u = .shift s' → a.step s (.terminal u) = some s'
  reduce : ∀ {s u p : Nat}, t.action s u = .reduce p →
    ∃ st, a.states[s]? = some st ∧ p ∈ st.reduces.map (·.1)
  accept : ∀ {s u : Nat}, t.action s u = .accept →
    u = Symbol.endOfInput ∧ ∃ st, a.states[s]? = some st ∧ st.accepts = true
  default : ∀ {s p : Nat}, t.defaultReduction s = some p →
    ∃ st, a.states[s]? = some st ∧ p ∈ st.reduces.map (·.1)
  goto : ∀ s n, t.goto s n = a.step s (.nonterminal n)
  production : ∀ p, t.production p =
    ⟨(g.production p).left, (g.production p).right.size, (g.production p).aliases⟩

theorem realizes_generate : (Tables.ofTable (Table.generate g a)).Realizes g a where
  shift := Table.action_shift
  reduce := Table.action_reduce
  accept := Table.action_accept
  default := Table.defaultReduction_reduces
  goto := Table.goto_generate
  production := Table.production_generate

theorem Tables.actionOn_eq {t : Tables} {s : Nat} {la : Lookahead V} {act : Action}
    (h : t.actionOn s la = act) (hne : act ≠ .error) :
    ∃ u, la.terminal = some u ∧ t.action s u = act := by
  rw [Tables.actionOn] at h
  split at h
  case h_1 u hu => exact ⟨u, hu, h⟩
  case h_2 => exact absurd h.symm hne

/-- The states on a stack are those passed by reading the symbols, the latest first. -/
inductive Stacked (a : Automaton) : List Symbol → List Nat → Prop
  | base : Stacked a [] [0]
  | push {γ : List Symbol} {s s' : Nat} {states : List Nat} {x : Symbol} :
      Stacked a γ (s :: states) → a.step s x = some s' → Stacked a (x :: γ) (s' :: s :: states)

namespace Stacked

theorem length_eq {γ : List Symbol} {states : List Nat} (h : Stacked a γ states) :
    states.length = γ.length + 1 := by
  induction h with
  | base => rfl
  | push _ _ ih => rw [List.length_cons, ih, List.length_cons]

theorem zero_mem {γ : List Symbol} {states : List Nat} (h : Stacked a γ states) :
    0 ∈ states := by
  induction h with
  | base => exact List.mem_singleton_self 0
  | push _ _ ih => exact List.mem_cons_of_mem _ ih

theorem exists_top {γ : List Symbol} {states : List Nat} (h : Stacked a γ states) :
    ∃ s rest, states = s :: rest ∧ stateAfter a.step γ = some s := by
  induction h with
  | base => exact ⟨0, [], rfl, rfl⟩
  | push _ hstep ih =>
    obtain ⟨s, rest, heq, hs⟩ := ih
    cases heq
    refine ⟨_, _, rfl, ?_⟩
    rw [stateAfter, hs, Option.bind_some, hstep]

theorem stateAfter_eq {γ : List Symbol} {s : Nat} {rest : List Nat}
    (h : Stacked a γ (s :: rest)) : stateAfter a.step γ = some s := by
  obtain ⟨_, _, heq, hs⟩ := h.exists_top
  cases heq
  exact hs

theorem drop_append {α γ : List Symbol} {states : List Nat} (h : Stacked a (α ++ γ) states) :
    Stacked a γ (states.drop α.length) := by
  induction α generalizing states with
  | nil => exact h
  | cons x α ih =>
    cases h with
    | push h _ => exact ih h

theorem drop {γ : List Symbol} {states : List Nat} (h : Stacked a γ states) {k : Nat}
    (hk : k < states.length) : Stacked a (γ.drop k) (states.drop k) := by
  have hlen : (γ.take k).length = k := by
    rw [List.length_take]
    have hγ := h.length_eq
    omega
  rw [← List.take_append_drop k γ] at h
  have hdrop := h.drop_append
  rwa [hlen] at hdrop

end Stacked

section Reducing

variable (wf : g.WellFormed) (hf : a.Faithful g)

include wf hf

theorem exists_goto {γ : List Symbol} {s p : Nat} {rest : List Nat} {st : Automaton.State}
    (h : Stacked a γ (s :: rest)) (hst : a.states[s]? = some st)
    (hp : p ∈ st.reduces.map (·.1)) : ∃ δ state deeper next,
      γ = (g.production p).right.toList.reverse ++ δ ∧
      (s :: rest).drop (g.production p).right.size = state :: deeper ∧
      Stacked a δ (state :: deeper) ∧
      a.step state (.nonterminal (g.production p).left) = some next := by
  have hd := hf.describes h.stateAfter_eq hst
  obtain ⟨-, δ, rfl, i, hi, hnext⟩ := wf.completed ((hd.completed p).mp hp)
  have hδ := h.drop_append
  rw [List.length_reverse, Array.length_toList] at hδ
  obtain ⟨state, deeper, hdrop, hstate⟩ := hδ.exists_top
  rw [hdrop] at hδ
  obtain ⟨st', hst', -, hd'⟩ := hf.state δ state hstate
  obtain ⟨next, hgoto⟩ := (hd'.moves _).mpr ⟨by simp, i, hi, hnext⟩
  refine ⟨δ, state, deeper, next, rfl, hdrop, hδ, ?_⟩
  rw [Automaton.step, hst']
  exact hgoto

end Reducing

def isPlain : Control V → Bool
  | .default => true
  | .value _ => true
  | .accept _ => false
  | .abort => false

def Plain (actions : Actions V P) : Prop :=
  ∀ action, some action ∈ actions → ∀ nested c, isPlain (action nested c).1 = true

theorem plain_empty : Plain (#[] : Actions V P) := by
  intro action haction
  simp at haction

theorem Plain.run {actions : Actions V P} (h : Plain actions) (nested : Nested V P)
    (c : Context V P) : ∃ v after, actions.run nested c = (.value v, after) := by
  rw [Actions.run]
  cases haction : actions.getD c.production none with
  | none => exact ⟨_, _, rfl⟩
  | some action =>
    have hplain := h action (mem_of_getD haction) nested c
    cases hresult : action nested c with
    | mk control after =>
      rw [hresult] at hplain
      cases control with
      | default =>
        refine ⟨(after.take 1).1, (after.take 1).2, ?_⟩
        simp only [hresult]
      | value v =>
        refine ⟨some v, after, ?_⟩
        simp only [hresult]
      | accept v => cases hplain
      | abort => cases hplain

def contextOf (g : Grammar) (c : Config V P) (p : Nat) : Context V P :=
  .ofReduction p (g.production p).aliases
    (c.entries.take (g.production p).right.size).reverse
    (c.entries.drop (g.production p).right.size) c.params

def reduced (g : Grammar) (c : Config V P) (p next : Nat) (v : Option V)
    (after : Context V P) : Config V P :=
  { c with
    states := next :: c.states.drop (g.production p).right.size
    entries := ⟨v, after.location⟩ :: c.entries.drop (g.production p).right.size
    params := after.params }

theorem reduce_of_run {parser : Parser V P} {env : Environment V P}
    (ht : parser.tables.Realizes g a) {c : Config V P} {p state next : Nat} {deeper : List Nat}
    {v : Option V} {after : Context V P}
    (hrun : parser.actions.run env.nested (contextOf g c p) = (.value v, after))
    (hdrop : c.states.drop (g.production p).right.size = state :: deeper)
    (hgoto : a.step state (.nonterminal (g.production p).left) = some next) :
    parser.reduce env c p =
      .next (.reduce (contextOf g c p)) (reduced g c p next v after) := by
  rw [contextOf] at hrun
  simp only [Parser.reduce, ht.production, hdrop, hrun, ht.goto, hgoto, contextOf, reduced]

theorem reduce_next {parser : Parser V P} (env : Environment V P)
    (ht : parser.tables.Realizes g a) (plain : Plain parser.actions) {c : Config V P}
    {p state next : Nat} {deeper : List Nat}
    (hdrop : c.states.drop (g.production p).right.size = state :: deeper)
    (hgoto : a.step state (.nonterminal (g.production p).left) = some next) :
    ∃ v after, parser.actions.run env.nested (contextOf g c p) = (.value v, after) ∧
      parser.reduce env c p =
        .next (.reduce (contextOf g c p)) (reduced g c p next v after) := by
  obtain ⟨v, after, hrun⟩ := plain.run env.nested (contextOf g c p)
  exact ⟨v, after, hrun, reduce_of_run ht hrun hdrop hgoto⟩

theorem handed_eq {parser : Parser V P} (ht : parser.tables.Realizes g a) (c : Config V P)
    (p : Nat) : parser.handed c p = contextOf g c p := by
  simp only [Parser.handed, ht.production, contextOf]

theorem reduced_of_next {parser : Parser V P} {env : Environment V P}
    (ht : parser.tables.Realizes g a) {c c' : Config V P} {p : Nat} {e : Event V P}
    (h : parser.reduce env c p = .next e c') :
    ∃ state deeper next v after,
      c.states.drop (g.production p).right.size = state :: deeper ∧
      a.step state (.nonterminal (g.production p).left) = some next ∧
      parser.actions.run env.nested (contextOf g c p) = (.value v, after) ∧
      e = .reduce (contextOf g c p) ∧ c' = reduced g c p next v after := by
  obtain ⟨state, deeper, next, v, after, hdrop, hrun, hgoto, rfl, rfl⟩ := exists_goto_of_reduce h
  rw [ht.production] at hdrop
  rw [ht.production, ht.goto] at hgoto
  rw [handed_eq ht] at hrun
  refine ⟨state, deeper, next, v, after, hdrop, hgoto, hrun, by rw [handed_eq ht], ?_⟩
  rw [reduced, hdrop, ht.production]

inductive Reads (t : Tables) : Lookahead V → Source V → List (Token V) → Prop
  | token (token : Token V) (rest : List (Token V)) :
      Reads t (t.ofToken token) (rest.map .ok) (token :: rest)
  | ending {la : Lookahead V} : la.terminal = some Symbol.endOfInput → la.token = none →
      Reads t la [] []

def Pending (t : Tables) (c : Config V P) (rest : List (Token V)) : Prop :=
  c.lookahead = none ∧ c.input = rest.map .ok ∨
    ∃ la, c.lookahead = some la ∧ Reads t la c.input rest

theorem Pending.look {parser : Parser V P} {c : Config V P} {rest : List (Token V)}
    (h : Pending parser.tables c rest) :
    ∃ la input, parser.look c = .ok (la, input) ∧ Reads parser.tables la input rest := by
  rcases h with ⟨hnone, hinput⟩ | ⟨la, hla, hreads⟩
  · cases rest with
    | nil =>
      refine ⟨endLookahead c.entries, [], ?_, .ending rfl rfl⟩
      simp [Parser.look, hnone, hinput, Tables.read]
    | cons token rest =>
      refine ⟨parser.tables.ofToken token, rest.map .ok, ?_, .token token rest⟩
      simp [Parser.look, hnone, hinput, Tables.read]
  · refine ⟨la, c.input, ?_, hreads⟩
    simp [Parser.look, hla]

theorem pending_start (t : Tables) (tokens : List (Token V)) (params : P) :
    Pending t (start (tokens.map .ok) params) tokens := Or.inl ⟨rfl, rfl⟩

def silent : Environment Nat Unit :=
  ⟨fun _ params => (.error .unfinished, params), fun _ _ => none⟩

def tokensOf (names : List String) : List (Token Nat) :=
  names.map fun name => ⟨name, name, 0, .zero⟩

end TableParsing.ShiftReduce
