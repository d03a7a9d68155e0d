import TableParsing.Automaton.Canonical
import TableParsing.Proofs.Automaton.LR0

/-! What every construction of an LR automaton promises. A prefix leads to a state that has
its core, moves, completes and accepts as the items valid after it do. The look-ahead sets
cover what can come next if nothing that can come next after a prefix is missing from the
state it leads to, and are exact if they hold nothing else. -/

namespace TableParsing.Automaton

def step (a : Automaton) (s : Nat) (x : Symbol) : Option Nat := (a.states[s]?).bind (·.target? x)

structure Faithful (g : Grammar) (a : Automaton) : Prop where
  state : ∀ γ s, stateAfter a.step γ = some s → ∃ st, a.states[s]? = some st ∧
    IsKernel g γ (Canonical.core st) ∧
      Describes g γ st.transitions (st.reduces.map (·.1)) st.accepts
  reached : ∀ s, s < a.states.size → ∃ γ, stateAfter a.step γ = some s
  symbols_nodup : ∀ st ∈ a.states, (st.transitions.map (·.1)).Nodup
  reduces_nodup : ∀ st ∈ a.states, (st.reduces.map (·.1)).Nodup

/-- Nothing that can come next is missing from the look-ahead sets. -/
def Covers (g : Grammar) (a : Automaton) : Prop :=
  ∀ γ s st p lookaheads t, stateAfter a.step γ = some s → a.states[s]? = some st →
    (p, lookaheads) ∈ st.reduces → Ahead g γ (.completed g p) t → t ∈ lookaheads

/-- The look-ahead sets hold what can come next after some prefix leading to the state. -/
def Exact (g : Grammar) (a : Automaton) : Prop :=
  ∀ s st p lookaheads t, a.states[s]? = some st → (p, lookaheads) ∈ st.reduces →
    (t ∈ lookaheads ↔ ∃ γ, stateAfter a.step γ = some s ∧ Ahead g γ (.completed g p) t)

def Precise (g : Grammar) (a : Automaton) : Prop :=
  ∀ γ s st p lookaheads t, stateAfter a.step γ = some s → a.states[s]? = some st →
    (p, lookaheads) ∈ st.reduces → (t ∈ lookaheads ↔ Ahead g γ (.completed g p) t)

def Annotated (g : Grammar) (a : Automaton) : Prop :=
  ∀ s st i o, a.states[s]? = some st → (i, o) ∈ st.kernel → ∃ lookaheads, o = some lookaheads ∧
    ∀ t, t ∈ lookaheads ↔ ∃ γ, stateAfter a.step γ = some s ∧ Ahead g γ i t

def Distinct (a : Automaton) : Prop :=
  ∀ (s s' : Nat) (st st' : State), a.states[s]? = some st → a.states[s']? = some st' →
    Canonical.core st = Canonical.core st' → s = s'

namespace Faithful

variable {g : Grammar} {a b : Automaton} (ha : Faithful g a) (hb : Faithful g b) {s s' : Nat}
  {st st' : State}

include ha in
theorem at_state {γ : List Symbol} (hγ : stateAfter a.step γ = some s)
    (hst : a.states[s]? = some st) : IsKernel g γ (Canonical.core st) ∧
      Describes g γ st.transitions (st.reduces.map (·.1)) st.accepts := by
  obtain ⟨_, hst', hk, hd⟩ := ha.state γ s hγ
  rw [hst] at hst'
  cases hst'
  exact ⟨hk, hd⟩

include ha in
theorem describes {γ : List Symbol} (hγ : stateAfter a.step γ = some s)
    (hst : a.states[s]? = some st) :
    Describes g γ st.transitions (st.reduces.map (·.1)) st.accepts := (ha.at_state hγ hst).2

include ha in
theorem viable_of_step {γ : List Symbol} {x : Symbol} (hγ : stateAfter a.step γ = some s)
    (hx : a.step s x = some s') :
    x ≠ .terminal Symbol.endOfInput ∧ ∃ i, Viable g γ i ∧ i.next g = some x := by
  obtain ⟨st, hst, -, hd⟩ := ha.state γ s hγ
  rw [step, hst] at hx
  exact (hd.moves x).mp ⟨s', hx⟩

include ha in
theorem of_state (hst : a.states[s]? = some st) :
    ∃ γ, stateAfter a.step γ = some s ∧ IsKernel g γ (Canonical.core st) ∧
      Describes g γ st.transitions (st.reduces.map (·.1)) st.accepts := by
  obtain ⟨γ, hγ⟩ := ha.reached s (Array.getElem?_eq_some_iff.mp hst).1
  exact ⟨γ, hγ, ha.at_state hγ hst⟩

section SameCore

variable (hs : a.states[s]? = some st) (hs' : b.states[s']? = some st')
  (hcore : Canonical.core st = Canonical.core st')

include ha hb hs hs' hcore

theorem reduces_core (p : Nat) :
    p ∈ st.reduces.map (·.1) ↔ p ∈ st'.reduces.map (·.1) := by
  obtain ⟨γ, -, hγ, hd⟩ := ha.of_state hs
  obtain ⟨δ, -, hδ, hd'⟩ := hb.of_state hs'
  rw [(hd.congr ((hγ.eq_iff hδ).mp hcore)).completed, hd'.completed]

theorem accepts_core : st.accepts = st'.accepts := by
  obtain ⟨γ, -, hγ, hd⟩ := ha.of_state hs
  obtain ⟨δ, -, hδ, hd'⟩ := hb.of_state hs'
  rw [Bool.eq_iff_iff, (hd.congr ((hγ.eq_iff hδ).mp hcore)).accepts, hd'.accepts]

theorem step_core (x : Symbol) : a.step s x = none ∧ b.step s' x = none ∨
    ∃ u v stu stv, a.step s x = some u ∧ b.step s' x = some v ∧
      a.states[u]? = some stu ∧ b.states[v]? = some stv ∧
        Canonical.core stu = Canonical.core stv := by
  obtain ⟨γ, hγ, hk, hd⟩ := ha.of_state hs
  obtain ⟨δ, hδ, hk', hd'⟩ := hb.of_state hs'
  have hsame := (hk.eq_iff hk').mp hcore
  have hmoves := ((hd.congr hsame).moves x).trans (hd'.moves x).symm
  have hstep : a.step s x = st.transitions.lookup x := by
    rw [step, hs]
    rfl
  have hstep' : b.step s' x = st'.transitions.lookup x := by
    rw [step, hs']
    rfl
  rw [← hstep, ← hstep'] at hmoves
  cases hu : a.step s x with
  | none =>
    cases hv : b.step s' x with
    | none => exact Or.inl ⟨rfl, rfl⟩
    | some v =>
      obtain ⟨u, hu'⟩ := hmoves.mpr ⟨v, hv⟩
      rw [hu] at hu'
      cases hu'
  | some u =>
    obtain ⟨v, hv⟩ := hmoves.mp ⟨u, hu⟩
    have hγu : stateAfter a.step (x :: γ) = some u := by rw [stateAfter, hγ, Option.bind_some, hu]
    have hδv : stateAfter b.step (x :: δ) = some v := by rw [stateAfter, hδ, Option.bind_some, hv]
    obtain ⟨stu, hstu, hku, -⟩ := ha.state _ u hγu
    obtain ⟨stv, hstv, hkv, -⟩ := hb.state _ v hδv
    refine Or.inr ⟨u, v, stu, stv, rfl, hv, hstu, hstv, (hku.eq_iff hkv).mpr fun i => ?_⟩
    exact core_cons_congr hsame

end SameCore

end Faithful

theorem Exact.covers {g : Grammar} {a : Automaton} (h : Exact g a) : Covers g a := by
  intro γ s st p lookaheads t hγ hst hp ht
  exact (h s st p lookaheads t hst hp).mpr ⟨γ, hγ, ht⟩

theorem Precise.exact {g : Grammar} {a : Automaton} (h : Precise g a)
    (reached : ∀ s, s < a.states.size → ∃ γ, stateAfter a.step γ = some s) : Exact g a := by
  intro s st p lookaheads t hst hp
  constructor
  · intro ht
    obtain ⟨γ, hγ⟩ := reached s (Array.getElem?_eq_some_iff.mp hst).1
    exact ⟨γ, hγ, (h γ s st p lookaheads t hγ hst hp).mp ht⟩
  · intro ht
    obtain ⟨γ, hγ, ht⟩ := ht
    exact (h γ s st p lookaheads t hγ hst hp).mpr ht

section OfLR0

variable {g : Grammar} {d : LR0.Collection} {f : Nat → Nat → TerminalSet}

theorem getElem?_ofLR0 {s : Nat} : (ofLR0 d f).states[s]? = (d[s]?).map fun state =>
    { kernel := state.kernel.map (·, none)
      transitions := state.transitions
      reduces := state.reduces.map fun p => (p, f s p)
      accepts := state.accepts } := by
  simp [ofLR0]

theorem step_ofLR0 : (ofLR0 d f).step = LR0.step d := by
  funext s x
  rw [step, LR0.step, getElem?_ofLR0]
  cases d[s]? <;> rfl

theorem core_ofLR0 {s : Nat} {st : State} (h : (ofLR0 d f).states[s]? = some st) :
    (d[s]?).map (·.kernel) = some (Canonical.core st) := by
  rw [getElem?_ofLR0, Option.map_eq_some_iff] at h
  obtain ⟨state, hstate, rfl⟩ := h
  simp [hstate, Canonical.core, Function.comp_def]

theorem ofLR0_faithful (h : LR0.Represents g d) : Faithful g (ofLR0 d f) := by
  have state_of_mem : ∀ st ∈ (ofLR0 d f).states, ∃ state ∈ d,
      st.transitions = state.transitions ∧ st.reduces.map (·.1) = state.reduces := by
    intro st hst
    obtain ⟨s, hs⟩ := Array.mem_iff_getElem?.mp hst
    rw [getElem?_ofLR0, Option.map_eq_some_iff] at hs
    obtain ⟨state, hstate, rfl⟩ := hs
    exact ⟨state, Array.mem_of_getElem? hstate, rfl, by simp [Function.comp_def]⟩
  refine ⟨?_, ?_, ?_, ?_⟩
  · intro γ s hs
    rw [step_ofLR0] at hs
    obtain ⟨state, hstate, hk, hd⟩ := h.state γ s hs
    refine ⟨_, by rw [getElem?_ofLR0, hstate]; rfl, ?_, ?_⟩
    · simpa [Canonical.core, Function.comp_def] using hk
    · simpa [Function.comp_def] using hd
  · intro s hs
    rw [step_ofLR0]
    exact h.reached s (by simpa [ofLR0] using hs)
  · intro st hst
    obtain ⟨state, hstate, htransitions, -⟩ := state_of_mem st hst
    rw [htransitions]
    exact h.symbols_nodup state hstate
  · intro st hst
    obtain ⟨state, hstate, -, hreduces⟩ := state_of_mem st hst
    rw [hreduces]
    exact h.reduces_nodup state hstate

theorem ofLR0_distinct (h : LR0.Represents g d) : Distinct (ofLR0 d f) := by
  intro s s' st st' hs hs' heq
  obtain ⟨state, hstate, hcore⟩ := Option.map_eq_some_iff.mp (core_ofLR0 hs)
  obtain ⟨state', hstate', hcore'⟩ := Option.map_eq_some_iff.mp (core_ofLR0 hs')
  exact h.injective s s' state state' hstate hstate' (by rw [hcore, hcore', heq])

end OfLR0

end TableParsing.Automaton
