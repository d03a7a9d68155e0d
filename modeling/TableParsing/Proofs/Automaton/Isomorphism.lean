import Mathlib.Data.Set.Function
import TableParsing.Proofs.Automaton.Faithful

/-! Two faithful automata with one state for each core and exact look-ahead sets differ only in
the numbers of their states: what a state does is said by its core, and what its look-ahead sets
hold by the prefixes that lead to it, which are the same in both. -/

namespace TableParsing.Automaton

def SameCore (f : Nat → Nat) (a b : Automaton) : Prop :=
  ∀ (s : Nat) (st : State), a.states[s]? = some st →
    ∃ st', b.states[f s]? = some st' ∧ Canonical.core st' = Canonical.core st

/-- The second automaton is the first with its states renumbered, but for the order in which
a state lists its transitions and reductions. -/
structure Renumbered (f : Nat → Nat) (a b : Automaton) : Prop where
  bijective : Set.BijOn f {s | s < a.states.size} {s | s < b.states.size}
  zero : f 0 = 0
  state : ∀ (s : Nat) (st : State), a.states[s]? = some st → ∃ st', b.states[f s]? = some st' ∧
    Canonical.core st' = Canonical.core st ∧
    (∀ x, st'.target? x = (st.target? x).map f) ∧ st'.accepts = st.accepts ∧
    st'.reduces.Perm st.reduces

section Faithful

variable {g : Grammar} {a b : Automaton} (ha : a.Faithful g) (hb : b.Faithful g)

include ha hb

theorem stateAfter_core (γ : List Symbol) :
    stateAfter a.step γ = none ∧ stateAfter b.step γ = none ∨
    ∃ s s' st st', stateAfter a.step γ = some s ∧ stateAfter b.step γ = some s' ∧
      a.states[s]? = some st ∧ b.states[s']? = some st' ∧
        Canonical.core st' = Canonical.core st := by
  induction γ with
  | nil =>
    obtain ⟨st, hst, hk, -⟩ := ha.state [] 0 rfl
    obtain ⟨st', hst', hk', -⟩ := hb.state [] 0 rfl
    exact Or.inr ⟨0, 0, st, st', rfl, rfl, hst, hst', (hk'.eq_iff hk).mpr fun _ => Iff.rfl⟩
  | cons x γ ih =>
    -- states of one core move alike, and to states of one core
    simp only [stateAfter]
    rcases ih with ⟨hs, hs'⟩ | ⟨s, s', st, st', hs, hs', hst, hst', hcore⟩
    · exact Or.inl ⟨by rw [hs]; rfl, by rw [hs']; rfl⟩
    · simp only [hs, hs', Option.bind_some]
      rcases ha.step_core hb hst hst' hcore.symm x with hnone |
        ⟨u, v, stu, stv, hu, hv, hstu, hstv, heq⟩
      · exact Or.inl hnone
      · exact Or.inr ⟨u, v, stu, stv, hu, hv, hstu, hstv, heq.symm⟩

theorem exists_core {s : Nat} {st : State} (hst : a.states[s]? = some st) :
    ∃ (s' : Nat) (st' : State),
      b.states[s']? = some st' ∧ Canonical.core st' = Canonical.core st := by
  obtain ⟨γ, hγ⟩ := ha.reached s (Array.getElem?_eq_some_iff.mp hst).1
  rcases stateAfter_core ha hb γ with ⟨hna, -⟩ | ⟨u, v, stu, stv, hu, -, hstu, hstv, hcore⟩
  · rw [hγ] at hna
    cases hna
  · rw [hγ] at hu
    cases hu
    rw [hst] at hstu
    cases hstu
    exact ⟨v, stv, hstv, hcore⟩

variable (hda : a.Distinct) (hdb : b.Distinct) {f : Nat → Nat} (hf : SameCore f a b)

include hdb hf

omit ha hb in
theorem SameCore.eq_of_core {s s' : Nat} {st st' : State} (hs : a.states[s]? = some st)
    (hs' : b.states[s']? = some st') (hcore : Canonical.core st' = Canonical.core st) :
    f s = s' := by
  obtain ⟨st'', hst'', hcore'⟩ := hf s st hs
  exact hdb _ _ st'' st' hst'' hs' (hcore'.trans hcore.symm)

theorem SameCore.target?_eq {s : Nat} {st st' : State} (hst : a.states[s]? = some st)
    (hst' : b.states[f s]? = some st') (hcore : Canonical.core st = Canonical.core st')
    (x : Symbol) : st'.target? x = (st.target? x).map f := by
  have hs : a.step s x = st.target? x := by rw [step, hst, Option.bind_some]
  have hs' : b.step (f s) x = st'.target? x := by rw [step, hst', Option.bind_some]
  rw [← hs, ← hs']
  rcases ha.step_core hb hst hst' hcore x with ⟨hu, hv⟩ | ⟨u, v, stu, stv, hu, hv, hstu, hstv, heq⟩
  · rw [hu, hv, Option.map_none]
  · rw [hu, hv, Option.map_some, hf.eq_of_core hdb hstu hstv heq.symm]

theorem SameCore.zero : f 0 = 0 := by
  rcases stateAfter_core ha hb [] with ⟨hnone, -⟩ | ⟨s, s', st, st', hs, hs', hst, hst', hcore⟩
  · cases hnone
  · cases hs
    cases hs'
    exact hf.eq_of_core hdb hst hst' hcore

include hda

theorem SameCore.stateAfter_iff {γ : List Symbol} {s : Nat} (hs : s < a.states.size) :
    stateAfter b.step γ = some (f s) ↔ stateAfter a.step γ = some s := by
  rcases stateAfter_core ha hb γ with ⟨hna, hnb⟩ | ⟨u, v, st, st', hu, hv, hst, hst', hcore⟩
  · simp [hna, hnb]
  · have hfu := hf.eq_of_core hdb hst hst' hcore
    rw [hu, hv, Option.some.injEq, Option.some.injEq, ← hfu]
    constructor
    · intro heq
      have hst₂ := Array.getElem?_eq_getElem hs
      obtain ⟨st₂', hst₂', hcore₂⟩ := hf s _ hst₂
      rw [← heq, hfu, hst'] at hst₂'
      cases hst₂'
      exact hda u s st _ hst hst₂ (hcore.symm.trans hcore₂)
    · intro heq
      rw [heq]

theorem SameCore.bijective :
    Set.BijOn f {s | s < a.states.size} {s | s < b.states.size} := by
  refine ⟨?_, ?_, ?_⟩
  · intro s hs
    obtain ⟨st', hst', -⟩ := hf s _ (Array.getElem?_eq_getElem hs)
    exact (Array.getElem?_eq_some_iff.mp hst').1
  · intro s hs s' hs' heq
    obtain ⟨st, hst, hcore⟩ := hf s _ (Array.getElem?_eq_getElem hs)
    obtain ⟨st', hst', hcore'⟩ := hf s' _ (Array.getElem?_eq_getElem hs')
    rw [heq, hst'] at hst
    cases hst
    exact hda s s' _ _ (Array.getElem?_eq_getElem hs) (Array.getElem?_eq_getElem hs')
      (hcore.symm.trans hcore')
  · intro s' hs'
    have hst' := Array.getElem?_eq_getElem hs'
    obtain ⟨u, st, hst, hcore⟩ := exists_core hb ha hst'
    exact ⟨u, (Array.getElem?_eq_some_iff.mp hst).1, hf.eq_of_core hdb hst hst' hcore.symm⟩

variable (hea : a.Exact g) (heb : b.Exact g)

include hea heb

theorem SameCore.reduces_perm {s : Nat} {st st' : State} (hst : a.states[s]? = some st)
    (hst' : b.states[f s]? = some st') (hcore : Canonical.core st = Canonical.core st') :
    st'.reduces.Perm st.reduces := by
  have hlt := (Array.getElem?_eq_some_iff.mp hst).1
  refine perm_of_agree (hb.reduces_nodup st' (Array.mem_of_getElem? hst'))
    (ha.reduces_nodup st (Array.mem_of_getElem? hst))
    (fun p => (ha.reduces_core hb hst hst' hcore p).symm) fun p k' k hk' hk => ?_
  -- the sets have the same members, as the same prefixes lead to the two states
  apply TerminalSet.ext
  intro t
  rw [hea s st p k t hst hk, heb (f s) st' p k' t hst' hk']
  simp only [hf.stateAfter_iff ha hb hda hdb hlt]

theorem SameCore.renumbered : Renumbered f a b := by
  refine ⟨hf.bijective ha hb hda hdb, hf.zero ha hb hdb, fun s st hst => ?_⟩
  obtain ⟨st', hst', hcore⟩ := hf s st hst
  exact ⟨st', hst', hcore, hf.target?_eq ha hb hdb hst hst' hcore.symm,
    hb.accepts_core ha hst' hst hcore,
    hf.reduces_perm ha hb hda hdb hea heb hst hst' hcore.symm⟩

end Faithful

def coreIndex (a : Automaton) (items : List Item) : Nat :=
  (a.states.findIdx? fun st => Canonical.core st == items).getD 0

theorem coreIndex_eq {a : Automaton} (hd : a.Distinct) {s : Nat} {st : State}
    (hst : a.states[s]? = some st) : a.coreIndex (Canonical.core st) = s := by
  obtain ⟨hs, rfl⟩ := Array.getElem?_eq_some_iff.mp hst
  cases hfound : a.states.findIdx? fun st => Canonical.core st == Canonical.core a.states[s] with
  | none =>
    have hne := Array.findIdx?_eq_none_iff.mp hfound _ (Array.getElem_mem hs)
    simp at hne
  | some i =>
    obtain ⟨hi, hcore, -⟩ := Array.findIdx?_eq_some_iff_getElem.mp hfound
    rw [coreIndex, hfound, Option.getD_some]
    exact hd i s _ _ (Array.getElem?_eq_getElem hi) hst (beq_iff_eq.mp hcore)

end TableParsing.Automaton
