import TableParsing.Proofs.Table.Conflict

/-! Conflicts of the canonical collection and of automata with one state for each core. States of
one core shift and accept alike. What a canonical state reduces on a terminal, the state of its
core reduces too; and every reduction of the latter on a terminal is made by some canonical state
of its core. Two reductions may so come together from different canonical states, a shift and a
reduction only from one. -/

namespace TableParsing

namespace Table

variable {g : Grammar} {a b : Automaton}

theorem conflicts_eq_nil : (generate g a).conflicts = [] ↔
    ∀ (s : Nat) (st : Automaton.State) (t : Nat), a.states[s]? = some st →
      t < g.terminals.size → reducesOn st t = [] ∨
        shiftOn st t = none ∧ ∀ p ∈ reducesOn st t, ∀ q ∈ reducesOn st t, p = q := by
  constructor
  · intro h s st t hst ht
    exact resolve_conflicts_eq_nil.mp (entry_conflicts h hst ht)
  · intro h
    rw [List.eq_nil_iff_forall_not_mem]
    intro c hc
    obtain ⟨s, st, t, hst, ht, hc⟩ := mem_conflicts.mp hc
    have hnil : (entry g s st t).conflicts = [] := resolve_conflicts_eq_nil.mpr (h s st t hst ht)
    rw [hnil] at hc
    cases hc

section SameCore

variable (ha : a.Faithful g) (hb : b.Faithful g) {s s' t : Nat} {st st' : Automaton.State}

include ha hb

theorem shiftOn_core (hst : a.states[s]? = some st) (hst' : b.states[s']? = some st')
    (hcore : Canonical.core st = Canonical.core st') :
    shiftOn st t = none ↔ shiftOn st' t = none := by
  have haccepts := ha.accepts_core hb hst hst' hcore
  have hstep : a.step s (.terminal t) = st.target? (.terminal t) := by
    rw [Automaton.step, hst, Option.bind_some]
  have hstep' : b.step s' (.terminal t) = st'.target? (.terminal t) := by
    rw [Automaton.step, hst', Option.bind_some]
  rw [shiftOn, shiftOn, ← hstep, ← hstep', haccepts]
  rcases ha.step_core hb hst hst' hcore (.terminal t) with
    ⟨hnone, hnone'⟩ | ⟨u, v, -, -, hu, hv, -⟩
  · rw [hnone, hnone']
  · simp [hu, hv]

theorem exists_reducesOn_core (hexact : a.Exact g) (hcovers : b.Covers g)
    (hst : a.states[s]? = some st) {p : Nat} (hp : p ∈ reducesOn st t) :
    ∃ (s' : Nat) (st' : Automaton.State), b.states[s']? = some st' ∧
      Canonical.core st = Canonical.core st' ∧ p ∈ reducesOn st' t := by
  obtain ⟨l, hl, ht⟩ := mem_reducesOn.mp hp
  obtain ⟨γ, hγ, hahead⟩ := (hexact s st p l t hst hl).mp ht
  rcases Automaton.stateAfter_core ha hb γ with ⟨hnone, -⟩ |
    ⟨u, v, stu, stv, hu, hv, hstu, hstv, heq⟩
  · rw [hγ] at hnone
    cases hnone
  · rw [hγ] at hu
    cases hu
    rw [hst] at hstu
    cases hstu
    obtain ⟨⟨q, l'⟩, hl', hq⟩ := List.mem_map.mp
      ((ha.reduces_core hb hst hstv heq.symm p).mp (List.mem_map_of_mem hl))
    obtain rfl : q = p := hq
    exact ⟨v, stv, hstv, heq.symm,
      mem_reducesOn.mpr ⟨l', hl', hcovers γ v stv q l' t hv hstv hl' hahead⟩⟩

theorem reducesOn_of_core (hexact : a.Exact g) (hcovers : b.Covers g) (hdistinct : b.Distinct)
    (hst : a.states[s]? = some st) (hst' : b.states[s']? = some st')
    (hcore : Canonical.core st = Canonical.core st') {p : Nat} (hp : p ∈ reducesOn st t) :
    p ∈ reducesOn st' t := by
  obtain ⟨u, stu, hstu, hcoreu, hpu⟩ := exists_reducesOn_core ha hb hexact hcovers hst hp
  obtain rfl := hdistinct u s' stu st' hstu hst' (hcoreu.symm.trans hcore)
  rw [hst'] at hstu
  cases hstu
  exact hpu

theorem conflicts_eq_nil_of_core (hexact : a.Exact g) (hcovers : b.Covers g)
    (hdistinct : b.Distinct) (h : (generate g b).conflicts = []) :
    (generate g a).conflicts = [] := by
  rw [conflicts_eq_nil] at h ⊢
  intro s st t hst ht
  obtain ⟨s', st', hst', hcore⟩ := Automaton.exists_core ha hb hst
  have hsub : ∀ {p}, p ∈ reducesOn st t → p ∈ reducesOn st' t :=
    fun hp => reducesOn_of_core ha hb hexact hcovers hdistinct hst hst' hcore.symm hp
  rcases h s' st' t hst' ht with hnil | ⟨hnone, hsame⟩
  · refine Or.inl (List.eq_nil_iff_forall_not_mem.mpr fun p hp => ?_)
    have hp' := hsub hp
    rw [hnil] at hp'
    cases hp'
  · exact Or.inr ⟨(shiftOn_core ha hb hst hst' hcore.symm).mpr hnone,
      fun p hp q hq => hsame p (hsub hp) q (hsub hq)⟩

theorem reduceReduce_of_core (hexact : a.Exact g) (hcovers : b.Covers g)
    (h : (generate g b).conflicts = []) {c : Conflict} (hc : c ∈ (generate g a).conflicts) :
    c.reason = .reduceReduce := by
  obtain ⟨s, st, t, hst, ht, hc⟩ := mem_conflicts.mp hc
  refine resolve_reduceReduce ?_ hc
  by_contra hne
  rw [not_or] at hne
  obtain ⟨p, hp⟩ := List.exists_mem_of_ne_nil _ hne.2
  -- a state of the same core makes the reduction and the shift
  obtain ⟨s', st', hst', hcore, hp'⟩ := exists_reducesOn_core ha hb hexact hcovers hst hp
  rcases conflicts_eq_nil.mp h s' st' t hst' ht with hnil | ⟨hnone, -⟩
  · rw [hnil] at hp'
    cases hp'
  · exact hne.1 ((shiftOn_core ha hb hst hst' hcore).mpr hnone)

end SameCore

end Table

namespace Method

theorem lr1_crossed : (lr1.automaton .crossed).map (fun b =>
    (Table.generate .crossed b).conflicts.length) = .ok 0 := by
  simp only [automaton, Canonical.build, Exploration.explore_eq]
  cbv

theorem merged_crossed : (merged.automaton .crossed).map (fun m =>
    (Table.generate .crossed m).conflicts.length) = .ok 2 := by
  simp only [automaton, Canonical.build, Exploration.explore_eq]
  delta Canonical.mergeCores
  simp only [Numbering.find?_eq_findIdx?, Numbering.keys_ofList_eq]
  cbv

theorem lalr_crossed : ∃ a, lalr.automaton .crossed = .ok a := by
  have hsize : (LR0.build .crossed).map Array.size = .ok 12 := by
    simp only [LR0.build, Exploration.explore_eq]
    cbv
  obtain ⟨d, hd, -⟩ := map_eq_ok hsize
  exact ⟨_, by rw [automaton, hd]; rfl⟩

variable {g : Grammar} {a b : Automaton}

/-- Merging canonical states of one core creates conflicts between reductions only: a canonical
table has no conflict where the LALR table has none, and where it has none itself, every conflict
of the LALR table and of the merged table is one between reductions. -/
theorem merging_reduceReduce (hg : g.Defined) (ha : lalr.automaton g = .ok a)
    (hb : lr1.automaton g = .ok b) :
    ((Table.generate g a).conflicts = [] → (Table.generate g b).conflicts = []) ∧
    ((Table.generate g b).conflicts = [] →
      (∀ c ∈ (Table.generate g a).conflicts, c.reason = .reduceReduce) ∧
      ∃ m, merged.automaton g = .ok m ∧
        ∀ c ∈ (Table.generate g m).conflicts, c.reason = .reduceReduce) := by
  have wf := hg.wellFormed
  obtain ⟨d, hd, rfl⟩ := map_eq_ok ha
  have hrep := LR0.build_represents wf hd
  have hfa := Automaton.ofLR0_faithful (f := fun s p =>
    ((Lookahead.compute g d).lookahead? s p).getD ∅) hrep
  have hea := Automaton.propagated_exact wf hrep
  obtain ⟨nodes, hnodes⟩ := Canonical.build_nodes wf hb
  have hmerged : merged.automaton g = .ok (Canonical.mergeCores b) := by
    have hbuild : Canonical.build g = .ok b := hb
    rw [automaton, hbuild]
    rfl
  obtain ⟨hfm, hem, -⟩ := merged_spec wf hmerged
  refine ⟨fun h => ?_, fun h => ⟨fun c hc => ?_, _, hmerged, fun c hc => ?_⟩⟩
  · exact Table.conflicts_eq_nil_of_core hnodes.faithful hfa hnodes.exact hea.covers
      (Automaton.ofLR0_distinct hrep) h
  · exact Table.reduceReduce_of_core hfa hnodes.faithful hea hnodes.exact.covers h hc
  · exact Table.reduceReduce_of_core hfm hnodes.faithful hem hnodes.exact.covers h hc

theorem merging_crossed : ∃ a b m, lalr.automaton .crossed = .ok a ∧
    lr1.automaton .crossed = .ok b ∧ merged.automaton .crossed = .ok m ∧
    (Table.generate .crossed b).conflicts = [] ∧
    (∀ c ∈ (Table.generate .crossed a).conflicts, c.reason = .reduceReduce) ∧
    (Table.generate .crossed m).conflicts.length = 2 ∧
    ∀ c ∈ (Table.generate .crossed m).conflicts, c.reason = .reduceReduce := by
  obtain ⟨a, ha⟩ := lalr_crossed
  obtain ⟨b, hb, hcanonical⟩ := map_eq_ok lr1_crossed
  obtain ⟨m, hm, hlength⟩ := map_eq_ok merged_crossed
  have hnil := List.eq_nil_of_length_eq_zero hcanonical.symm
  obtain ⟨hlalr, m', hm', hmerged⟩ :=
    (merging_reduceReduce Grammar.crossed_defined ha hb).2 hnil
  rw [hm] at hm'
  cases hm'
  exact ⟨a, b, m, ha, hb, hm, hnil, hlalr, hlength.symm, hmerged⟩

end Method

end TableParsing
