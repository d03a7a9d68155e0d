import Mathlib.Data.List.Sort
import TableParsing.Proofs.Automaton.Isomorphism
import TableParsing.Proofs.Automaton.Method
import TableParsing.Proofs.Table

/-! The tables of two automata that differ only in the numbers of their states differ only in
these numbers. The decision of a cell does not look at the number of a state, nor at the order
in which the reductions come. -/

namespace TableParsing

variable (f : Nat → Nat)

def Action.rename : Action → Action
  | shift s => shift (f s)
  | reduce p => reduce p
  | accept => accept
  | error => error

def Conflict.rename (c : Conflict) : Conflict :=
  { c with
    state := f c.state
    candidates := c.candidates.map (Action.rename f)
    resolution := c.resolution.rename f }

def Cell.rename (c : Cell) : Cell :=
  ⟨c.action.map (Action.rename f), c.conflicts.map (Conflict.rename f)⟩

@[simp] theorem Action.rename_reduce (p : Nat) : (reduce p).rename f = reduce p := rfl

@[simp] theorem Action.rename_eq_reduce {act : Action} {p : Nat} :
    act.rename f = reduce p ↔ act = reduce p := by
  cases act <;> simp [rename]

theorem compareLevels_rename (shift : Action) (p : Nat) (s r : Option Precedence) :
    compareLevels (shift.rename f) p s r =
      { compareLevels shift p s r with
        resolution := (compareLevels shift p s r).resolution.rename f } := by
  cases s with
  | none => rfl
  | some s =>
    cases r with
    | none => rfl
    | some r =>
      simp only [compareLevels]
      split
      · rfl
      · split
        · rfl
        · split <;> rfl

theorem shiftPrecedence_rename (g : Grammar) (t : Nat) (shift : Action) :
    shiftPrecedence g t (shift.rename f) = shiftPrecedence g t shift := by
  cases shift <;> rfl

theorem shiftConflict_rename (g : Grammar) (s t : Nat) (shift : Action) (p : Nat) :
    shiftConflict g (f s) t (shift.rename f) p = (shiftConflict g s t shift p).rename f := by
  simp only [shiftConflict, shiftPrecedence_rename, compareLevels_rename]
  rfl

theorem resolve_rename (g : Grammar) (s t : Nat) (shift : Option Action) (reduces : List Nat) :
    resolve g (f s) t (shift.map (Action.rename f)) reduces =
      (resolve g s t shift reduces).rename f := by
  simp only [resolve]
  split
  · rfl
  · rename_i winner losers hsorted
    have hconflicts : losers.map (reduceConflict (f s) t winner) =
        (losers.map (reduceConflict s t winner)).map (Conflict.rename f) := by
      rw [List.map_map]
      rfl
    rw [hconflicts]
    cases shift with
    | none => rfl
    | some shift =>
      simp only [Option.map_some, shiftConflict_rename, Cell.rename, List.map_append]
      rfl

theorem resolve_perm {g : Grammar} {s t : Nat} {shift : Option Action} {l l' : List Nat}
    (h : l.Perm l') : resolve g s t shift l = resolve g s t shift l' := by
  have hsort : l.mergeSort (· ≤ ·) = l'.mergeSort (· ≤ ·) := by
    have hperm := (l.mergeSort_perm (· ≤ ·)).trans (h.trans (l'.mergeSort_perm (· ≤ ·)).symm)
    exact hperm.eq_of_pairwise' (List.pairwise_mergeSort' (· ≤ ·) l)
      (List.pairwise_mergeSort' (· ≤ ·) l')
  rw [resolve, hsort, resolve]

namespace Table

/-- The second table is the first with its states renumbered, but for the order in which it
lists its conflicts. -/
structure Renumbered (t t' : Table) : Prop where
  bijective : Set.BijOn f {s | s < t.rows.size} {s | s < t'.rows.size}
  action : ∀ s < t.rows.size, ∀ u, t'.action (f s) u = (t.action s u).rename f
  goto : ∀ s < t.rows.size, ∀ n, t'.goto (f s) n = (t.goto s n).map f
  defaultReduction : ∀ s < t.rows.size, t'.defaultReduction (f s) = t.defaultReduction s
  conflicts : t'.conflicts.Perm (t.conflicts.map (Conflict.rename f))

variable {f}

theorem Renumbered.conflictCount {t t' : Table} (h : Renumbered f t t') :
    t'.conflictCount = t.conflictCount := by
  rw [Table.conflictCount, h.conflicts.countP_eq, List.countP_map]
  rfl

variable {g : Grammar} {a b : Automaton}

section State

variable {st st' : Automaton.State} (htarget : ∀ x, st'.target? x = (st.target? x).map f)
  (haccepts : st'.accepts = st.accepts) (hreduces : st'.reduces.Perm st.reduces)

include htarget haccepts

theorem shiftOn_rename (t : Nat) : shiftOn st' t = (shiftOn st t).map (Action.rename f) := by
  rw [shiftOn, shiftOn, htarget, haccepts]
  cases st.target? (.terminal t) with
  | some u => rfl
  | none =>
    simp only [Option.map_none]
    split <;> rfl

include hreduces

theorem entry_rename (s t : Nat) : entry g (f s) st' t = (entry g s st t).rename f := by
  have hperm : (reducesOn st' t).Perm (reducesOn st t) := hreduces.filterMap _
  rw [entry, entry, shiftOn_rename htarget haccepts, resolve_perm hperm, resolve_rename]

end State

def rowConflicts (g : Grammar) (a : Automaton) (s : Nat) : List Conflict :=
  match a.states[s]? with
  | some st => (cells g s st).flatMap (·.conflicts)
  | none => []

theorem conflicts_generate :
    (generate g a).conflicts = (List.range a.states.size).flatMap (rowConflicts g a) := by
  have hcells : (a.states.mapIdx (cells g)).toList.map (List.flatMap Cell.conflicts) =
      (List.range a.states.size).map (rowConflicts g a) := by
    apply List.ext_getElem?
    intro s
    rw [List.getElem?_map, List.getElem?_map, Array.getElem?_toList, Array.getElem?_mapIdx]
    by_cases hs : s < a.states.size
    · rw [Array.getElem?_eq_getElem hs, List.getElem?_range hs]
      simp [rowConflicts, hs]
    · rw [Array.getElem?_eq_none (by omega), List.getElem?_eq_none (by simpa using hs)]
      rfl
  rw [List.flatMap_def, ← hcells]
  simp only [generate, List.flatMap_def]
  rfl

section Renumbered

variable (h : a.Renumbered f b)

include h

theorem range_map_perm : (List.range b.states.size).Perm ((List.range a.states.size).map f) := by
  have hnodup : ((List.range a.states.size).map f).Nodup := by
    apply List.Nodup.map_on _ List.nodup_range
    intro s hs s' hs'
    exact h.bijective.injOn (List.mem_range.mp hs) (List.mem_range.mp hs')
  rw [List.perm_ext_iff_of_nodup List.nodup_range hnodup]
  intro s
  rw [List.mem_range, List.mem_map]
  constructor
  · intro hs
    obtain ⟨u, hu, rfl⟩ := h.bijective.surjOn hs
    exact ⟨u, List.mem_range.mpr hu, rfl⟩
  · intro hs
    obtain ⟨u, hu, rfl⟩ := hs
    exact h.bijective.mapsTo (List.mem_range.mp hu)

theorem conflicts_perm :
    (generate g b).conflicts.Perm ((generate g a).conflicts.map (Conflict.rename f)) := by
  have hrow : ∀ s ∈ List.range a.states.size,
      rowConflicts g b (f s) = (rowConflicts g a s).map (Conflict.rename f) := by
    intro s hs
    have hst := Array.getElem?_eq_getElem (List.mem_range.mp hs)
    obtain ⟨st', hst', -, htarget, haccepts, hreduces⟩ := h.state s _ hst
    simp only [rowConflicts, hst, hst', cells, List.flatMap_map, List.map_flatMap]
    apply List.flatMap_congr
    intro t _
    exact congrArg Cell.conflicts (entry_rename htarget haccepts hreduces s t)
  -- the rows are the same, in the order that the renumbering gives them
  rw [conflicts_generate, conflicts_generate, List.map_flatMap, ← List.flatMap_congr hrow]
  have hperm := (range_map_perm h).flatMap_right (rowConflicts g b)
  rw [List.flatMap_map] at hperm
  exact hperm

theorem renumbered_generate : Renumbered f (generate g a) (generate g b) := by
  refine ⟨?_, ?_, ?_, ?_, conflicts_perm h⟩
  · rw [size_rows, size_rows]
    exact h.bijective
  · intro s hs t
    rw [size_rows] at hs
    have hst := Array.getElem?_eq_getElem hs
    obtain ⟨st', hst', -, htarget, haccepts, hreduces⟩ := h.state s _ hst
    rw [action_generate hst, action_generate hst', entry_rename htarget haccepts hreduces]
    split
    · simp only [Cell.rename]
      cases (entry g s a.states[s] t).action <;> rfl
    · rfl
  · intro s hs n
    rw [size_rows] at hs
    have hst := Array.getElem?_eq_getElem hs
    obtain ⟨st', hst', -, htarget, -⟩ := h.state s _ hst
    rw [goto_generate, goto_generate, Automaton.step, Automaton.step, hst, hst',
      Option.bind_some, Option.bind_some, htarget]
  · intro s hs
    rw [size_rows] at hs
    have hst := Array.getElem?_eq_getElem hs
    obtain ⟨st', hst', -, htarget, haccepts, hreduces⟩ := h.state s _ hst
    apply Option.ext
    intro p
    rw [defaultReduction_eq_some, defaultReduction_eq_some]
    simp only [hst, hst', Option.some.injEq, exists_eq_left', Cell.rename, ne_eq,
      entry_rename htarget haccepts hreduces, Option.map_eq_none_iff, Option.map_eq_some_iff]
    refine and_congr Iff.rfl ⟨?_, ?_⟩
    · intro hall t act ht hact
      exact (Action.rename_eq_reduce f).mp (hall t _ ht ⟨act, hact, rfl⟩)
    · intro hall t _ ht hact
      obtain ⟨act, hact, rfl⟩ := hact
      rw [hall t act ht hact, Action.rename_reduce]

end Renumbered

end Table

namespace Method

variable {g : Grammar} {d : LR0.Collection} {a : Automaton}

def mergedState (d : LR0.Collection) (a : Automaton) (s : Nat) : Nat :=
  a.coreIndex (Lookahead.stateAt d s).kernel

theorem mergedState_sameCore (wf : g.WellFormed) (hc : LR0.build g = .ok d)
    (ha : merged.automaton g = .ok a) :
    Automaton.SameCore (mergedState d a) (Automaton.propagated g d) a := by
  intro s st hst
  obtain ⟨hfaithful, -, hdistinct⟩ := merged_spec wf ha
  have hrep := LR0.build_represents wf hc
  obtain ⟨s', st', hst', hcore⟩ :=
    Automaton.exists_core (Automaton.ofLR0_faithful hrep) hfaithful hst
  obtain ⟨state, hstate, hkernel⟩ := Option.map_eq_some_iff.mp (Automaton.core_ofLR0 hst)
  have hindex : mergedState d a s = s' := by
    rw [mergedState, Lookahead.stateAt, Array.getD_eq_getD_getElem?, hstate, Option.getD_some,
      hkernel, ← hcore, Automaton.coreIndex_eq hdistinct hst']
  exact ⟨st', by rw [hindex, hst'], hcore⟩

theorem propagated_renumbered (wf : g.WellFormed) (hc : LR0.build g = .ok d)
    (ha : merged.automaton g = .ok a) :
    Automaton.Renumbered (mergedState d a) (Automaton.propagated g d) a := by
  obtain ⟨hfaithful, hexact, hdistinct⟩ := merged_spec wf ha
  have hrep := LR0.build_represents wf hc
  exact (mergedState_sameCore wf hc ha).renumbered (Automaton.ofLR0_faithful hrep) hfaithful
    (Automaton.ofLR0_distinct hrep) hdistinct (Automaton.propagated_exact wf hrep) hexact

theorem lookup_propagated (wf : g.WellFormed) (hc : LR0.build g = .ok d) {s : Nat}
    {st : LR0.State} (hst : d[s]? = some st) (p : Nat) :
    (Lookahead.compute g d).lookahead? s p =
      (st.reduces.map fun p => (p, ((Lookahead.compute g d).lookahead? s p).getD ∅)).lookup p ∧
    (((Lookahead.compute g d).lookahead? s p).isSome ↔ p ∈ st.reduces) := by
  have hrep := LR0.build_represents wf hc
  by_cases hp : p ∈ st.reduces
  · obtain ⟨l, hl, -⟩ := Lookahead.mem_lookahead? wf hrep hst hp
    refine ⟨?_, by simp [hl, hp]⟩
    rw [hl, eq_comm, lookup_iff_mem]
    · exact List.mem_map.mpr ⟨p, hp, by rw [hl, Option.getD_some]⟩
    · simpa [Function.comp_def] using hrep.reduces_nodup st (Array.mem_of_getElem? hst)
  · have hnone : (Lookahead.compute g d).lookahead? s p = none := by
      apply Lookahead.lookahead?_eq_none
      intro st' hst'
      rw [hst] at hst'
      cases hst'
      exact hp
    refine ⟨?_, by simp [hnone, hp]⟩
    rw [hnone, eq_comm, List.lookup_eq_none_iff]
    intro r hr
    obtain ⟨q, hq, rfl⟩ := List.mem_map.mp hr
    simp only [bne_iff_ne, ne_eq]
    intro heq
    exact hp (heq ▸ hq)

/-- The look-ahead sets propagated over the LR(0) collection are those of the canonical
collection merged by core, state for state, and so are the tables. -/
theorem lalr_renumbered_merged (hg : g.Defined) (hc : LR0.build g = .ok d)
    (ha : merged.automaton g = .ok a) :
    Set.BijOn (mergedState d a) {s | s < d.size} {s | s < a.states.size} ∧
    mergedState d a 0 = 0 ∧
    (∀ s st, d[s]? = some st → ∃ st', a.states[mergedState d a s]? = some st' ∧
      Canonical.core st' = st.kernel ∧
      (∀ u stu, a.states[u]? = some stu → Canonical.core stu = st.kernel →
        u = mergedState d a s) ∧
      (∀ x, st'.target? x = (st.target? x).map (mergedState d a)) ∧
      st'.accepts = st.accepts ∧
      (st'.reduces.map (·.1)).Perm st.reduces ∧
      ∀ p, (Lookahead.compute g d).lookahead? s p = st'.reduces.lookup p ∧
        (((Lookahead.compute g d).lookahead? s p).isSome ↔ p ∈ st.reduces)) ∧
    ∃ b, lalr.automaton g = .ok b ∧
      Table.Renumbered (mergedState d a) (.generate g b) (.generate g a) ∧
      (Table.generate g b).conflictCount = (Table.generate g a).conflictCount := by
  have wf := hg.wellFormed
  obtain ⟨hfaithful, -, hdistinct⟩ := merged_spec wf ha
  have h := propagated_renumbered wf hc ha
  have hlalr : lalr.automaton g = .ok (Automaton.propagated g d) := by
    rw [automaton, hc]
    rfl
  have hsize : (Automaton.propagated g d).states.size = d.size := by simp [Automaton.ofLR0]
  have htable := Table.renumbered_generate (g := g) h
  refine ⟨?_, h.zero, ?_, _, hlalr, htable, htable.conflictCount.symm⟩
  · rw [← hsize]
    exact h.bijective
  · intro s st hst
    obtain ⟨st', hst', hcore, htarget, haccepts, hreduces⟩ :=
      h.state s _ (by rw [Automaton.getElem?_ofLR0, hst]; rfl)
    have hkernel : Canonical.core st' = st.kernel := by
      rw [hcore]
      simp [Canonical.core, Function.comp_def]
    refine ⟨st', hst', hkernel, ?_, htarget, haccepts, ?_, ?_⟩
    · intro u stu hstu hcoreu
      exact hdistinct u _ stu st' hstu hst' (hcoreu.trans hkernel.symm)
    · have hperm := hreduces.map (·.1)
      simpa [Function.comp_def] using hperm
    · intro p
      rw [lookup_of_perm hreduces (hfaithful.reduces_nodup st' (Array.mem_of_getElem? hst'))]
      exact lookup_propagated wf hc hst p

theorem lalr_renumbered_parentheses :
    LR0.build .parentheses = .ok LR0.parentheses ∧
    merged.automaton .parentheses = .ok .parentheses ∧
    Set.BijOn (mergedState LR0.parentheses .parentheses) {s | s < 5} {s | s < 5} ∧
    (Lookahead.compute .parentheses LR0.parentheses).lookahead? 2 2 = some (.ofList [3]) := by
  obtain ⟨hbij, -, hstates, -⟩ := lalr_renumbered_merged Grammar.parentheses_defined
    LR0.build_parentheses merged_parentheses
  refine ⟨LR0.build_parentheses, merged_parentheses, hbij, ?_⟩
  obtain ⟨st, hst, -, -, -, -, -, hlookaheads⟩ := hstates 2 _ rfl
  obtain ⟨heq, -⟩ := hlookaheads 2
  have hindex : mergedState LR0.parentheses .parentheses 2 = 2 := by
    cbv
  rw [hindex] at hst
  cases hst
  rw [heq]
  rfl

end Method

end TableParsing
