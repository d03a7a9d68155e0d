import TableParsing.Proofs.Table.Conflict

/-! The tables over one LR(0) collection, ordered by their look-ahead sets. What can come next
after a reduction somewhere follows its left side, and what follows is a terminal, so that the
propagated sets, the follow sets and the full sets leave every cell more and more reductions.
With them grow the conflicts, recorded and counted, in every cell and in total. -/

namespace TableParsing

theorem Grammar.WellFormed.follow_lt {g : Grammar} (wf : g.WellFormed) {n t : Nat}
    (h : t ∈ g.follow n) : t < g.terminals.size := by
  obtain ⟨-, m, -, -, ⟨-, rfl⟩ | ⟨k, β, ⟨p, -, α, hright⟩, ht⟩⟩ := Grammar.mem_follow.mp h
  · exact wf.terminals_pos
  · obtain ⟨δ, x, δ', rfl, -, hbegins⟩ := wf.mem_prefixes.mp ht
    refine wf.begins_lt hbegins fun u hu => ?_
    subst hu
    have hmem : .terminal u ∈ (g.production p).right.toList := by simp [hright]
    exact wf.terminal_lt (Array.mem_toList_iff.mp hmem)

namespace Table

/-- The first table has no more conflicts than the second, recorded or counted, in any cell or in
total. -/
structure Milder (t t' : Table) : Prop where
  recordedAt : ∀ s u, (t.conflictsAt s u).length ≤ (t'.conflictsAt s u).length
  countedAt : ∀ s u,
    (t.conflictsAt s u).countP (·.counted) ≤ (t'.conflictsAt s u).countP (·.counted)
  recorded : t.conflicts.length ≤ t'.conflicts.length
  counted : t.conflictCount ≤ t'.conflictCount

variable {g : Grammar} {a b : Automaton} {d : LR0.Collection} {f f' : Nat → Nat → TerminalSet}

theorem milder_of_cells (hsize : a.states.size = b.states.size)
    (h : ∀ q : Conflict → Bool, (∀ c, c.counted = true → q c = true) → ∀ s t,
      (cellConflicts g a s t).countP q ≤ (cellConflicts g b s t).countP q) :
    Milder (generate g a) (generate g b) := by
  have hall := h (fun _ => true) fun _ _ => rfl
  have hcounted := h (·.counted) fun _ hc => hc
  refine ⟨?_, ?_, ?_, countP_conflicts_le hsize hcounted⟩
  · intro s t
    rw [conflictsAt_generate, conflictsAt_generate]
    split
    · simpa using hall s t
    · exact Nat.le_refl _
  · intro s t
    rw [conflictsAt_generate, conflictsAt_generate]
    split
    · exact hcounted s t
    · exact Nat.le_refl _
  · simpa using countP_conflicts_le hsize hall

def annotated (lookaheads : Nat → TerminalSet) (state : LR0.State) : Automaton.State where
  kernel := state.kernel.map (·, none)
  transitions := state.transitions
  reduces := state.reduces.map fun p => (p, lookaheads p)
  accepts := state.accepts

theorem getElem?_annotated {s : Nat} {state : LR0.State} (h : d[s]? = some state) :
    (Automaton.ofLR0 d f).states[s]? = some (annotated (f s) state) := by
  rw [Automaton.getElem?_ofLR0, h]
  rfl

theorem reducesOn_annotated (lookaheads : Nat → TerminalSet) (state : LR0.State) (t : Nat) :
    reducesOn (annotated lookaheads state) t =
      state.reduces.filter fun p => (lookaheads p).contains t := by
  rw [reducesOn, annotated, List.filterMap_map, ← List.filterMap_eq_filter]
  rfl

theorem shiftOn_annotated (lookaheads lookaheads' : Nat → TerminalSet) (state : LR0.State)
    (t : Nat) : shiftOn (annotated lookaheads state) t = shiftOn (annotated lookaheads' state) t :=
  rfl

section OfLR0

variable (hrep : LR0.Represents g d) (hsub : ∀ s state p, d[s]? = some state →
  p ∈ state.reduces → ∀ t ∈ f s p, t ∈ f' s p)

include hsub

theorem reducesOn_sublist {s : Nat} {state : LR0.State} (hstate : d[s]? = some state) (t : Nat) :
    (reducesOn (annotated (f s) state) t).Sublist (reducesOn (annotated (f' s) state) t) := by
  have hfilter : (state.reduces.filter fun p => (f s p).contains t) =
      (state.reduces.filter fun p => (f' s p).contains t).filter
        fun p => (f s p).contains t := by
    rw [List.filter_filter]
    apply List.filter_congr
    intro p hp
    rw [Bool.eq_iff_iff, Bool.and_eq_true]
    exact ⟨fun ht => ⟨ht, hsub s state p hstate hp t ht⟩, And.left⟩
  rw [reducesOn_annotated, reducesOn_annotated, hfilter]
  exact List.filter_sublist

include hrep

theorem ofLR0_milder :
    Milder (generate g (Automaton.ofLR0 d f)) (generate g (Automaton.ofLR0 d f')) := by
  apply milder_of_cells
  · simp [Automaton.ofLR0]
  · intro q hq s t
    cases hstate : d[s]? with
    | none => simp [cellConflicts, Automaton.getElem?_ofLR0, hstate]
    | some state =>
      have hnodup : (reducesOn (annotated (f' s) state) t).Nodup := by
        rw [reducesOn_annotated]
        exact (hrep.reduces_nodup state (Array.mem_of_getElem? hstate)).filter _
      simp only [cellConflicts, getElem?_annotated hstate, entry,
        shiftOn_annotated (f s) (f' s)]
      exact resolve_countP_le hq (reducesOn_sublist hsub hstate t) hnodup

omit hrep in
theorem ofLR0_action_eq (hconflicts : (generate g (Automaton.ofLR0 d f')).conflicts = [])
    {s t : Nat} (h : (generate g (Automaton.ofLR0 d f)).action s t ≠ .error) :
    (generate g (Automaton.ofLR0 d f')).action s t =
      (generate g (Automaton.ofLR0 d f)).action s t := by
  obtain ⟨st, hst, ht, hentry, -⟩ := action_cases h
  have hsome := hst
  rw [Automaton.getElem?_ofLR0, Option.map_eq_some_iff] at hsome
  obtain ⟨state, hstate, -⟩ := hsome
  obtain rfl : annotated (f s) state = st := by
    rw [getElem?_annotated hstate] at hst
    exact Option.some.inj hst
  have hst' := getElem?_annotated (f := f') hstate
  have hsublist := reducesOn_sublist hsub hstate t
  rw [entry, shiftOn_annotated (f s) (f' s)] at hentry
  rw [action_generate hst', if_pos ht]
  rcases resolve_of_noConflict (entry_conflicts hconflicts hst' ht) with
    ⟨hnil, -⟩ | ⟨hnone, haction⟩
  · -- neither cell reduces
    have hnil' : reducesOn (annotated (f s) state) t = [] := by
      rw [hnil] at hsublist
      exact List.sublist_nil.mp hsublist
    rw [entry, hnil, ← hnil', hentry]
    rfl
  · rcases resolve_action hentry with hshift | ⟨p, hp, hact⟩ | herror
    · rw [hnone] at hshift
      cases hshift
    · rw [entry, haction p (hsublist.subset hp), hact]
      rfl
    · exact absurd herror h

end OfLR0

end Table

namespace Method

variable {g : Grammar} {d : LR0.Collection}

/-- What can come next after a reduction in a state follows its left side somewhere, and is a
terminal. So from the look-ahead sets of LALR to those of SLR and on to those of LR(0) no cell
has fewer conflicts, recorded or counted, and neither has the table. Where the SLR table has no
conflict, the LALR table does nothing else. -/
theorem lookaheads_hierarchy (hg : g.Defined) (hd : LR0.build g = .ok d) :
    (∀ s state p, d[s]? = some state → p ∈ state.reduces →
      ∃ l, (Lookahead.compute g d).lookahead? s p = some l ∧
        (∀ t ∈ l, t ∈ g.follow (g.production p).left) ∧
        ∀ t ∈ g.follow (g.production p).left, t ∈ TerminalSet.below g.terminals.size) ∧
    ∃ a b c, lalr.automaton g = .ok a ∧ slr.automaton g = .ok b ∧ lr0.automaton g = .ok c ∧
      Table.Milder (.generate g a) (.generate g b) ∧
      Table.Milder (.generate g b) (.generate g c) ∧
      ((Table.generate g b).conflicts = [] → ∀ s t, (Table.generate g a).action s t ≠ .error →
        (Table.generate g b).action s t = (Table.generate g a).action s t) := by
  have wf := hg.wellFormed
  have hrep := LR0.build_represents wf hd
  have hterminals : ∀ p, ∀ t ∈ g.follow (g.production p).left,
      t ∈ TerminalSet.below g.terminals.size :=
    fun p t ht => TerminalSet.mem_below.mpr (wf.follow_lt ht)
  have hfollow : ∀ s state p, d[s]? = some state → p ∈ state.reduces →
      ∃ l, (Lookahead.compute g d).lookahead? s p = some l ∧
        ∀ t ∈ l, t ∈ g.follow (g.production p).left := by
    intro s state p hstate hp
    obtain ⟨l, hl, hmem⟩ := Lookahead.mem_lookahead? wf hrep hstate hp
    refine ⟨l, hl, fun t ht => ?_⟩
    obtain ⟨γ, -, hahead⟩ := (hmem t).mp ht
    have hleft := wf.ahead_follow hahead
    rwa [Item.completed] at hleft
  have hpropagated : ∀ s state p, d[s]? = some state → p ∈ state.reduces →
      ∀ t, t ∈ ((Lookahead.compute g d).lookahead? s p).getD (∅ : TerminalSet) →
        t ∈ g.follow (g.production p).left := by
    intro s state p hstate hp t ht
    obtain ⟨l, hl, hsub⟩ := hfollow s state p hstate hp
    rw [hl] at ht
    exact hsub t ht
  refine ⟨fun s state p hstate hp => ?_, _, _, _, by rw [automaton, hd]; rfl,
    by rw [automaton, hd]; rfl, by rw [automaton, hd]; rfl, ?_, ?_, ?_⟩
  · obtain ⟨l, hl, hsub⟩ := hfollow s state p hstate hp
    exact ⟨l, hl, hsub, hterminals p⟩
  · exact Table.ofLR0_milder hrep hpropagated
  · exact Table.ofLR0_milder hrep fun _ _ p _ _ => hterminals p
  · intro hconflicts s t h
    exact Table.ofLR0_action_eq hpropagated hconflicts h

theorem lookaheads_parentheses :
    LR0.build .parentheses = .ok LR0.parentheses ∧
    (∃ l, (Lookahead.compute .parentheses LR0.parentheses).lookahead? 2 2 = some l ∧
      ∀ t ∈ l, t ∈ Grammar.parentheses.follow 1) ∧
    ∃ a b c, lalr.automaton .parentheses = .ok a ∧ slr.automaton .parentheses = .ok b ∧
      lr0.automaton .parentheses = .ok c ∧
      Table.Milder (.generate .parentheses a) (.generate .parentheses b) ∧
      Table.Milder (.generate .parentheses b) (.generate .parentheses c) := by
  obtain ⟨hsets, a, b, c, ha, hb, hc, hab, hbc, -⟩ :=
    lookaheads_hierarchy Grammar.parentheses_defined LR0.build_parentheses
  obtain ⟨l, hl, hsub, -⟩ := hsets 2 _ 2 rfl (by decide)
  exact ⟨LR0.build_parentheses, ⟨l, hl, hsub⟩, a, b, c, ha, hb, hc, hab, hbc⟩

end Method

end TableParsing
