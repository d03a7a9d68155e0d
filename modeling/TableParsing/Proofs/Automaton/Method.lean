import TableParsing.Automaton.Method
import TableParsing.Proofs.Automaton.Lookahead
import TableParsing.Proofs.Automaton.Merge

/-! Every way to build an automaton gives a faithful one whose look-ahead sets cover what can
come next. The sets of the two LALR constructions, which have one state for each core, are
exact. -/

namespace TableParsing

theorem map_eq_ok {ε α β : Type} {x : Except ε α} {f : α → β} {b : β} (h : x.map f = .ok b) :
    ∃ a, x = .ok a ∧ b = f a := by
  cases x with
  | error e => cases h
  | ok a =>
    cases h
    exact ⟨a, rfl, rfl⟩

namespace Automaton

variable {g : Grammar} {d : LR0.Collection} {f : Nat → Nat → TerminalSet}

theorem ofLR0_covers (hf : ∀ γ s p t, stateAfter (LR0.step d) γ = some s →
      Ahead g γ (.completed g p) t → t ∈ f s p) : Covers g (ofLR0 d f) := by
  intro γ s st p lookaheads t hγ hst hp ht
  rw [step_ofLR0] at hγ
  rw [getElem?_ofLR0, Option.map_eq_some_iff] at hst
  obtain ⟨state, -, rfl⟩ := hst
  obtain ⟨q, -, heq⟩ := List.mem_map.mp hp
  cases heq
  exact hf γ s p t hγ ht

abbrev propagated (g : Grammar) (d : LR0.Collection) : Automaton :=
  ofLR0 d fun s p => ((Lookahead.compute g d).lookahead? s p).getD ∅

theorem propagated_exact (wf : g.WellFormed) (h : LR0.Represents g d) :
    (propagated g d).Exact g := by
  intro s st p lookaheads t hst hp
  rw [step_ofLR0]
  rw [getElem?_ofLR0, Option.map_eq_some_iff] at hst
  obtain ⟨state, hstate, rfl⟩ := hst
  obtain ⟨q, hq, heq⟩ := List.mem_map.mp hp
  cases heq
  obtain ⟨l, hl, hmem⟩ := Lookahead.mem_lookahead? wf h hstate hq
  rw [hl, Option.getD_some]
  exact hmem t

end Automaton

namespace Method

variable {g : Grammar} (wf : g.WellFormed) {a : Automaton}

include wf

theorem merged_spec (h : merged.automaton g = .ok a) :
    a.Faithful g ∧ a.Exact g ∧ a.Distinct := by
  obtain ⟨b, hb, rfl⟩ := map_eq_ok h
  obtain ⟨nodes, hnodes⟩ := Canonical.build_nodes wf hb
  exact ⟨Canonical.mergeCores_faithful hnodes.faithful,
    Canonical.mergeCores_exact hnodes.faithful hnodes.exact,
    Canonical.mergeCores_distinct hnodes.faithful⟩

theorem merged_annotated (h : merged.automaton g = .ok a) : a.Annotated g := by
  obtain ⟨b, hb, rfl⟩ := map_eq_ok h
  obtain ⟨nodes, hnodes⟩ := Canonical.build_nodes wf hb
  exact Canonical.mergeCores_annotated hnodes.faithful hnodes.annotated

/-- Whatever the construction, the automaton is faithful and its look-ahead sets cover what can
come next. -/
theorem automaton_spec {m : Method} (h : m.automaton g = .ok a) :
    a.Faithful g ∧ a.Covers g := by
  cases m with
  | lr0 =>
    obtain ⟨d, hc, rfl⟩ := map_eq_ok h
    refine ⟨Automaton.ofLR0_faithful (LR0.build_represents wf hc), Automaton.ofLR0_covers ?_⟩
    intro γ s p t _ ht
    exact TerminalSet.mem_below.mpr (wf.ahead_lt ht)
  | slr =>
    obtain ⟨d, hc, rfl⟩ := map_eq_ok h
    refine ⟨Automaton.ofLR0_faithful (LR0.build_represents wf hc), Automaton.ofLR0_covers ?_⟩
    intro γ s p t _ ht
    have hfollow := wf.ahead_follow ht
    rwa [Item.completed] at hfollow
  | lalr =>
    obtain ⟨d, hc, rfl⟩ := map_eq_ok h
    have hrep := LR0.build_represents wf hc
    have hexact := Automaton.propagated_exact wf hrep
    exact ⟨Automaton.ofLR0_faithful hrep, hexact.covers⟩
  | lr1 =>
    obtain ⟨nodes, hnodes⟩ := Canonical.build_nodes wf h
    exact ⟨hnodes.faithful, hnodes.exact.covers⟩
  | merged =>
    obtain ⟨hfaithful, hexact, -⟩ := merged_spec wf h
    exact ⟨hfaithful, hexact.covers⟩

omit wf in
theorem size_le {m : Method} (h : m.automaton g = .ok a) : a.states.size ≤ maxStates := by
  have hcanonical : ∀ {b : Automaton}, Canonical.build g = .ok b → b.states.size ≤ maxStates := by
    intro b hb
    simp only [Canonical.build] at hb
    split at hb
    case h_1 nodes hnodes =>
      cases hb
      rw [Array.size_map]
      exact Exploration.explore_size_le (by decide) hnodes
    case h_2 => cases hb
  cases m with
  | lr1 => exact hcanonical h
  | merged =>
    obtain ⟨b, hb, rfl⟩ := map_eq_ok h
    exact Nat.le_trans (Canonical.size_mergeCores_le b) (hcanonical hb)
  | _ =>
    obtain ⟨d, hd, rfl⟩ := map_eq_ok h
    simpa [Automaton.ofLR0] using LR0.build_size_le hd

end Method

def LR0.parentheses : Collection :=
  #[⟨[⟨0, 0⟩], [(.nonterminal 1, 1), (.terminal 2, 2)], [2], false⟩,
    ⟨[⟨0, 1⟩], [], [], true⟩,
    ⟨[⟨1, 1⟩], [(.nonterminal 1, 3), (.terminal 2, 2)], [2], false⟩,
    ⟨[⟨1, 2⟩], [(.terminal 3, 4)], [], false⟩,
    ⟨[⟨1, 3⟩], [], [1], false⟩]

theorem LR0.build_parentheses : build .parentheses = .ok parentheses := by
  simp only [build, Exploration.explore_eq]
  cbv

def Automaton.parentheses : Automaton where
  states :=
    #[⟨[(⟨0, 0⟩, some ∅)], [(.nonterminal 1, 1), (.terminal 2, 2)], [(2, .ofList [0])], false⟩,
      ⟨[(⟨0, 1⟩, some ∅)], [], [], true⟩,
      ⟨[(⟨1, 1⟩, some (.ofList [0, 3]))], [(.nonterminal 1, 3), (.terminal 2, 2)],
        [(2, .ofList [3])], false⟩,
      ⟨[(⟨1, 2⟩, some (.ofList [0, 3]))], [(.terminal 3, 4)], [], false⟩,
      ⟨[(⟨1, 3⟩, some (.ofList [0, 3]))], [], [(1, .ofList [0, 3])], false⟩]

theorem Method.merged_parentheses : merged.automaton .parentheses = .ok .parentheses := by
  simp only [automaton, Canonical.build, Exploration.explore_eq]
  delta Canonical.mergeCores
  simp only [Numbering.find?_eq_findIdx?, Numbering.keys_ofList_eq]
  cbv

def Automaton.nested : Automaton where
  states :=
    #[⟨[(⟨0, 0⟩, some ∅)], [(.nonterminal 1, 1), (.terminal 2, 2)], [(2, .ofList [0])], false⟩,
      ⟨[(⟨0, 1⟩, some ∅)], [], [], true⟩,
      ⟨[(⟨1, 1⟩, some (.ofList [0]))], [(.nonterminal 1, 3), (.terminal 2, 4)],
        [(2, .ofList [3])], false⟩,
      ⟨[(⟨1, 2⟩, some (.ofList [0]))], [(.terminal 3, 5)], [], false⟩,
      ⟨[(⟨1, 1⟩, some (.ofList [3]))], [(.nonterminal 1, 6), (.terminal 2, 4)],
        [(2, .ofList [3])], false⟩,
      ⟨[(⟨1, 3⟩, some (.ofList [0]))], [], [(1, .ofList [0])], false⟩,
      ⟨[(⟨1, 2⟩, some (.ofList [3]))], [(.terminal 3, 7)], [], false⟩,
      ⟨[(⟨1, 3⟩, some (.ofList [3]))], [], [(1, .ofList [3])], false⟩]

theorem Method.lr1_parentheses : lr1.automaton .parentheses = .ok .nested := by
  simp only [automaton, Canonical.build, Exploration.explore_eq]
  cbv

def Automaton.tolerant : Automaton where
  states :=
    #[⟨[(⟨0, 0⟩, none)], [(.nonterminal 1, 1), (.terminal 2, 2), (.terminal 3, 3)], [], false⟩,
      ⟨[(⟨0, 1⟩, none), (⟨1, 1⟩, none)], [(.terminal 1, 4)], [], true⟩,
      ⟨[(⟨2, 1⟩, none)], [], [(2, .ofList [0, 1])], false⟩,
      ⟨[(⟨3, 1⟩, none)], [], [(3, .ofList [0, 1])], false⟩,
      ⟨[(⟨1, 2⟩, none)], [], [(1, .ofList [0, 1])], false⟩]

theorem Method.slr_tolerant : slr.automaton .tolerant = .ok .tolerant := by
  simp only [automaton, LR0.build, Exploration.explore_eq]
  cbv

def LR0.lenient : Collection :=
  #[⟨[⟨0, 0⟩], [(.nonterminal 1, 1), (.terminal 2, 2), (.terminal 1, 3), (.terminal 3, 4)], [],
      false⟩,
    ⟨[⟨0, 1⟩], [], [], true⟩,
    ⟨[⟨1, 1⟩], [], [1], false⟩,
    ⟨[⟨2, 1⟩], [], [2], false⟩,
    ⟨[⟨3, 1⟩], [(.nonterminal 2, 5), (.nonterminal 3, 6)], [5], false⟩,
    ⟨[⟨3, 2⟩], [], [3], false⟩,
    ⟨[⟨4, 1⟩], [(.nonterminal 2, 7), (.nonterminal 3, 6)], [5], false⟩,
    ⟨[⟨4, 2⟩], [], [4], false⟩]

theorem LR0.build_lenient : build .lenient = .ok lenient := by
  simp only [build, Exploration.explore_eq]
  cbv

def Automaton.lenient : Automaton where
  states :=
    #[⟨[(⟨0, 0⟩, none)], [(.nonterminal 1, 1), (.terminal 2, 2), (.terminal 1, 3),
        (.terminal 3, 4)], [], false⟩,
      ⟨[(⟨0, 1⟩, none)], [], [], true⟩,
      ⟨[(⟨1, 1⟩, none)], [], [(1, .below 4)], false⟩,
      ⟨[(⟨2, 1⟩, none)], [], [(2, .below 4)], false⟩,
      ⟨[(⟨3, 1⟩, none)], [(.nonterminal 2, 5), (.nonterminal 3, 6)], [(5, .below 4)], false⟩,
      ⟨[(⟨3, 2⟩, none)], [], [(3, .below 4)], false⟩,
      ⟨[(⟨4, 1⟩, none)], [(.nonterminal 2, 7), (.nonterminal 3, 6)], [(5, .below 4)], false⟩,
      ⟨[(⟨4, 2⟩, none)], [], [(4, .below 4)], false⟩]

theorem Method.lr0_lenient : lr0.automaton .lenient = .ok .lenient := by
  simp only [automaton, LR0.build_lenient]
  cbv

end TableParsing
