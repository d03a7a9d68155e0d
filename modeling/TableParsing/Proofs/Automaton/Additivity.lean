import TableParsing.Proofs.Automaton.Method

/-! Closures are least and additive. Which items a closure has depends on the items of its kernel
only, and what puts a terminal into one of its look-ahead sets is a single item that has it: so a
closure of united look-ahead sets unites the closures. States can then be merged after their
closures were found, and are as if they had been closed when merged. -/

namespace TableParsing.Canonical

variable {g : Grammar} {k : Kernel} {m m' m₁ m₂ : List (Item × TerminalSet)}

def Below (m m' : List (Item × TerminalSet)) : Prop :=
  ∀ i lookaheads, (i, lookaheads) ∈ m → ∃ lookaheads', (i, lookaheads') ∈ m' ∧
    ∀ t ∈ lookaheads, t ∈ lookaheads'

theorem below_iff (hn : (m'.map (·.1)).Nodup) : Below m m' ↔ facts m ⊆ facts m' := by
  rw [facts_subset_iff]
  constructor
  · intro h
    refine ⟨fun i hi => ?_, fun i t ht => ?_⟩
    · obtain ⟨l, hl⟩ := mem_keys.mp hi
      obtain ⟨l', hl', -⟩ := h i l hl
      exact mem_keys.mpr ⟨l', hl'⟩
    · obtain ⟨l, hl, ht⟩ := ht
      obtain ⟨l', hl', hle⟩ := h i l hl
      exact ⟨l', hl', hle t ht⟩
  · rintro ⟨hkeys, hholds⟩ i l hl
    obtain ⟨l', hl'⟩ := mem_keys.mp (hkeys i (mem_keys.mpr ⟨l, hl⟩))
    exact ⟨l', hl', fun t ht => (holds_iff_mem hn hl').mp (hholds i t ⟨l, hl, ht⟩)⟩

/-- The map is closed and above the kernel, and below every other such map. -/
structure IsLeastClosed (g : Grammar) (k : Kernel) (m : List (Item × TerminalSet)) : Prop where
  nodup : (m.map (·.1)).Nodup
  above : Below k m
  closed : Closed g m
  least : ∀ m', (m'.map (·.1)).Nodup → Below k m' → Closed g m' → Below m m'

theorem closure_isLeastClosed (wf : g.WellFormed) (hk : (k.map (·.1)).Nodup) :
    IsLeastClosed g k (closure g (StartItems.ofGrammar g) k) := by
  obtain ⟨hsound, hkernel, hclosed⟩ := closure_closed wf hk
  refine ⟨hsound.nodup, (below_iff hsound.nodup).mpr hkernel, hclosed, ?_⟩
  intro m' hn habove hclosed'
  have hkernel' := (below_iff hn).mp habove
  refine (below_iff hn).mpr (facts_subset_iff.mpr ⟨fun i hi => ?_, fun i t ht => ?_⟩)
  · exact (hsound.brought i hi).mem_of_closed hclosed' hkernel'
  · exact (hsound.sees i t ht).holds_of_closed hclosed' hkernel' wf

structure IsUnion (m m₁ m₂ : List (Item × TerminalSet)) : Prop where
  left : ∀ i, i ∈ m.map (·.1) ↔ i ∈ m₁.map (·.1)
  right : ∀ i, i ∈ m.map (·.1) ↔ i ∈ m₂.map (·.1)
  union : ∀ i l₁ l₂, (i, l₁) ∈ m₁ → (i, l₂) ∈ m₂ → (i, l₁ ∪ l₂) ∈ m

theorem IsUnion.holds_iff (h : IsUnion m m₁ m₂) (hn : (m.map (·.1)).Nodup)
    (hn₁ : (m₁.map (·.1)).Nodup) (hn₂ : (m₂.map (·.1)).Nodup) {i : Item} {t : Nat} :
    Holds m i t ↔ Holds m₁ i t ∨ Holds m₂ i t := by
  by_cases hi : i ∈ m.map (·.1)
  · obtain ⟨l₁, hl₁⟩ := mem_keys.mp ((h.left i).mp hi)
    obtain ⟨l₂, hl₂⟩ := mem_keys.mp ((h.right i).mp hi)
    rw [holds_iff_mem hn (h.union i l₁ l₂ hl₁ hl₂), TerminalSet.mem_union,
      holds_iff_mem hn₁ hl₁, holds_iff_mem hn₂ hl₂]
  · refine iff_of_false (fun ht => hi ht.mem_keys) fun ht => hi ?_
    rcases ht with ht | ht
    · exact (h.left i).mpr ht.mem_keys
    · exact (h.right i).mpr ht.mem_keys

section Union

variable {k₁ k₂ : Kernel} {i : Item} {t : Nat}

theorem brought_congr (h : ∀ i, i ∈ k₁.map (·.1) ↔ i ∈ k₂.map (·.1)) :
    Brought g k₁ i ↔ Brought g k₂ i :=
  ⟨fun hi => hi.mono fun i => (h i).mp, fun hi => hi.mono fun i => (h i).mpr⟩

theorem sees_union (hkeys : ∀ i, i ∈ k.map (·.1) ↔ i ∈ k₁.map (·.1))
    (hkeys' : ∀ i, i ∈ k.map (·.1) ↔ i ∈ k₂.map (·.1))
    (hholds : ∀ i t, Holds k i t ↔ Holds k₁ i t ∨ Holds k₂ i t) :
    Sees g k i t ↔ Sees g k₁ i t ∨ Sees g k₂ i t := by
  constructor
  · intro h
    induction h with
    | kernel ht => exact ((hholds _ _).mp ht).imp .kernel .kernel
    | first hi hnext hp ht => exact Or.inl (.first ((brought_congr hkeys).mp hi) hnext hp ht)
    | inherit _ hnext hp hnull ih =>
      exact ih.imp (.inherit · hnext hp hnull) (.inherit · hnext hp hnull)
  · intro h
    rcases h with h | h
    · exact h.mono (fun i => (hkeys i).mpr) fun i t ht => (hholds i t).mpr (Or.inl ht)
    · exact h.mono (fun i => (hkeys' i).mpr) fun i t ht => (hholds i t).mpr (Or.inr ht)

theorem closure_isUnion (wf : g.WellFormed) (hk : (k.map (·.1)).Nodup)
    (hk₁ : (k₁.map (·.1)).Nodup) (hk₂ : (k₂.map (·.1)).Nodup) (h : IsUnion k k₁ k₂) :
    IsUnion (closure g (StartItems.ofGrammar g) k) (closure g (StartItems.ofGrammar g) k₁)
      (closure g (StartItems.ofGrammar g) k₂) := by
  have hc := closure_isClosure wf hk
  have hc₁ := closure_isClosure wf hk₁
  have hc₂ := closure_isClosure wf hk₂
  refine ⟨fun i => ?_, fun i => ?_, fun i l₁ l₂ hl₁ hl₂ => ?_⟩
  · rw [hc.mem_iff, hc₁.mem_iff, brought_congr h.left]
  · rw [hc.mem_iff, hc₂.mem_iff, brought_congr h.right]
  · have hi := (hc₁.mem_iff i).mp (mem_keys.mpr ⟨l₁, hl₁⟩)
    obtain ⟨l, hl⟩ := mem_keys.mp ((hc.mem_iff i).mpr ((brought_congr h.left).mpr hi))
    have heq : l = l₁ ∪ l₂ := by
      apply TerminalSet.ext
      intro t
      rw [TerminalSet.mem_union, hc.mem_set_iff hl, hc₁.mem_set_iff hl₁, hc₂.mem_set_iff hl₂]
      exact sees_union h.left h.right fun i t => h.holds_iff hk hk₁ hk₂
    exact heq ▸ hl

end Union

/-- The state reduces what the closure of its kernel completes, and passes on all that the closure
has to the states it leads to. -/
structure ClosedFrom (g : Grammar) (a : Automaton) (st : Automaton.State) (k : Kernel) :
    Prop where
  kernel : st.kernel = k.map fun e => (e.1, some e.2)
  nodup : (k.map (·.1)).Nodup
  reduces : st.reduces.Perm (completed g (closure g (StartItems.ofGrammar g) k))
  targets : ∀ x u, (x, u) ∈ st.transitions → ∀ i lookaheads,
    (i, lookaheads) ∈ closure g (StartItems.ofGrammar g) k → i.next g = some x →
      ∃ next lookaheads', a.states[u]? = some next ∧
        (i.advance, some lookaheads') ∈ next.kernel ∧ ∀ t ∈ lookaheads, t ∈ lookaheads'

section ClosedFrom

variable {a : Automaton} {s : Nat} {st : Automaton.State}

theorem exists_kernel (ha : a.Annotated g) (hst : a.states[s]? = some st) :
    ∃ k : Kernel, st.kernel = k.map fun e => (e.1, some e.2) := by
  refine ⟨st.kernel.map fun e => (e.1, e.2.getD ∅), ?_⟩
  rw [List.map_map]
  refine (List.map_id _).symm.trans (List.map_congr_left fun e he => ?_)
  obtain ⟨l, hl, -⟩ := ha s st e.1 e.2 hst he
  exact Prod.ext rfl (by simp [hl])

variable (wf : g.WellFormed) (hf : a.Faithful g) (ha : a.Annotated g)
  (hst : a.states[s]? = some st) (hk : st.kernel = k.map fun e => (e.1, some e.2))

include hf hst hk

theorem state_nodup : (k.map (·.1)).Nodup := by
  obtain ⟨γ, -, hkernel, -⟩ := hf.of_state hst
  have hnodup := hkernel.nodup
  rw [core, hk, List.map_map] at hnodup
  exact hnodup

theorem state_core {γ : List Symbol} (hγ : stateAfter a.step γ = some s) (i : Item) :
    i ∈ k.map (·.1) ↔ Core g γ i := by
  rw [← (hf.at_state hγ hst).1.mem_iff, core, hk, List.map_map]
  rfl

include ha

theorem state_sees {i : Item} {t : Nat} :
    Sees g k i t ↔ ∃ γ, stateAfter a.step γ = some s ∧ Ahead g γ i t := by
  refine sees_iff (Γ := {γ | stateAfter a.step γ = some s}) (hf.of_state hst |>.imp fun _ => And.left)
    (fun γ hγ => state_core hf hst hk hγ) fun i hi t => ?_
  obtain ⟨l, hl⟩ := mem_keys.mp hi
  have hmem : (i, some l) ∈ st.kernel := hk ▸ List.mem_map_of_mem hl
  obtain ⟨_, heq, hahead⟩ := ha s st i _ hst hmem
  cases heq
  rw [holds_iff_mem (state_nodup hf hst hk) hl, hahead]
  rfl

include wf

theorem state_reduces (he : a.Exact g) :
    st.reduces.Perm (completed g (closure g (StartItems.ofGrammar g) k)) := by
  obtain ⟨γ, hγ, -, hd⟩ := hf.of_state hst
  have hclosure := closure_isClosure wf (state_nodup hf hst hk)
  have hviable : ∀ i, i ∈ (closure g (StartItems.ofGrammar g) k).map (·.1) ↔ Viable g γ i := by
    intro i
    rw [hclosure.mem_iff, brought_iff (state_core hf hst hk hγ)]
  refine perm_of_agree (hf.reduces_nodup st (Array.mem_of_getElem? hst)) ?_ (fun p => ?_)
    fun p l l' hl hl' => ?_
  · rw [completed_core]
    exact LR0.completed_nodup hclosure.nodup hviable
  · rw [completed_core, LR0.mem_completed hviable, hd.completed]
  · apply TerminalSet.ext
    intro t
    rw [he s st p l t hst hl, hclosure.mem_set_iff (mem_of_completed hviable hl'),
      state_sees hf ha hst hk]

theorem state_targets {x : Symbol} {u : Nat} (hx : (x, u) ∈ st.transitions) {i : Item}
    {lookaheads : TerminalSet} (hi : (i, lookaheads) ∈ closure g (StartItems.ofGrammar g) k)
    (hnext : i.next g = some x) : ∃ next lookaheads', a.states[u]? = some next ∧
      (i.advance, some lookaheads') ∈ next.kernel ∧ ∀ t ∈ lookaheads, t ∈ lookaheads' := by
  have hclosure := closure_isClosure wf (state_nodup hf hst hk)
  have hlookup : st.transitions.lookup x = some u :=
    (lookup_iff_mem (hf.symbols_nodup st (Array.mem_of_getElem? hst))).mpr hx
  have hstep : ∀ γ, stateAfter a.step γ = some s → stateAfter a.step (x :: γ) = some u := by
    intro γ hγ
    rw [stateAfter, hγ, Option.bind_some, Automaton.step, hst]
    exact hlookup
  obtain ⟨γ, hγ, -, hd⟩ := hf.of_state hst
  obtain ⟨hend, -⟩ := (hd.moves x).mp ⟨u, hlookup⟩
  have hviable : Viable g γ i := (brought_iff (state_core hf hst hk hγ)).mp
    ((hclosure.mem_iff i).mp (mem_keys.mpr ⟨lookaheads, hi⟩))
  obtain ⟨next, hu, hkernel, -⟩ := hf.state _ u (hstep γ hγ)
  have hmem : i.advance ∈ core next := (hkernel.mem_iff _).mpr ⟨i, hviable, hnext, hend, rfl⟩
  obtain ⟨⟨j, o⟩, ho, hj⟩ := List.mem_map.mp hmem
  obtain rfl : j = i.advance := hj
  obtain ⟨l', rfl, hahead⟩ := ha u next _ o hu ho
  refine ⟨next, l', hu, ho, fun t ht => ?_⟩
  obtain ⟨δ, hδ, ht⟩ := (state_sees hf ha hst hk).mp ((hclosure.mem_set_iff hi).mp ht)
  exact (hahead t).mpr ⟨x :: δ, hstep δ hδ, .advance ht hnext hend⟩

theorem state_closedFrom (he : a.Exact g) : ClosedFrom g a st k :=
  ⟨hk, state_nodup hf hst hk, state_reduces wf hf ha hst hk he,
    fun _ _ hx _ _ hi hnext => state_targets wf hf ha hst hk hx hi hnext⟩

end ClosedFrom

/-- Finding the closure of a kernel comes to an end and gives the least closed map above it. The
closure of a pointwise union is the pointwise union of the closures. Every merged state is as if
closed from its merged kernel. -/
theorem closure_least_additive (hg : g.Defined) :
    (∀ k : Kernel, (k.map (·.1)).Nodup →
      (∃ n, EndsAfter g k n ∧ closure g (StartItems.ofGrammar g) k = itemsAfter g k n) ∧
        IsLeastClosed g k (closure g (StartItems.ofGrammar g) k)) ∧
    (∀ k k₁ k₂ : Kernel, (k.map (·.1)).Nodup → (k₁.map (·.1)).Nodup → (k₂.map (·.1)).Nodup →
      IsUnion k k₁ k₂ → IsUnion (closure g (StartItems.ofGrammar g) k)
        (closure g (StartItems.ofGrammar g) k₁) (closure g (StartItems.ofGrammar g) k₂)) ∧
    ∀ a, Method.merged.automaton g = .ok a → ∀ st ∈ a.states, ∃ k, ClosedFrom g a st k := by
  have wf := hg.wellFormed
  refine ⟨fun k hk => ⟨closure_ends wf hk, closure_isLeastClosed wf hk⟩,
    fun k k₁ k₂ hk hk₁ hk₂ h => closure_isUnion wf hk hk₁ hk₂ h, fun a ha st hst => ?_⟩
  obtain ⟨hf, he, -⟩ := Method.merged_spec wf ha
  have hannotated := Method.merged_annotated wf ha
  obtain ⟨s, hs⟩ := Array.mem_iff_getElem?.mp hst
  obtain ⟨k, hk⟩ := exists_kernel hannotated hs
  exact ⟨k, state_closedFrom wf hf hannotated hs hk he⟩

theorem closure_parentheses : Grammar.parentheses.Defined ∧
    IsLeastClosed .parentheses [(⟨1, 1⟩, .ofList [0])]
      [(⟨1, 1⟩, .ofList [0]), (⟨1, 0⟩, .ofList [3]), (⟨2, 0⟩, .ofList [3])] ∧
    IsUnion [(⟨1, 1⟩, .ofList [0, 3]), (⟨1, 0⟩, .ofList [3]), (⟨2, 0⟩, .ofList [3])]
      [(⟨1, 1⟩, .ofList [0]), (⟨1, 0⟩, .ofList [3]), (⟨2, 0⟩, .ofList [3])]
      [(⟨1, 1⟩, .ofList [3]), (⟨1, 0⟩, .ofList [3]), (⟨2, 0⟩, .ofList [3])] ∧
    ∀ st ∈ Automaton.parentheses.states, ∃ k, ClosedFrom .parentheses .parentheses st k := by
  obtain ⟨hleast, hunion, hmerged⟩ := closure_least_additive Grammar.parentheses_defined
  have houter : closure .parentheses (StartItems.ofGrammar .parentheses)
      [(⟨1, 1⟩, .ofList [0])] =
        [(⟨1, 1⟩, .ofList [0]), (⟨1, 0⟩, .ofList [3]), (⟨2, 0⟩, .ofList [3])] := by cbv
  have hinner : closure .parentheses (StartItems.ofGrammar .parentheses)
      [(⟨1, 1⟩, .ofList [3])] =
        [(⟨1, 1⟩, .ofList [3]), (⟨1, 0⟩, .ofList [3]), (⟨2, 0⟩, .ofList [3])] := by cbv
  have hboth : closure .parentheses (StartItems.ofGrammar .parentheses)
      [(⟨1, 1⟩, .ofList [0, 3])] =
        [(⟨1, 1⟩, .ofList [0, 3]), (⟨1, 0⟩, .ofList [3]), (⟨2, 0⟩, .ofList [3])] := by cbv
  have hkernels : IsUnion [(⟨1, 1⟩, .ofList [0, 3])] [(⟨1, 1⟩, .ofList [0])]
      [(⟨1, 1⟩, .ofList [3])] := by
    refine ⟨fun i => Iff.rfl, fun i => Iff.rfl, fun i l₁ l₂ hl₁ hl₂ => ?_⟩
    cases List.mem_singleton.mp hl₁
    cases List.mem_singleton.mp hl₂
    decide
  refine ⟨Grammar.parentheses_defined, ?_, ?_, hmerged _ Method.merged_parentheses⟩
  · rw [← houter]
    exact (hleast _ (by simp)).2
  · rw [← houter, ← hinner, ← hboth]
    exact hunion _ _ _ (by simp) (by simp) (by simp) hkernels

end TableParsing.Canonical
