import TableParsing.Automaton.LR0
import TableParsing.Proofs.Automaton.Kernel

/-! The LR(0) collection against the items that are valid after a prefix: the state that a
prefix leads to has the core of the prefix as its kernel, and its successors, reductions and
acceptance are those of the valid items. -/

namespace TableParsing

theorem Item.nextNonterminal_eq_some {g : Grammar} {i : Item} {n : Nat} :
    i.nextNonterminal g = some n ↔ i.next g = some (.nonterminal n) := by
  rw [nextNonterminal, Option.bind_eq_some_iff]
  constructor
  · intro h
    obtain ⟨x, hx, hn⟩ := h
    cases x with
    | terminal t => cases hn
    | nonterminal m =>
      cases hn
      exact hx
  · intro h
    exact ⟨_, h, rfl⟩

namespace LR0

variable {g : Grammar} {γ : List Symbol}

def brought (g : Grammar) : Array (List Item) :=
  (Array.range g.nonterminals.size).map fun n => (StartItems.ofGrammar g).closure [n]

theorem mem_brought (wf : g.WellFormed) {n : Nat} (hn : n < g.nonterminals.size) {i : Item} :
    i ∈ (brought g).getD n [] ↔
      ∃ m, Relation.ReflTransGen (Begets g) n m ∧ ∃ p ∈ g.productionsOf m, i = .start p := by
  have hroots : ∀ r ∈ [n], r < g.nonterminals.size := by
    intro r hr
    rwa [List.mem_singleton.mp hr]
  have hget : (brought g).getD n [] = (StartItems.ofGrammar g).closure [n] := by
    simp [brought, hn]
  simp only [hget, StartItems.closure, List.mem_flatMap, (StartItems.expanded_spec wf hroots).2,
    List.mem_singleton, exists_eq_left, StartItems.of_eq wf, List.mem_map, @eq_comm _ i]

theorem mem_closure (wf : g.WellFormed) {k : List Item} (hk : ∀ i, i ∈ k ↔ Core g γ i)
    {i : Item} : i ∈ closure g (brought g) k ↔ Viable g γ i := by
  rw [closure, List.mem_eraseDups, List.mem_flatMap, viable_iff]
  constructor
  · intro h
    obtain ⟨j, hj, hi⟩ := h
    have hcore := (hk j).mp hj
    rcases List.mem_cons.mp hi with rfl | hi
    · exact Or.inl hcore
    · right
      split at hi
      case h_1 n hn =>
        have hnext := Item.nextNonterminal_eq_some.mp hn
        have hlt := (wf.nonterminal_proper (Item.next_mem hnext)).2
        obtain ⟨m, hreach, p, hp, rfl⟩ := (mem_brought wf hlt).mp hi
        exact ⟨m, p, needed_iff.mpr ⟨j, n, hcore, hnext, hreach⟩, hp, rfl⟩
      case h_2 => exact absurd hi List.not_mem_nil
  · intro h
    rcases h with hcore | ⟨m, p, hneeded, hp, rfl⟩
    · exact ⟨i, (hk i).mpr hcore, List.mem_cons_self⟩
    · obtain ⟨j, n, hcore, hnext, hreach⟩ := needed_iff.mp hneeded
      refine ⟨j, (hk j).mpr hcore, List.mem_cons_of_mem _ ?_⟩
      have hlt := (wf.nonterminal_proper (Item.next_mem hnext)).2
      rw [Item.nextNonterminal_eq_some.mpr hnext]
      exact (mem_brought wf hlt).mpr ⟨m, hreach, p, hp, rfl⟩

theorem mem_moves {items : List Item} {x : Symbol} {j : Item} :
    (x, j) ∈ moves g items ↔
      ∃ i ∈ items, i.next g = some x ∧ x ≠ .terminal Symbol.endOfInput ∧ j = i.advance := by
  simp only [moves, List.mem_filterMap]
  refine exists_congr fun i => and_congr_right fun _ => ?_
  cases i.next g with
  | none => simp
  | some y =>
    by_cases hy : y = .terminal Symbol.endOfInput
    · simp only [hy, if_true]
      constructor
      · intro h
        cases h
      · intro h
        exact absurd (Option.some.inj h.1).symm h.2.1
    · simp only [hy, if_false, Option.some.injEq, Prod.mk.injEq]
      constructor
      · intro h
        obtain ⟨rfl, rfl⟩ := h
        exact ⟨rfl, hy, rfl⟩
      · intro h
        exact ⟨h.1, h.2.2.symm⟩

theorem nodup_moves {items : List Item} (h : items.Nodup) : (moves g items).Nodup := by
  refine h.filterMap fun i j m hi hj => ?_
  have hi' : (m.1, m.2) ∈ moves g [i] := List.mem_filterMap.mpr ⟨i, by simp, hi⟩
  have hj' : (m.1, m.2) ∈ moves g [j] := List.mem_filterMap.mpr ⟨j, by simp, hj⟩
  obtain ⟨i', hi', -, -, hmi⟩ := mem_moves.mp hi'
  obtain ⟨j', hj', -, -, hmj⟩ := mem_moves.mp hj'
  obtain rfl := List.mem_singleton.mp hi'
  obtain rfl := List.mem_singleton.mp hj'
  have heq : i'.advance = j'.advance := hmi.symm.trans hmj
  cases i'
  cases j'
  simpa [Item.advance] using heq

variable {items : List Item}

theorem lookup_successors (x : Symbol) :
    (successors g items).lookup x =
      if x ∈ (moves g items).map (·.1) then
        some (((moves g items).filterMap fun m => if m.1 = x then some m.2 else none).mergeSort
          Item.le)
      else none := by
  rw [successors, lookup_map_mk]
  simp only [List.mem_eraseDups]

theorem successors_nodup : ((successors g items).map (·.1)).Nodup := by
  simp only [successors, List.map_map, Function.comp_def, List.map_id']
  exact nodup_eraseDups _

section Items

variable (hnodup : items.Nodup) (hitems : ∀ i, i ∈ items ↔ Viable g γ i)

include hitems

theorem lookup_successors_isSome {x : Symbol} :
    (∃ k, (successors g items).lookup x = some k) ↔
      x ≠ .terminal Symbol.endOfInput ∧ ∃ i, Viable g γ i ∧ i.next g = some x := by
  rw [lookup_successors]
  have hmem : x ∈ (moves g items).map (·.1) ↔
      x ≠ .terminal Symbol.endOfInput ∧ ∃ i, Viable g γ i ∧ i.next g = some x := by
    rw [List.mem_map]
    constructor
    · intro h
      obtain ⟨⟨y, j⟩, hm, rfl⟩ := h
      obtain ⟨i, hi, hx, hend, -⟩ := mem_moves.mp hm
      exact ⟨hend, i, (hitems i).mp hi, hx⟩
    · intro h
      obtain ⟨hend, i, hi, hx⟩ := h
      exact ⟨(x, i.advance), mem_moves.mpr ⟨i, (hitems i).mpr hi, hx, hend, rfl⟩, rfl⟩
  rw [← hmem]
  split
  case isTrue h => simp [h]
  case isFalse h => simp [h]

theorem mem_completed {p : Nat} :
    p ∈ completed g items ↔ Viable g γ (.completed g p) := by
  simp only [completed, List.mem_filterMap, hitems, Option.isNone_iff_eq_none,
    Option.ite_none_right_eq_some, Option.some.injEq]
  constructor
  · intro h
    obtain ⟨i, hi, hnext, rfl⟩ := h
    exact hi.eq_completed hnext ▸ hi
  · intro h
    exact ⟨_, h, Item.next_completed, rfl⟩

theorem acceptsEnd_iff : acceptsEnd g items = true ↔
    ∃ i, Viable g γ i ∧ i.next g = some (.terminal Symbol.endOfInput) := by
  simp only [acceptsEnd, List.any_eq_true, hitems, beq_iff_eq]

include hnodup

theorem successors_isKernel {x : Symbol} {k : List Item}
    (h : (successors g items).lookup x = some k) : IsKernel g (x :: γ) k := by
  rw [lookup_successors] at h
  split at h
  case isFalse => cases h
  case isTrue =>
    cases h
    refine ⟨List.pairwise_mergeSort Item.le_trans Item.le_total _, ?_, fun j => ?_⟩
    · rw [(List.mergeSort_perm _ _).nodup_iff]
      refine (nodup_moves hnodup).filterMap fun a b j ha hb => ?_
      simp only [Option.mem_def, Option.ite_none_right_eq_some, Option.some.injEq] at ha hb
      exact Prod.ext (ha.1.trans hb.1.symm) (ha.2.trans hb.2.symm)
    · rw [List.mem_mergeSort, List.mem_filterMap]
      constructor
      · intro h
        obtain ⟨⟨y, j'⟩, hm, hj⟩ := h
        simp only [Option.ite_none_right_eq_some, Option.some.injEq] at hj
        obtain ⟨rfl, rfl⟩ := hj
        obtain ⟨i, hi, hx, hend, rfl⟩ := mem_moves.mp hm
        exact ⟨i, (hitems i).mp hi, hx, hend, rfl⟩
      · intro h
        obtain ⟨i, hi, hx, hend, rfl⟩ := h
        exact ⟨(x, i.advance), mem_moves.mpr ⟨i, (hitems i).mpr hi, hx, hend, rfl⟩, by simp⟩

theorem completed_nodup : (completed g items).Nodup := by
  rw [List.Nodup, completed, List.pairwise_filterMap]
  refine hnodup.imp_of_mem fun {i j} hi hj hne p hp q hq heq => hne ?_
  simp only [Option.isNone_iff_eq_none, Option.ite_none_right_eq_some, Option.some.injEq]
    at hp hq
  have hi' := ((hitems i).mp hi).eq_completed hp.1
  have hj' := ((hitems j).mp hj).eq_completed hq.1
  rw [hi', hj', hp.2, hq.2, heq]

end Items

def step (d : Collection) (s : Nat) (x : Symbol) : Option Nat := (d[s]?).bind (·.target? x)

/-- What the numbered states of a collection have to do with prefixes. -/
structure Represents (g : Grammar) (d : Collection) : Prop where
  state : ∀ γ s, stateAfter (step d) γ = some s → ∃ st, d[s]? = some st ∧
    IsKernel g γ st.kernel ∧ Describes g γ st.transitions st.reduces st.accepts
  reached : ∀ s, s < d.size → ∃ γ, stateAfter (step d) γ = some s
  injective : ∀ (s s' : Nat) (st st' : State), d[s]? = some st → d[s']? = some st' →
    st.kernel = st'.kernel → s = s'
  symbols_nodup : ∀ st ∈ d, (st.transitions.map (·.1)).Nodup
  reduces_nodup : ∀ st ∈ d, st.reduces.Nodup

theorem Represents.exists_stateAfter {d : Collection} (h : Represents g d) {γ : List Symbol}
    {i : Item} (hi : Viable g γ i) : ∃ s, stateAfter (step d) γ = some s := by
  induction hi with
  | start => exact ⟨0, rfl⟩
  | @advance γ j x hj hx hend ih =>
    obtain ⟨s, hs⟩ := ih
    obtain ⟨st, hst, -, hd⟩ := h.state γ s hs
    obtain ⟨s', hs'⟩ := (hd.moves x).mpr ⟨hend, j, hj, hx⟩
    refine ⟨s', ?_⟩
    rw [stateAfter, hs, Option.bind_some, step, hst]
    exact hs'
  | expand _ _ _ ih => exact ih

theorem Represents.viable_of_step {d : Collection} (h : Represents g d) {γ : List Symbol}
    {x : Symbol} {s s' : Nat} (hγ : stateAfter (step d) γ = some s) (hx : step d s x = some s') :
    x ≠ .terminal Symbol.endOfInput ∧ ∃ i, Viable g γ i ∧ i.next g = some x := by
  obtain ⟨st, hst, -, hd⟩ := h.state γ s hγ
  rw [step, hst] at hx
  exact (hd.moves x).mp ⟨s', hx⟩

theorem Represents.exists_step {d : Collection} (h : Represents g d) {γ : List Symbol} {i : Item}
    {x : Symbol} {s : Nat} (hγ : stateAfter (step d) γ = some s) (hi : Viable g (x :: γ) i) :
    ∃ r, step d s x = some r ∧ stateAfter (step d) (x :: γ) = some r := by
  obtain ⟨r, hr⟩ := h.exists_stateAfter hi
  refine ⟨r, ?_, hr⟩
  rw [← hr, stateAfter, hγ, Option.bind_some]

abbrev kernelAfter (g : Grammar) : List Symbol → Option (List Item) :=
  Exploration.kernelAfter (closure g (brought g)) (successors g) [Item.start 0]

theorem nodup_closure (k : List Item) : (closure g (brought g) k).Nodup := nodup_eraseDups _

theorem kernelAfter_isKernel (wf : g.WellFormed) {γ : List Symbol} {k : List Item}
    (h : kernelAfter g γ = some k) : IsKernel g γ k := by
  induction γ generalizing k with
  | nil =>
    cases h
    exact .start g
  | cons x γ ih =>
    obtain ⟨l, hl, hk⟩ := Option.bind_eq_some_iff.mp h
    have hmem := (ih hl).mem_iff
    exact successors_isKernel (nodup_closure l) (fun i => mem_closure wf hmem) hk

section Explored

variable (wf : g.WellFormed) {nodes : Array (Node (List Item) (List Item))}
  (done : Exploration.Complete (closure g (brought g)) (successors g) [Item.start 0] nodes)

include wf done

theorem contents_valid {γ : List Symbol} {s : Nat}
    (hs : stateAfter (Exploration.step nodes) γ = some s) : ∃ node, nodes[s]? = some node ∧
      IsKernel g γ node.kernel ∧ node.contents.Nodup ∧
        ∀ i, i ∈ node.contents ↔ Viable g γ i := by
  obtain ⟨node, hnode, hkernel⟩ := done.exists_node hs
  have hk := kernelAfter_isKernel wf hkernel
  refine ⟨node, hnode, hk, ?_, fun i => ?_⟩
  · rw [done.contents_eq s node hnode]
    exact nodup_closure _
  · rw [done.contents_eq s node hnode]
    exact mem_closure wf hk.mem_iff

theorem ofNode_describes {γ : List Symbol} {s : Nat}
    (hs : stateAfter (Exploration.step nodes) γ = some s) : ∃ node, nodes[s]? = some node ∧
      IsKernel g γ node.kernel ∧
        Describes g γ node.transitions (completed g node.contents)
          (acceptsEnd g node.contents) := by
  obtain ⟨node, hnode, hk, -, hitems⟩ := contents_valid wf done hs
  refine ⟨node, hnode, hk, ?_, fun p => mem_completed hitems, acceptsEnd_iff hitems⟩
  intro x
  rw [← lookup_successors_isSome hitems]
  rcases (done.targets s node hnode).lookup x with ⟨hl, ht⟩ | ⟨k, j, hl, ht, -⟩
  · simp [hl, ht]
  · simp [hl, ht]

theorem ofNode_represents : Represents g (nodes.map (State.ofNode g)) := by
  have hstep : step (nodes.map (State.ofNode g)) = Exploration.step nodes := by
    funext s x
    simp only [step, Exploration.step, Array.getElem?_map]
    cases nodes[s]? <;> rfl
  have reached : ∀ s, s < nodes.size → ∃ γ, stateAfter (Exploration.step nodes) γ = some s :=
    fun s hs => done.exists_stateAfter (fun _ => successors_nodup) hs
  refine ⟨?_, ?_, ?_, ?_, ?_⟩
  · intro γ s hs
    rw [hstep] at hs
    obtain ⟨node, hnode, hk, hd⟩ := ofNode_describes wf done hs
    exact ⟨State.ofNode g node, by rw [Array.getElem?_map, hnode]; rfl, hk, hd⟩
  · intro s hs
    rw [hstep]
    exact reached s (by simpa using hs)
  · intro s s' st st' hs hs' heq
    rw [Array.getElem?_map, Option.map_eq_some_iff] at hs hs'
    obtain ⟨node, hnode, rfl⟩ := hs
    obtain ⟨node', hnode', rfl⟩ := hs'
    exact done.injective s s' node node' hnode hnode' heq
  · intro st hst
    obtain ⟨node, hnode, rfl⟩ := Array.mem_map.mp hst
    obtain ⟨s, hs, rfl⟩ := Array.mem_iff_getElem.mp hnode
    change (nodes[s].transitions.map (·.1)).Nodup
    rw [← (done.targets s _ (Array.getElem?_eq_getElem hs)).symbols]
    exact successors_nodup
  · intro st hst
    obtain ⟨node, hnode, rfl⟩ := Array.mem_map.mp hst
    obtain ⟨s, hs, rfl⟩ := Array.mem_iff_getElem.mp hnode
    obtain ⟨γ, hγ⟩ := reached s hs
    obtain ⟨node, hnode, -, hnodup, hitems⟩ := contents_valid wf done hγ
    rw [Array.getElem?_eq_getElem hs] at hnode
    cases hnode
    exact completed_nodup hnodup hitems

end Explored

theorem build_represents (wf : g.WellFormed) {d : Collection} (h : build g = .ok d) :
    Represents g d := by
  simp only [build] at h
  split at h
  case h_2 => cases h
  case h_1 nodes hnodes =>
    cases h
    exact ofNode_represents wf (Exploration.explore_ok (by decide) hnodes)

theorem build_size_le {d : Collection} (h : build g = .ok d) : d.size ≤ maxStates := by
  simp only [build] at h
  split at h
  case h_1 nodes hnodes =>
    cases h
    rw [Array.size_map]
    exact Exploration.explore_size_le (by decide) hnodes
  case h_2 => cases h

end LR0

end TableParsing
