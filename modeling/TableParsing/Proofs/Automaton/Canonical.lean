import TableParsing.Proofs.Automaton.Closure
import TableParsing.Proofs.Automaton.Faithful

/-! The canonical LR(1) collection against the items that are valid after a prefix. Without
the look-ahead sets it is the LR(0) construction; the sets hold exactly what can come next when
the items have been completed after the prefix. -/

namespace TableParsing.Canonical

variable {g : Grammar} {γ : List Symbol}

def Annotated (g : Grammar) (γ : List Symbol) (items : List (Item × TerminalSet)) : Prop :=
  ∀ i lookaheads, (i, lookaheads) ∈ items → ∀ t, t ∈ lookaheads ↔ Ahead g γ i t

structure IsAnnotatedKernel (g : Grammar) (γ : List Symbol) (k : Kernel) : Prop where
  core : IsKernel g γ (k.map (·.1))
  annotated : Annotated g γ k

/-- Every item valid after the prefix once, with its look-ahead set. -/
structure IsContents (g : Grammar) (γ : List Symbol) (items : List (Item × TerminalSet)) :
    Prop where
  nodup : (items.map (·.1)).Nodup
  mem_iff : ∀ i, i ∈ items.map (·.1) ↔ Viable g γ i
  annotated : Annotated g γ items

section Prefixes

variable {k : Kernel} {i : Item} {t : Nat}

theorem brought_iff (hk : ∀ i, i ∈ k.map (·.1) ↔ Core g γ i) : Brought g k i ↔ Viable g γ i := by
  constructor
  · intro h
    induction h with
    | kernel hi => exact ((hk _).mp hi).viable
    | start _ hnext hp ih => exact .expand ih hnext hp
  · intro h
    induction h with
    | start => exact .kernel ((hk _).mpr rfl)
    | advance hj hx hend _ => exact .kernel ((hk _).mpr ⟨_, hj, hx, hend, rfl⟩)
    | expand _ hnext hp ih => exact .start (ih hk) hnext hp

theorem sees_iff {Γ : Set (List Symbol)} (hne : Γ.Nonempty)
    (hk : ∀ γ ∈ Γ, ∀ i, i ∈ k.map (·.1) ↔ Core g γ i)
    (hahead : ∀ i ∈ k.map (·.1), ∀ t, Holds k i t ↔ ∃ γ ∈ Γ, Ahead g γ i t) :
    Sees g k i t ↔ ∃ γ ∈ Γ, Ahead g γ i t := by
  constructor
  · intro h
    induction h with
    | kernel ht => exact (hahead _ ht.mem_keys _).mp ht
    | first hi hnext hp ht =>
      obtain ⟨γ, hγ⟩ := hne
      exact ⟨γ, hγ, .first ((brought_iff (hk γ hγ)).mp hi) hnext hp ht⟩
    | inherit _ hnext hp hnull ih =>
      obtain ⟨γ, hγ, ht⟩ := ih
      exact ⟨γ, hγ, .inherit ht hnext hp hnull⟩
  · rintro ⟨γ, hγ, h⟩
    induction h with
    | @advance γ j x t hj hx hend _ =>
      have hi : j.advance ∈ k.map (·.1) := (hk _ hγ _).mpr ⟨j, hj.viable, hx, hend, rfl⟩
      exact .kernel ((hahead _ hi _).mpr ⟨_, hγ, .advance hj hx hend⟩)
    | first hj hnext hp ht => exact .first ((brought_iff (hk _ hγ)).mpr hj) hnext hp ht
    | inherit _ hnext hp hnull ih => exact .inherit (ih hγ) hnext hp hnull

theorem closure_isContents (hk : IsAnnotatedKernel g γ k) (wf : g.WellFormed) :
    IsContents g γ (closure g (StartItems.ofGrammar g) k) := by
  have hclosure := closure_isClosure wf hk.core.nodup
  have hahead : ∀ i ∈ k.map (·.1), ∀ t, Holds k i t ↔ ∃ δ ∈ ({γ} : Set (List Symbol)),
      Ahead g δ i t := by
    intro i hi t
    obtain ⟨l, hl⟩ := mem_keys.mp hi
    rw [holds_iff_mem hk.core.nodup hl, hk.annotated i l hl t]
    simp
  refine ⟨hclosure.nodup, fun i => ?_, fun i l hl t => ?_⟩
  · rw [hclosure.mem_iff, brought_iff hk.core.mem_iff]
  · rw [hclosure.mem_set_iff hl,
      sees_iff (Set.singleton_nonempty γ) (fun δ hδ => hδ ▸ hk.core.mem_iff) hahead]
    simp

end Prefixes

section Successors

variable {items : List (Item × TerminalSet)}

theorem moves_core :
    (moves g items).map (fun m => (m.1, m.2.1)) = LR0.moves g (items.map (·.1)) := by
  simp only [moves, LR0.moves, List.map_filterMap, List.filterMap_map]
  refine List.filterMap_congr fun e _ => ?_
  simp only [Function.comp_apply]
  cases e.1.next g with
  | none => rfl
  | some x =>
    by_cases hx : x = .terminal Symbol.endOfInput
    · simp [hx]
    · simp [hx]

theorem successors_core : (successors g items).map (fun e => (e.1, e.2.map (·.1))) =
    LR0.successors g (items.map (·.1)) := by
  have hsymbols : (moves g items).map (·.1) = (LR0.moves g (items.map (·.1))).map (·.1) := by
    rw [← moves_core, List.map_map]
    rfl
  simp only [successors, LR0.successors, hsymbols, List.map_map, Function.comp_def]
  refine List.map_congr_left fun x _ => ?_
  rw [Prod.mk.injEq]
  refine ⟨rfl, ?_⟩
  rw [List.map_mergeSort (s := Item.le) (fun a _ b _ => rfl), ← moves_core, List.filterMap_map,
    List.map_filterMap]
  refine congrArg (List.mergeSort · Item.le) (List.filterMap_congr fun m _ => ?_)
  by_cases hm : m.1 = x
  · simp [hm]
  · simp [hm]

theorem completed_core : (completed g items).map (·.1) = LR0.completed g (items.map (·.1)) := by
  simp only [completed, LR0.completed, List.map_filterMap, List.filterMap_map]
  refine List.filterMap_congr fun e _ => ?_
  cases h : e.1.next g with
  | none => simp [h]
  | some x => simp [h]

theorem lookup_core {l : List (Symbol × Kernel)} {x : Symbol} :
    (l.map fun e => (e.1, e.2.map (·.1))).lookup x = (l.lookup x).map (List.map (·.1)) := by
  induction l with
  | nil => rfl
  | cons e l ih =>
    rw [List.map_cons, List.lookup_cons, List.lookup_cons, ih]
    cases x == e.1 <;> rfl

theorem mem_of_lookup_successors {x : Symbol} {k : Kernel}
    (h : (successors g items).lookup x = some k) {j : Item} {lookaheads : TerminalSet}
    (hj : (j, lookaheads) ∈ k) : ∃ i, (i, lookaheads) ∈ items ∧ i.next g = some x ∧
      x ≠ .terminal Symbol.endOfInput ∧ j = i.advance := by
  rw [successors, lookup_map_mk] at h
  split at h
  case isFalse => cases h
  case isTrue =>
    cases h
    simp only [List.mem_mergeSort, List.mem_filterMap, moves, Option.ite_none_right_eq_some,
      Option.some.injEq] at hj
    obtain ⟨⟨y, m⟩, ⟨e, he, hm⟩, rfl, rfl⟩ := hj
    split at hm
    case h_2 => cases hm
    case h_1 z hz =>
      split at hm
      case isTrue => cases hm
      case isFalse hend =>
        cases hm
        exact ⟨e.1, he, hz, hend, rfl⟩

theorem mem_of_completed (hviable : ∀ i, i ∈ items.map (·.1) ↔ Viable g γ i) {p : Nat}
    {lookaheads : TerminalSet} (h : (p, lookaheads) ∈ completed g items) :
    (.completed g p, lookaheads) ∈ items := by
  simp only [completed, List.mem_filterMap, Option.isNone_iff_eq_none,
    Option.ite_none_right_eq_some, Option.some.injEq] at h
  obtain ⟨⟨i, l⟩, hi, hnext, heq⟩ := h
  cases heq
  rwa [← ((hviable i).mp (List.mem_map_of_mem hi)).eq_completed hnext]

variable (hitems : IsContents g γ items)

include hitems

theorem lookup_successors_isSome {x : Symbol} :
    (∃ k, (successors g items).lookup x = some k) ↔
      x ≠ .terminal Symbol.endOfInput ∧ ∃ i, Viable g γ i ∧ i.next g = some x := by
  rw [← LR0.lookup_successors_isSome hitems.mem_iff, ← successors_core, lookup_core]
  simp

theorem successors_isAnnotatedKernel {x : Symbol} {k : Kernel}
    (h : (successors g items).lookup x = some k) : IsAnnotatedKernel g (x :: γ) k := by
  constructor
  · refine LR0.successors_isKernel hitems.nodup hitems.mem_iff (x := x) ?_
    rw [← successors_core, lookup_core, h]
    rfl
  · intro j lookaheads hj t
    obtain ⟨i, hi, hx, hend, rfl⟩ := mem_of_lookup_successors h hj
    rw [ahead_advance_iff hx hend]
    exact hitems.annotated i lookaheads hi t

theorem mem_completed {p : Nat} {lookaheads : TerminalSet}
    (h : (p, lookaheads) ∈ completed g items) {t : Nat} :
    t ∈ lookaheads ↔ Ahead g γ (.completed g p) t :=
  hitems.annotated _ _ (mem_of_completed hitems.mem_iff h) t

end Successors

theorem successors_nodup {items : List (Item × TerminalSet)} :
    ((successors g items).map (·.1)).Nodup := by
  simp only [successors, List.map_map, Function.comp_def, List.map_id']
  exact nodup_eraseDups _

abbrev kernelAfter (g : Grammar) : List Symbol → Option Kernel :=
  Exploration.kernelAfter (closure g (StartItems.ofGrammar g)) (successors g) [(Item.start 0, ∅)]

theorem start_isAnnotatedKernel (wf : g.WellFormed) :
    IsAnnotatedKernel g [] [(Item.start 0, ∅)] := by
  refine ⟨.start g, fun i lookaheads hi t => ?_⟩
  cases List.mem_singleton.mp hi
  rw [iff_false_left (TerminalSet.not_mem_empty t), ahead_start_iff]
  intro h
  have hneeded := h.2.needed
  rw [wf.accepting] at hneeded
  exact (wf.needed_proper hneeded).1 rfl

theorem kernelAfter_isAnnotatedKernel (wf : g.WellFormed) {γ : List Symbol} {k : Kernel}
    (h : kernelAfter g γ = some k) : IsAnnotatedKernel g γ k := by
  induction γ generalizing k with
  | nil =>
    cases h
    exact start_isAnnotatedKernel wf
  | cons x γ ih =>
    obtain ⟨l, hl, hk⟩ := Option.bind_eq_some_iff.mp h
    exact successors_isAnnotatedKernel (closure_isContents (ih hl) wf) hk

/-- The states of the collection are those of its nodes, and every node has the contents of the
prefixes that lead to it. -/
structure Nodes (g : Grammar) (a : Automaton)
    (nodes : Array (Node Kernel (List (Item × TerminalSet)))) : Prop where
  states : a.states = nodes.map (stateOfNode g)
  complete : Exploration.Complete (closure g (StartItems.ofGrammar g)) (successors g)
    [(Item.start 0, ∅)] nodes
  step : a.step = Exploration.step nodes
  contents : ∀ γ s, stateAfter a.step γ = some s → ∃ node, nodes[s]? = some node ∧
    IsAnnotatedKernel g γ node.kernel ∧ IsContents g γ node.contents
  reached : ∀ s, s < a.states.size → ∃ γ, stateAfter a.step γ = some s

theorem build_nodes (wf : g.WellFormed) {a : Automaton} (h : build g = .ok a) :
    ∃ nodes, Nodes g a nodes := by
  simp only [build] at h
  split at h
  case h_2 => cases h
  case h_1 nodes hnodes =>
    cases h
    have done : Exploration.Complete (closure g (StartItems.ofGrammar g)) (successors g)
        [(Item.start 0, ∅)] nodes := Exploration.explore_ok (by decide) hnodes
    have hstep : Automaton.step ⟨nodes.map (stateOfNode g)⟩ = Exploration.step nodes := by
      funext s x
      simp only [Automaton.step, Exploration.step, Array.getElem?_map]
      cases nodes[s]? <;> rfl
    refine ⟨nodes, rfl, done, hstep, ?_, ?_⟩
    · intro γ s hs
      rw [hstep] at hs
      obtain ⟨node, hnode, hkernel⟩ := done.exists_node hs
      have hk := kernelAfter_isAnnotatedKernel wf hkernel
      refine ⟨node, hnode, hk, ?_⟩
      rw [done.contents_eq s node hnode]
      exact closure_isContents hk wf
    · intro s hs
      rw [hstep]
      exact done.exists_stateAfter (fun _ => successors_nodup) (by simpa using hs)

section Build

variable {a : Automaton} {nodes : Array (Node Kernel (List (Item × TerminalSet)))}
  (h : Nodes g a nodes)

include h

theorem Nodes.getElem? {s : Nat} {st : Automaton.State} (hst : a.states[s]? = some st) :
    ∃ node, nodes[s]? = some node ∧ st = stateOfNode g node ∧
      ∃ γ, stateAfter a.step γ = some s ∧ IsContents g γ node.contents := by
  obtain ⟨γ, hγ⟩ := h.reached s (Array.getElem?_eq_some_iff.mp hst).1
  obtain ⟨node, hnode, -, hitems⟩ := h.contents γ s hγ
  rw [h.states, Array.getElem?_map, hnode] at hst
  cases hst
  exact ⟨node, hnode, rfl, γ, hγ, hitems⟩

theorem Nodes.faithful : Automaton.Faithful g a := by
  refine ⟨?_, h.reached, ?_, ?_⟩
  · intro γ s hs
    obtain ⟨node, hnode, hk, hitems⟩ := h.contents γ s hs
    refine ⟨stateOfNode g node, by rw [h.states, Array.getElem?_map, hnode]; rfl, ?_, ?_, ?_, ?_⟩
    · simpa [core, stateOfNode, Function.comp_def] using hk.core
    · intro x
      rw [← lookup_successors_isSome hitems]
      rcases (h.complete.targets s node hnode).lookup x with ⟨hl, ht⟩ | ⟨k, j, hl, ht, -⟩
      · simp [stateOfNode, hl, ht]
      · simp [stateOfNode, hl, ht]
    · intro p
      rw [stateOfNode, completed_core]
      exact LR0.mem_completed hitems.mem_iff
    · exact LR0.acceptsEnd_iff hitems.mem_iff
  · intro st hst
    obtain ⟨s, hs⟩ := Array.mem_iff_getElem?.mp hst
    obtain ⟨node, hnode, rfl, -⟩ := h.getElem? hs
    change (node.transitions.map (·.1)).Nodup
    rw [← (h.complete.targets s node hnode).symbols]
    exact successors_nodup
  · intro st hst
    obtain ⟨s, hs⟩ := Array.mem_iff_getElem?.mp hst
    obtain ⟨node, -, rfl, γ, -, hitems⟩ := h.getElem? hs
    rw [stateOfNode, completed_core]
    exact LR0.completed_nodup hitems.nodup hitems.mem_iff

theorem Nodes.precise : Automaton.Precise g a := by
  intro γ s st p lookaheads t hγ hst hp
  obtain ⟨node, hnode, -, hitems⟩ := h.contents γ s hγ
  rw [h.states, Array.getElem?_map, hnode] at hst
  cases hst
  exact mem_completed hitems hp

theorem Nodes.exact : Automaton.Exact g a := h.precise.exact h.reached

theorem Nodes.annotated : Automaton.Annotated g a := by
  intro s st i o hst hi
  obtain ⟨node, hnode, rfl, γ, hγ, -⟩ := h.getElem? hst
  obtain ⟨⟨j, l⟩, hl, heq⟩ := List.mem_map.mp hi
  cases heq
  -- whatever prefix leads to the state, its node is the same
  have hahead : ∀ δ, stateAfter a.step δ = some s → ∀ t, t ∈ l ↔ Ahead g δ i t := by
    intro δ hδ
    obtain ⟨node', hnode', hk, -⟩ := h.contents δ s hδ
    rw [hnode] at hnode'
    cases hnode'
    exact hk.annotated i l hl
  refine ⟨l, rfl, fun t => ⟨fun ht => ⟨γ, hγ, (hahead γ hγ t).mp ht⟩, ?_⟩⟩
  rintro ⟨δ, hδ, ht⟩
  exact (hahead δ hδ t).mpr ht

end Build

end TableParsing.Canonical
