import TableParsing.Proofs.Automaton.Method
import TableParsing.Table

/-! The actions of a generated table come from the state of its row: a shift from a transition,
a reduction from a completed production, acceptance from an accepting state. A table without
conflicts has every action that its automaton calls for, and a default reduction is then the
only one of its row. -/

namespace TableParsing

theorem mem_of_getD {α : Type} {xs : Array (Option α)} {i : Nat} {a : α}
    (h : xs.getD i none = some a) : some a ∈ xs := by
  rw [Array.getD_eq_getD_getElem?, Option.getD_eq_iff] at h
  rcases h with h | ⟨-, h⟩
  · exact Array.mem_of_getElem? h
  · cases h

theorem mem_candidates {reduces : List Nat} {p : Nat} :
    p ∈ (reduces.mergeSort (· ≤ ·)).eraseDups ↔ p ∈ reduces := by
  rw [List.mem_eraseDups, List.mem_mergeSort]

theorem resolve_action {g : Grammar} {s t : Nat} {shift : Option Action} {reduces : List Nat}
    {act : Action} (h : (resolve g s t shift reduces).action = some act) :
    shift = some act ∨ (∃ p ∈ reduces, act = .reduce p) ∨ act = .error := by
  simp only [resolve] at h
  split at h
  case h_1 => exact Or.inl h
  case h_2 winner losers hsorted =>
    have hwinner : winner ∈ reduces := by
      rw [← mem_candidates, hsorted]
      exact List.mem_cons_self
    split at h
    case h_1 =>
      cases h
      exact Or.inr (Or.inl ⟨winner, hwinner, rfl⟩)
    case h_2 shift =>
      simp only [Option.some.injEq, shiftConflict, compareLevels] at h
      split at h
      case h_1 =>
        split at h
        · exact Or.inl (congrArg some h)
        · split at h
          · exact Or.inr (Or.inl ⟨winner, hwinner, h.symm⟩)
          · split at h
            · exact Or.inr (Or.inl ⟨winner, hwinner, h.symm⟩)
            · exact Or.inl (congrArg some h)
            · exact Or.inr (Or.inr h.symm)
      case h_2 => exact Or.inl (congrArg some h)

theorem resolve_of_noConflict {g : Grammar} {s t : Nat} {shift : Option Action}
    {reduces : List Nat} (h : (resolve g s t shift reduces).conflicts = []) :
    reduces = [] ∧ (resolve g s t shift reduces).action = shift ∨
      shift = none ∧ ∀ p ∈ reduces, (resolve g s t shift reduces).action = some (.reduce p) := by
  simp only [resolve] at h ⊢
  split at h
  case h_1 hsorted =>
    refine Or.inl ⟨?_, rfl⟩
    rw [List.eq_nil_iff_forall_not_mem]
    intro p hp
    rw [← mem_candidates, hsorted] at hp
    exact absurd hp List.not_mem_nil
  case h_2 winner losers hsorted =>
    split at h
    case h_1 =>
      refine Or.inr ⟨rfl, fun p hp => ?_⟩
      rw [List.map_eq_nil_iff] at h
      rw [← mem_candidates, hsorted, h, List.mem_singleton] at hp
      rw [hp]
    case h_2 => simp at h

namespace Table

variable {g : Grammar} {a : Automaton} {s : Nat} {st : Automaton.State}

theorem getElem?_rows :
    (generate g a).rows[s]? = (a.states[s]?).map fun st => rowOf st (cells g s st) := by
  simp only [generate, Array.getElem?_zipWith, Array.getElem?_mapIdx]
  cases a.states[s]? <;> rfl

theorem size_rows : (generate g a).rows.size = a.states.size := by
  simp [generate]

theorem production_generate (p : Nat) : (generate g a).production p =
    ⟨(g.production p).left, (g.production p).right.size, (g.production p).aliases⟩ := by
  simp only [production, generate, Grammar.production, Array.getD_eq_getD_getElem?,
    Array.getElem?_map]
  cases g.productions[p]? <;> rfl

theorem lookup_gotos {transitions : List (Symbol × Nat)} {n : Nat} :
    (transitions.filterMap fun (x, next) => x.nonterminal?.map (·, next)).lookup n =
      transitions.lookup (.nonterminal n) := by
  induction transitions with
  | nil => rfl
  | cons e l ih =>
    obtain ⟨x, next⟩ := e
    cases x with
    | terminal t =>
      have hne : (Symbol.nonterminal n == .terminal t) = false := by simp
      rw [List.lookup_cons, hne, ← ih]
      rfl
    | nonterminal m =>
      have heq : (Symbol.nonterminal n == .nonterminal m) = (n == m) := by
        rw [Bool.eq_iff_iff, beq_iff_eq, beq_iff_eq, Symbol.nonterminal.injEq]
      rw [List.lookup_cons, heq, ← ih]
      rfl

theorem goto_generate (s n : Nat) : (generate g a).goto s n = a.step s (.nonterminal n) := by
  rw [goto, getElem?_rows, Automaton.step]
  cases a.states[s]? with
  | none => rfl
  | some st => exact lookup_gotos

def entry (g : Grammar) (s : Nat) (st : Automaton.State) (t : Nat) : Cell :=
  resolve g s t (shiftOn st t) (reducesOn st t)

theorem getElem?_cells {t : Nat} :
    (cells g s st)[t]? = if t < g.terminals.size then some (entry g s st t) else none := by
  rw [cells, List.getElem?_map]
  by_cases ht : t < g.terminals.size
  · rw [if_pos ht, List.getElem?_eq_getElem (by simpa using ht), List.getElem_range]
    rfl
  · rw [if_neg ht, List.getElem?_eq_none (by simpa using ht)]
    rfl

theorem action_generate (hst : a.states[s]? = some st) (t : Nat) : (generate g a).action s t =
    if t < g.terminals.size then (entry g s st t).action.getD .error else .error := by
  simp only [action, getElem?_rows, hst, Option.map_some, rowOf, Array.getD_eq_getD_getElem?,
    List.getElem?_toArray, List.getElem?_map, getElem?_cells]
  split <;> rfl

theorem action_of_none (hs : a.states[s]? = none) (t : Nat) :
    (generate g a).action s t = .error := by
  simp only [action, getElem?_rows, hs, Option.map_none]

theorem mem_reducesOn {t p : Nat} : p ∈ reducesOn st t ↔ ∃ l, (p, l) ∈ st.reduces ∧ t ∈ l := by
  simp only [reducesOn, List.mem_filterMap, Option.ite_none_right_eq_some, Option.some.injEq]
  constructor
  · intro h
    obtain ⟨⟨q, l⟩, hq, ht, rfl⟩ := h
    exact ⟨l, hq, ht⟩
  · intro h
    obtain ⟨l, hl, ht⟩ := h
    exact ⟨(p, l), hl, ht, rfl⟩

theorem shiftOn_eq_some {t : Nat} {act : Action} : shiftOn st t = some act ↔
    (∃ u, act = .shift u ∧ st.target? (.terminal t) = some u) ∨
      act = .accept ∧ t = Symbol.endOfInput ∧ st.accepts = true ∧
        st.target? (.terminal t) = none := by
  rw [shiftOn]
  cases st.target? (.terminal t) with
  | some u =>
    simp only [Option.some.injEq, reduceCtorEq, and_false, or_false]
    constructor
    · intro h
      exact ⟨u, h.symm, rfl⟩
    · intro h
      obtain ⟨v, rfl, rfl⟩ := h
      rfl
  | none =>
    simp only [Option.ite_none_right_eq_some, Option.some.injEq, reduceCtorEq, and_false,
      exists_false, false_or, and_true]
    constructor
    · intro h
      exact ⟨h.2.symm, h.1⟩
    · intro h
      exact ⟨h.2, h.1.symm⟩

theorem action_cases {t : Nat} (h : (generate g a).action s t ≠ .error) :
    ∃ st, a.states[s]? = some st ∧ t < g.terminals.size ∧
      (entry g s st t).action = some ((generate g a).action s t) ∧
      ((∃ u, (generate g a).action s t = .shift u ∧ a.step s (.terminal t) = some u) ∨
        (generate g a).action s t = .accept ∧ t = Symbol.endOfInput ∧ st.accepts = true ∨
        ∃ p l, (generate g a).action s t = .reduce p ∧ (p, l) ∈ st.reduces ∧ t ∈ l) := by
  cases hst : a.states[s]? with
  | none => exact absurd (action_of_none hst t) h
  | some st =>
    have hact := action_generate (g := g) hst t
    split at hact
    case isFalse => exact absurd hact h
    case isTrue ht =>
      cases hentry : (entry g s st t).action with
      | none =>
        rw [hentry] at hact
        exact absurd hact h
      | some act =>
        rw [hentry, Option.getD_some] at hact
        rw [hact] at h ⊢
        refine ⟨st, rfl, ht, hentry, ?_⟩
        rcases resolve_action hentry with hshift | ⟨p, hp, rfl⟩ | herror
        · rcases shiftOn_eq_some.mp hshift with ⟨u, rfl, hu⟩ | ⟨rfl, ht, hacc, -⟩
          · refine Or.inl ⟨u, rfl, ?_⟩
            rw [Automaton.step, hst]
            exact hu
          · exact Or.inr (Or.inl ⟨rfl, ht, hacc⟩)
        · obtain ⟨l, hl, ht⟩ := mem_reducesOn.mp hp
          exact Or.inr (Or.inr ⟨p, l, rfl, hl, ht⟩)
        · exact absurd herror h

theorem action_shift {t u : Nat} (h : (generate g a).action s t = .shift u) :
    a.step s (.terminal t) = some u := by
  have hne : (generate g a).action s t ≠ .error := by simp [h]
  obtain ⟨st, -, -, -, hcases⟩ := action_cases hne
  rw [h] at hcases
  simpa using hcases

theorem action_accept {t : Nat} (h : (generate g a).action s t = .accept) :
    t = Symbol.endOfInput ∧ ∃ st, a.states[s]? = some st ∧ st.accepts = true := by
  have hne : (generate g a).action s t ≠ .error := by simp [h]
  obtain ⟨st, hst, -, -, hcases⟩ := action_cases hne
  rw [h] at hcases
  obtain ⟨ht, haccepts⟩ : t = Symbol.endOfInput ∧ st.accepts = true := by simpa using hcases
  exact ⟨ht, st, hst, haccepts⟩

theorem action_reduce {t p : Nat} (h : (generate g a).action s t = .reduce p) :
    ∃ st, a.states[s]? = some st ∧ p ∈ st.reduces.map (·.1) := by
  have hne : (generate g a).action s t ≠ .error := by simp [h]
  obtain ⟨st, hst, -, -, hcases⟩ := action_cases hne
  rw [h] at hcases
  obtain ⟨l, hl, -⟩ : ∃ l, (p, l) ∈ st.reduces ∧ t ∈ l := by simpa using hcases
  exact ⟨st, hst, List.mem_map_of_mem hl⟩

theorem commonReduction_eq_some {actions : List Action} {p : Nat} :
    commonReduction actions = some p ↔ actions ≠ [] ∧ ∀ act ∈ actions, act = .reduce p := by
  cases actions with
  | nil => simp [commonReduction]
  | cons first rest =>
    cases first with
    | reduce q =>
      simp only [commonReduction, Option.ite_none_right_eq_some, List.all_eq_true, beq_iff_eq,
        Option.some.injEq]
      constructor
      · intro h
        obtain ⟨hrest, rfl⟩ := h
        simpa using hrest
      · intro h
        have hfirst := h.2 _ List.mem_cons_self
        cases hfirst
        exact ⟨fun act hact => h.2 act (List.mem_cons_of_mem _ hact), rfl⟩
    | shift u => simp [commonReduction]
    | accept => simp [commonReduction]
    | error => simp [commonReduction]

/-- A default reduction is the action of every cell that has one, and of at least one. -/
theorem defaultReduction_eq_some {p : Nat} :
    (generate g a).defaultReduction s = some p ↔ ∃ st, a.states[s]? = some st ∧
      (∃ t, t < g.terminals.size ∧ (entry g s st t).action ≠ none) ∧
      ∀ t act, t < g.terminals.size → (entry g s st t).action = some act → act = .reduce p := by
  rw [defaultReduction, getElem?_rows]
  cases a.states[s]? with
  | none => simp
  | some st =>
    have hmem : ∀ act, act ∈ ((cells g s st).map (·.action)).filterMap id ↔
        ∃ t, t < g.terminals.size ∧ (entry g s st t).action = some act := by
      intro act
      simp only [cells, entry, List.mem_filterMap, List.map_map, List.mem_map, List.mem_range,
        Function.comp_apply, id]
      constructor
      · intro h
        obtain ⟨_, ⟨t, ht, rfl⟩, hact⟩ := h
        exact ⟨t, ht, hact⟩
      · intro h
        obtain ⟨t, ht, hact⟩ := h
        exact ⟨_, ⟨t, ht, rfl⟩, hact⟩
    change commonReduction _ = some p ↔ _
    rw [commonReduction_eq_some]
    simp only [Option.some.injEq, exists_eq_left', ne_eq, List.eq_nil_iff_forall_not_mem, hmem,
      not_forall, not_not]
    refine and_congr ?_ ?_
    · simp only [Option.ne_none_iff_exists', ← ne_eq]
      constructor
      · intro h
        obtain ⟨act, t, ht, hact⟩ := h
        exact ⟨t, ht, act, hact⟩
      · intro h
        obtain ⟨t, ht, act, hact⟩ := h
        exact ⟨act, t, ht, hact⟩
    · constructor
      · intro h t act ht hact
        exact h act ⟨t, ht, hact⟩
      · intro h act hact
        obtain ⟨t, ht, hact⟩ := hact
        exact h t act ht hact

theorem defaultReduction_reduces {p : Nat} (h : (generate g a).defaultReduction s = some p) :
    ∃ st, a.states[s]? = some st ∧ p ∈ st.reduces.map (·.1) := by
  obtain ⟨st, hst, ⟨t, ht, hne⟩, hall⟩ := defaultReduction_eq_some.mp h
  obtain ⟨act, hact⟩ := Option.ne_none_iff_exists'.mp hne
  obtain rfl := hall t act ht hact
  have haction : (generate g a).action s t = .reduce p := by
    rw [action_generate hst, if_pos ht, hact]
    rfl
  exact action_reduce haction

theorem action_of_defaultReduction {p t : Nat} (h : (generate g a).defaultReduction s = some p)
    (ht : (generate g a).action s t ≠ .error) : (generate g a).action s t = .reduce p := by
  obtain ⟨st, hst, -, hall⟩ := defaultReduction_eq_some.mp h
  obtain ⟨st', hst', hlt, hentry, -⟩ := action_cases ht
  rw [hst] at hst'
  cases hst'
  exact hall t _ hlt hentry

section NoConflicts

variable (h : (generate g a).conflicts = []) (hst : a.states[s]? = some st) {t : Nat}
  (ht : t < g.terminals.size)

include h hst ht

theorem entry_conflicts : (entry g s st t).conflicts = [] := by
  simp only [generate, List.flatMap_eq_nil_iff] at h
  refine h (cells g s st) ?_ _ ?_
  · rw [Array.mem_toList_iff]
    refine Array.mem_of_getElem? (i := s) ?_
    rw [Array.getElem?_mapIdx, hst]
    rfl
  · refine List.mem_of_getElem? (i := t) ?_
    rw [getElem?_cells, if_pos ht]

theorem action_of_shiftOn {act : Action} (hshift : shiftOn st t = some act) :
    (generate g a).action s t = act := by
  rw [action_generate hst, if_pos ht]
  rcases resolve_of_noConflict (entry_conflicts h hst ht) with ⟨-, haction⟩ | ⟨hnone, -⟩
  · rw [entry, haction, hshift]
    rfl
  · rw [hnone] at hshift
    cases hshift

theorem action_of_step {u : Nat} (hstep : a.step s (.terminal t) = some u) :
    (generate g a).action s t = .shift u := by
  refine action_of_shiftOn h hst ht (shiftOn_eq_some.mpr (Or.inl ⟨u, rfl, ?_⟩))
  rw [Automaton.step, hst] at hstep
  exact hstep

theorem action_of_reduces {p : Nat} {l : TerminalSet} (hp : (p, l) ∈ st.reduces) (hl : t ∈ l) :
    (generate g a).action s t = .reduce p := by
  have hmem : p ∈ reducesOn st t := mem_reducesOn.mpr ⟨l, hp, hl⟩
  rw [action_generate hst, if_pos ht]
  rcases resolve_of_noConflict (entry_conflicts h hst ht) with ⟨hnil, -⟩ | ⟨-, haction⟩
  · rw [hnil] at hmem
    exact absurd hmem List.not_mem_nil
  · rw [entry, haction p hmem]
    rfl

end NoConflicts

theorem terminal?_eq_some_iff (wf : g.WellFormed) {name : String} {t : Nat} :
    (generate g a).terminal? name = some t ↔ (g.terminals[t]?).map (·.name) = some name := by
  have hname : ∀ (i : Nat) (h : i < (g.terminals.map (·.name)).size),
      (g.terminals.toList.map (·.name))[i]? = some (g.terminals.map (·.name))[i] := by
    intro i h
    rw [← Array.toList_map, Array.getElem?_toList, Array.getElem?_eq_getElem h]
  change (g.terminals.map (·.name)).findIdx? _ = _ ↔ _
  rw [Array.findIdx?_eq_some_iff_getElem]
  simp only [beq_iff_eq]
  constructor
  · intro h
    obtain ⟨hlt, rfl, -⟩ := h
    rw [← Array.getElem?_map, Array.getElem?_eq_getElem hlt]
  · intro h
    rw [← Array.getElem?_map, Array.getElem?_eq_some_iff] at h
    obtain ⟨hlt, rfl⟩ := h
    refine ⟨hlt, rfl, fun j hj heq => ?_⟩
    have hnodup := wf.names_nodup
    have hi := hname t hlt
    rw [← heq, ← hname j (by omega)] at hi
    have hlen : t < (g.terminals.toList.map (·.name)).length := by simpa using hlt
    have hjt := (List.getElem?_inj hlen hnodup).mp hi
    omega

theorem eq_terminalName (wf : g.WellFormed) {name : String} {t : Nat}
    (h : (generate g a).terminal? name = some t) : name = g.terminalName t := by
  rw [terminal?_eq_some_iff wf, Option.map_eq_some_iff] at h
  obtain ⟨terminal, ht, rfl⟩ := h
  rw [Grammar.terminalName, Array.getD_eq_getD_getElem?, ht, Option.getD_some]

theorem terminal?_terminalName (wf : g.WellFormed) {t : Nat} (ht : t < g.terminals.size) :
    (generate g a).terminal? (g.terminalName t) = some t := by
  rw [terminal?_eq_some_iff wf, Grammar.terminalName, Array.getD_eq_getD_getElem?,
    Array.getElem?_eq_getElem ht]
  rfl

theorem terminal?_eq_endOfInput (wf : g.WellFormed) {name : String} :
    (generate g a).terminal? name = some Symbol.endOfInput ↔ name = Symbol.endName := by
  rw [terminal?_eq_some_iff wf]
  change g.terminals[0]?.map (·.name) = some name ↔ _
  rw [wf.end_name, Option.some.injEq, eq_comm]

theorem terminal?_eq_none (wf : g.WellFormed) {name : String} (h : g.terminal? name = none) :
    (generate g a).terminal? name = none := by
  rw [Option.eq_none_iff_forall_ne_some]
  intro t ht
  rw [terminal?_eq_some_iff wf, Option.map_eq_some_iff] at ht
  obtain ⟨terminal, hterminal, hname⟩ := ht
  have hmem := Array.mem_of_getElem? hterminal
  have hall := Array.findIdx?_eq_none_iff.mp h terminal hmem
  simp [hname] at hall

end Table

def Table.tolerant : Table where
  rows :=
    #[⟨#[none, none, some (.shift 2), some (.shift 3)], [(1, 1)], none⟩,
      ⟨#[some .accept, some (.shift 4), none, none], [], none⟩,
      ⟨#[some (.reduce 2), some (.reduce 2), none, none], [], some 2⟩,
      ⟨#[some (.reduce 3), some (.reduce 3), none, none], [], some 3⟩,
      ⟨#[some (.reduce 1), some (.reduce 1), none, none], [], some 1⟩]
  conflicts := []
  terminals := #["$end", "error", "x", "y"]
  nonterminals := #["$accept", "L"]
  productions := #[⟨0, 2, []⟩, ⟨1, 2, [⟨"L", 1⟩, ⟨"L1", 1⟩, ⟨"error", 2⟩, ⟨"error1", 2⟩]⟩,
    ⟨1, 1, [⟨"x", 1⟩, ⟨"x1", 1⟩]⟩, ⟨1, 1, [⟨"y", 1⟩, ⟨"y1", 1⟩]⟩]

theorem Table.generate_tolerant : generate .tolerant .tolerant = .tolerant := by
  cbv

def Table.lenient : Table where
  rows :=
    #[⟨#[none, some (.shift 3), some (.shift 2), some (.shift 4)], [(1, 1)], none⟩,
      ⟨#[some .accept, none, none, none], [], none⟩,
      ⟨.replicate 4 (some (.reduce 1)), [], some 1⟩,
      ⟨.replicate 4 (some (.reduce 2)), [], some 2⟩,
      ⟨.replicate 4 (some (.reduce 5)), [(2, 5), (3, 6)], some 5⟩,
      ⟨.replicate 4 (some (.reduce 3)), [], some 3⟩,
      ⟨.replicate 4 (some (.reduce 5)), [(2, 7), (3, 6)], some 5⟩,
      ⟨.replicate 4 (some (.reduce 4)), [], some 4⟩]
  conflicts := []
  terminals := #["$end", "error", "y", "z"]
  nonterminals := #["$accept", "S", "C", "A"]
  productions := #[⟨0, 2, []⟩, ⟨1, 1, [⟨"y", 1⟩, ⟨"y1", 1⟩]⟩,
    ⟨1, 1, [⟨"error", 1⟩, ⟨"error1", 1⟩]⟩,
    ⟨1, 2, [⟨"z", 1⟩, ⟨"z1", 1⟩, ⟨"C", 2⟩, ⟨"C1", 2⟩]⟩,
    ⟨2, 2, [⟨"A", 1⟩, ⟨"A1", 1⟩, ⟨"C", 2⟩, ⟨"C1", 2⟩]⟩, ⟨3, 0, []⟩]

theorem Table.generate_lenient : generate .lenient .lenient = .lenient := by
  cbv

end TableParsing
