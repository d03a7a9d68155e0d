import TableParsing.Proofs.Automaton.Canonical

/-! Merging the states of equal cores. States of one core complete the same productions and
lead to states of one core on every symbol, so the merged automaton is the quotient by the core:
a prefix leads to the class of the state it led to before, and a look-ahead set unites those of
the class. -/

namespace TableParsing

namespace Canonical

theorem uniteReduction_keys {reduces : List (Nat × TerminalSet)} {r : Nat × TerminalSet}
    (hr : r.1 ∈ reduces.map (·.1)) : (uniteReduction reduces r).map (·.1) = reduces.map (·.1) := by
  have hany : reduces.any (·.1 == r.1) = true := by
    obtain ⟨x, hx, heq⟩ := List.mem_map.mp hr
    exact List.any_eq_true.mpr ⟨x, hx, beq_iff_eq.mpr heq⟩
  rw [uniteReduction, if_pos hany, List.map_map]
  refine List.map_congr_left fun x _ => ?_
  simp only [Function.comp_apply]
  split <;> rfl

theorem mem_uniteReduction {reduces : List (Nat × TerminalSet)} {r : Nat × TerminalSet}
    (hr : r.1 ∈ reduces.map (·.1)) {p : Nat} {lookaheads : TerminalSet}
    (h : (p, lookaheads) ∈ uniteReduction reduces r) : ∃ before, (p, before) ∈ reduces ∧
      ∀ t, t ∈ lookaheads ↔ t ∈ before ∨ r.1 = p ∧ t ∈ r.2 := by
  have hany : reduces.any (·.1 == r.1) = true := by
    obtain ⟨x, hx, heq⟩ := List.mem_map.mp hr
    exact List.any_eq_true.mpr ⟨x, hx, beq_iff_eq.mpr heq⟩
  rw [uniteReduction, if_pos hany] at h
  obtain ⟨x, hx, heq⟩ := List.mem_map.mp h
  by_cases hp : x.1 = r.1
  · rw [if_pos (beq_iff_eq.mpr hp)] at heq
    cases heq
    refine ⟨x.2, hx, fun t => ?_⟩
    rw [TerminalSet.mem_union]
    simp [hp]
  · rw [if_neg (by simpa using hp)] at heq
    subst heq
    exact ⟨lookaheads, hx, fun t => by simp [Ne.symm hp]⟩

section FoldUnite

variable {others reduces : List (Nat × TerminalSet)}
  (hkeys : ∀ r ∈ others, r.1 ∈ reduces.map (·.1))

include hkeys

theorem foldl_uniteReduction_keys :
    (others.foldl uniteReduction reduces).map (·.1) = reduces.map (·.1) := by
  induction others generalizing reduces with
  | nil => rfl
  | cons r others ih =>
    have hr := uniteReduction_keys (hkeys r List.mem_cons_self)
    rw [List.foldl_cons, ih, hr]
    intro r' hr'
    rw [hr]
    exact hkeys r' (List.mem_cons_of_mem _ hr')

theorem mem_foldl_uniteReduction {p : Nat} {lookaheads : TerminalSet}
    (h : (p, lookaheads) ∈ others.foldl uniteReduction reduces) :
    ∃ before, (p, before) ∈ reduces ∧ ∀ t, t ∈ lookaheads ↔
      t ∈ before ∨ ∃ other, (p, other) ∈ others ∧ t ∈ other := by
  induction others generalizing reduces with
  | nil => exact ⟨lookaheads, h, fun t => by simp⟩
  | cons r others ih =>
    have hr := hkeys r List.mem_cons_self
    have hrest : ∀ r' ∈ others, r'.1 ∈ (uniteReduction reduces r).map (·.1) := by
      intro r' hr'
      rw [uniteReduction_keys hr]
      exact hkeys r' (List.mem_cons_of_mem _ hr')
    obtain ⟨middle, hmiddle, ht⟩ := ih hrest h
    obtain ⟨before, hbefore, ht'⟩ := mem_uniteReduction hr hmiddle
    refine ⟨before, hbefore, fun t => ?_⟩
    rw [ht, ht', or_assoc]
    refine or_congr_right ?_
    constructor
    · intro hmem
      rcases hmem with ⟨rfl, hmem⟩ | ⟨other, ho, hmem⟩
      · exact ⟨r.2, List.mem_cons_self, hmem⟩
      · exact ⟨other, List.mem_cons_of_mem _ ho, hmem⟩
    · intro hmem
      obtain ⟨other, ho, hmem⟩ := hmem
      rcases List.mem_cons.mp ho with rfl | ho
      · exact Or.inl ⟨rfl, hmem⟩
      · exact Or.inr ⟨other, ho, hmem⟩

end FoldUnite

theorem core_unite {a b : Automaton.State} (h : core a = core b) : core (unite a b) = core a := by
  have hlen : a.kernel.length = b.kernel.length := by
    simpa [core] using congrArg List.length h
  simp only [core, unite, uniteKernels, List.map_zipWith]
  refine List.ext_getElem (by simp [hlen]) fun i _ _ => ?_
  simp

theorem mem_uniteKernels {a b : List (Item × Option TerminalSet)}
    (hcore : a.map (·.1) = b.map (·.1)) {i : Item} {o : Option TerminalSet}
    (h : (i, o) ∈ uniteKernels a b) :
    ∃ x y, (i, x) ∈ a ∧ (i, y) ∈ b ∧ o = uniteOptions x y := by
  unfold uniteKernels at h
  obtain ⟨n, hn, heq⟩ := List.mem_iff_getElem.mp h
  rw [List.getElem_zipWith] at heq
  cases heq
  rw [List.length_zipWith] at hn
  have hsame : (a.map (·.1))[n]? = (b.map (·.1))[n]? := by rw [hcore]
  rw [List.getElem?_map, List.getElem?_map, List.getElem?_eq_getElem (by omega),
    List.getElem?_eq_getElem (by omega), Option.map_some, Option.map_some,
    Option.some.injEq] at hsame
  refine ⟨a[n].2, b[n].2, List.getElem_mem _, ?_, rfl⟩
  rw [hsame]
  exact List.getElem_mem _

def Reduces (p t : Nat) (st : Automaton.State) : Prop :=
  ∃ lookaheads, (p, lookaheads) ∈ st.reduces ∧ t ∈ lookaheads

def Offers (states : Array Automaton.State) (numbers : Array Nat) (k m : Nat)
    (P : Automaton.State → Prop) : Prop :=
  ∃ s other, s < k ∧ states[s]? = some other ∧ numbers.getD s 0 = m ∧ P other

theorem offers_succ {states : Array Automaton.State} {numbers : Array Nat} {k m : Nat}
    {P : Automaton.State → Prop} {st : Automaton.State} (hst : states[k]? = some st) :
    Offers states numbers (k + 1) m P ↔
      Offers states numbers k m P ∨ numbers.getD k 0 = m ∧ P st := by
  constructor
  · intro h
    obtain ⟨s, other, hs, hother, hclass, hp⟩ := h
    rcases Nat.lt_succ_iff_lt_or_eq.mp hs with hs | rfl
    · exact Or.inl ⟨s, other, hs, hother, hclass, hp⟩
    · rw [hst] at hother
      cases hother
      exact Or.inr ⟨hclass, hp⟩
  · intro h
    rcases h with ⟨s, other, hs, hother⟩ | ⟨hclass, hp⟩
    · exact ⟨s, other, by omega, hother⟩
    · exact ⟨k, st, by omega, hst, hclass, hp⟩

/-- The states before `k` are merged: each class has a first state, whose transitions it keeps,
and the look-ahead sets of all its states. -/
structure Placed (states : Array Automaton.State) (numbers : Array Nat) (k : Nat)
    (merged : Array Automaton.State) : Prop where
  bound : ∀ s, s < k → numbers.getD s 0 < merged.size
  origin : ∀ (m : Nat) (st : Automaton.State), merged[m]? = some st →
    ∃ f first, f < k ∧ states[f]? = some first ∧ numbers.getD f 0 = m ∧
      core st = core first ∧ st.transitions = (renumber numbers first).transitions ∧
      st.accepts = first.accepts ∧ st.reduces.map (·.1) = first.reduces.map (·.1)
  lookaheads : ∀ (m : Nat) (st : Automaton.State), merged[m]? = some st →
    ∀ p lookaheads, (p, lookaheads) ∈ st.reduces → ∀ t, t ∈ lookaheads ↔
      Offers states numbers k m (Reduces p t)

theorem Placed.start {states : Array Automaton.State} {numbers : Array Nat} :
    Placed states numbers 0 #[] := by
  refine ⟨?_, ?_, ?_⟩
  · intro s hs
    exact absurd hs (Nat.not_lt_zero _)
  · intro m st hm
    cases hm
  · intro m st hm
    cases hm

theorem Placed.notOffers {states merged : Array Automaton.State} {numbers : Array Nat}
    {k : Nat} {P : Automaton.State → Prop} (h : Placed states numbers k merged) :
    ¬ Offers states numbers k merged.size P := by
  intro ho
  obtain ⟨s, other, hs, -, hclass, -⟩ := ho
  have hlt := h.bound s hs
  omega

theorem getElem?_push_cases {merged : Array Automaton.State} {s st : Automaton.State} {m : Nat}
    (h : (merged.push s)[m]? = some st) : merged[m]? = some st ∨ m = merged.size ∧ st = s := by
  rw [Array.getElem?_push] at h
  split at h
  case isTrue heq =>
    cases h
    exact Or.inr ⟨heq, rfl⟩
  case isFalse => exact Or.inl h

structure Numbered (states : Array Automaton.State) (numbers : Array Nat) : Prop where
  core_eq : ∀ (s s' : Nat) (st st' : Automaton.State), states[s]? = some st →
    states[s']? = some st' → (numbers.getD s 0 = numbers.getD s' 0 ↔ core st = core st')
  reduces : ∀ (s s' : Nat) (st st' : Automaton.State), states[s]? = some st →
    states[s']? = some st' → core st = core st' →
      ∀ p, p ∈ st.reduces.map (·.1) → p ∈ st'.reduces.map (·.1)
  nodup : ∀ (s : Nat) (st : Automaton.State), states[s]? = some st →
    (st.reduces.map (·.1)).Nodup

section Place

variable {states merged : Array Automaton.State} {numbers : Array Nat} {k : Nat}
  {st : Automaton.State} (hn : Numbered states numbers) (h : Placed states numbers k merged)
  (hst : states[k]? = some st)

include hn h hst

theorem Placed.push (hnew : numbers.getD k 0 = merged.size) :
    Placed states numbers (k + 1) (merged.push (renumber numbers st)) := by
  refine ⟨?_, ?_, ?_⟩
  · intro s hs
    rw [Array.size_push]
    rcases Nat.lt_succ_iff_lt_or_eq.mp hs with hs | rfl
    · exact Nat.lt_succ_of_lt (h.bound s hs)
    · omega
  · intro m s hm
    rcases getElem?_push_cases hm with hm | ⟨rfl, rfl⟩
    · obtain ⟨f, first, hf, hfirst⟩ := h.origin m s hm
      exact ⟨f, first, by omega, hfirst⟩
    · exact ⟨k, st, by omega, hst, hnew, rfl, rfl, rfl, rfl⟩
  · intro m s hm p lookaheads hp t
    rw [offers_succ hst, hnew]
    rcases getElem?_push_cases hm with hm | ⟨rfl, rfl⟩
    · have hlt := (Array.getElem?_eq_some_iff.mp hm).1
      rw [h.lookaheads m s hm p lookaheads hp t]
      refine (or_iff_left fun hsize => ?_).symm
      omega
    · constructor
      · intro ht
        exact Or.inr ⟨rfl, lookaheads, hp, ht⟩
      · intro ht
        rcases ht with ho | ⟨-, l, hl, ht⟩
        · exact absurd ho h.notOffers
        · have heq := List.inj_on_of_nodup_map (hn.nodup k st hst) hl hp rfl
          cases heq
          exact ht

theorem Placed.modify_cases {m : Nat} {s : Automaton.State}
    (hm : (merged.modify (numbers.getD k 0) (unite · st))[m]? = some s) :
    numbers.getD k 0 ≠ m ∧ merged[m]? = some s ∨
      numbers.getD k 0 = m ∧ ∃ s', merged[m]? = some s' ∧ s = unite s' st ∧
        core s' = core st ∧ ∀ r ∈ st.reduces, r.1 ∈ s'.reduces.map (·.1) := by
  rw [Array.getElem?_modify] at hm
  split at hm
  case isTrue heq =>
    obtain ⟨s', hs', rfl⟩ := Option.map_eq_some_iff.mp hm
    obtain ⟨f, first, -, hfirst, hclass, hcore, -, -, hkeys⟩ := h.origin m s' hs'
    have hsame := (hn.core_eq k f st first hst hfirst).mp (heq.trans hclass.symm)
    refine Or.inr ⟨heq, s', hs', rfl, hcore.trans hsame.symm, fun r hr => ?_⟩
    rw [hkeys]
    exact hn.reduces k f st first hst hfirst hsame _ (List.mem_map_of_mem hr)
  case isFalse heq => exact Or.inl ⟨heq, hm⟩

theorem Placed.modify (hold : numbers.getD k 0 < merged.size) :
    Placed states numbers (k + 1) (merged.modify (numbers.getD k 0) (unite · st)) := by
  refine ⟨?_, ?_, ?_⟩
  · intro s hs
    rw [Array.size_modify]
    rcases Nat.lt_succ_iff_lt_or_eq.mp hs with hs | rfl
    · exact h.bound s hs
    · exact hold
  · intro m s hm
    rcases h.modify_cases hn hst hm with ⟨-, hm⟩ | ⟨-, s', hs', rfl, hcore, hkeys⟩
    · obtain ⟨f, first, hf, hfirst⟩ := h.origin m s hm
      exact ⟨f, first, by omega, hfirst⟩
    · obtain ⟨f, first, hf, hfirst, hclass, hcore', htransitions, haccepts, hkeys'⟩ :=
        h.origin m s' hs'
      refine ⟨f, first, by omega, hfirst, hclass, ?_, htransitions, haccepts, ?_⟩
      · rw [core_unite hcore, hcore']
      · exact (foldl_uniteReduction_keys hkeys).trans hkeys'
  · intro m s hm p lookaheads hp t
    rw [offers_succ hst]
    rcases h.modify_cases hn hst hm with ⟨hne, hm⟩ | ⟨heq, s', hs', rfl, -, hkeys⟩
    · rw [h.lookaheads m s hm p lookaheads hp t]
      exact (or_iff_left fun hm => hne hm.1).symm
    · obtain ⟨before, hbefore, ht⟩ := mem_foldl_uniteReduction hkeys hp
      rw [ht, h.lookaheads m s' hs' p before hbefore t, and_iff_right heq]
      rfl

end Place

def KernelHolds (i : Item) (t : Nat) (st : Automaton.State) : Prop :=
  ∃ lookaheads, (i, some lookaheads) ∈ st.kernel ∧ t ∈ lookaheads

def Annotates (st : Automaton.State) : Prop :=
  (core st).Nodup ∧ ∀ i o, (i, o) ∈ st.kernel → ∃ lookaheads, o = some lookaheads

def Gathers (states : Array Automaton.State) (numbers : Array Nat) (k : Nat)
    (merged : Array Automaton.State) : Prop :=
  ∀ (m : Nat) (st : Automaton.State), merged[m]? = some st → ∀ i o, (i, o) ∈ st.kernel →
    ∃ lookaheads, o = some lookaheads ∧
      ∀ t, t ∈ lookaheads ↔ Offers states numbers k m (KernelHolds i t)

theorem Annotates.kernelHolds {st : Automaton.State} (h : Annotates st) {i : Item}
    {lookaheads : TerminalSet} (hi : (i, some lookaheads) ∈ st.kernel) {t : Nat} :
    KernelHolds i t st ↔ t ∈ lookaheads := by
  constructor
  · rintro ⟨l, hl, ht⟩
    cases List.inj_on_of_nodup_map h.1 hl hi rfl
    exact ht
  · intro ht
    exact ⟨lookaheads, hi, ht⟩

section GatherKernels

variable {states merged : Array Automaton.State} {numbers : Array Nat} {k : Nat}
  {st : Automaton.State} (hst : states[k]? = some st) (hannotated : Annotates st)
  (h : Placed states numbers k merged) (hk : Gathers states numbers k merged)

include hst hannotated h hk

theorem Gathers.push (hnew : numbers.getD k 0 = merged.size) :
    Gathers states numbers (k + 1) (merged.push (renumber numbers st)) := by
  intro m s hm i o hi
  rcases getElem?_push_cases hm with hm | ⟨rfl, rfl⟩
  · obtain ⟨l, rfl, hl⟩ := hk m s hm i o hi
    have hlt := (Array.getElem?_eq_some_iff.mp hm).1
    refine ⟨l, rfl, fun t => ?_⟩
    rw [offers_succ hst, hl]
    exact (or_iff_left fun hsize => by omega).symm
  · obtain ⟨l, rfl⟩ := hannotated.2 i o hi
    refine ⟨l, rfl, fun t => ?_⟩
    rw [offers_succ hst, or_iff_right h.notOffers, and_iff_right hnew]
    exact (hannotated.kernelHolds hi).symm

theorem Gathers.modify (hn : Numbered states numbers) :
    Gathers states numbers (k + 1) (merged.modify (numbers.getD k 0) (unite · st)) := by
  intro m s hm i o hi
  rcases h.modify_cases hn hst hm with ⟨hne, hm⟩ | ⟨heq, s', hs', rfl, hcore, -⟩
  · obtain ⟨l, rfl, hl⟩ := hk m s hm i o hi
    refine ⟨l, rfl, fun t => ?_⟩
    rw [offers_succ hst, hl]
    exact (or_iff_left fun hm => hne hm.1).symm
  · obtain ⟨x, y, hx, hy, rfl⟩ := mem_uniteKernels hcore hi
    obtain ⟨l, rfl, hl⟩ := hk m s' hs' i x hx
    obtain ⟨l', rfl⟩ := hannotated.2 i y hy
    refine ⟨l ∪ l', rfl, fun t => ?_⟩
    rw [TerminalSet.mem_union, offers_succ hst, hl, and_iff_right heq,
      hannotated.kernelHolds hy]

end GatherKernels

def classes (a : Automaton) : Array Nat :=
  let cores := Numbering.ofList (a.states.toList.map core)
  a.states.map fun s => (cores.find? (core s)).getD 0

theorem mergeCores_states (a : Automaton) :
    (mergeCores a).states = a.states.toList.zipIdx.foldl (place (classes a)) #[] := rfl

theorem getD_classes {a : Automaton} {s : Nat} {st : Automaton.State}
    (h : a.states[s]? = some st) :
    (classes a).getD s 0 =
      ((Numbering.ofList (a.states.toList.map core)).find? (core st)).getD 0 := by
  simp [classes, Array.getD_eq_getD_getElem?, h]

theorem find?_core {a : Automaton} {s : Nat} {st : Automaton.State}
    (h : a.states[s]? = some st) :
    (Numbering.ofList (a.states.toList.map core)).find? (core st) =
      some ((classes a).getD s 0) := by
  have hmem : core st ∈ a.states.toList.map core :=
    List.mem_map_of_mem (Array.mem_toList_iff.mpr (Array.mem_of_getElem? h))
  obtain ⟨i, hi⟩ := Numbering.exists_find?_of_mem _ (Numbering.mem_keys_ofList.mpr hmem)
  rw [getD_classes h, hi]
  rfl

theorem classes_next {a : Automaton} {before after : List Automaton.State} {st : Automaton.State}
    (h : a.states.toList = before ++ st :: after) :
    (classes a).getD before.length 0 < (Numbering.ofList (before.map core)).size ∧
        (Numbering.ofList ((before ++ [st]).map core)).size =
          (Numbering.ofList (before.map core)).size ∨
      (classes a).getD before.length 0 = (Numbering.ofList (before.map core)).size ∧
        (Numbering.ofList ((before ++ [st]).map core)).size =
          (Numbering.ofList (before.map core)).size + 1 := by
  have hst : a.states[before.length]? = some st := by
    rw [← Array.getElem?_toList, h]
    simp
  have hfind := find?_core hst
  rw [h, List.map_append, List.map_cons] at hfind
  obtain ⟨i, hi, hcases⟩ :=
    Numbering.find?_ofList_append (before.map core) (after.map core) (core st)
  rw [hi] at hfind
  cases hfind
  simpa using hcases

theorem mergeCores_induction {a : Automaton} {P : Nat → Array Automaton.State → Prop}
    (start : P 0 #[])
    (push : ∀ (k : Nat) (st : Automaton.State) (merged : Array Automaton.State), P k merged →
      a.states[k]? = some st → (classes a).getD k 0 = merged.size →
        P (k + 1) (merged.push (renumber (classes a) st)))
    (modify : ∀ (k : Nat) (st : Automaton.State) (merged : Array Automaton.State), P k merged →
      a.states[k]? = some st → (classes a).getD k 0 < merged.size →
        P (k + 1) (merged.modify ((classes a).getD k 0) (unite · st))) :
    P a.states.size (mergeCores a).states := by
  have placed : ∀ (after before : List Automaton.State) (merged : Array Automaton.State),
      a.states.toList = before ++ after →
      merged.size = (Numbering.ofList (before.map core)).size → P before.length merged →
        P a.states.size ((after.zipIdx before.length).foldl (place (classes a)) merged) := by
    intro after
    induction after with
    | nil =>
      intro before merged hall _ h
      have hlen : before.length = a.states.size := by
        rw [← Array.length_toList, hall, List.append_nil]
      exact hlen ▸ h
    | cons st after ih =>
      intro before merged hall hsize h
      have hst : a.states[before.length]? = some st := by
        rw [← Array.getElem?_toList, hall]
        simp
      rw [List.zipIdx_cons, List.foldl_cons]
      have hlen : before.length + 1 = (before ++ [st]).length := by simp
      rw [hlen]
      rcases classes_next hall with ⟨hlt, hnext⟩ | ⟨heq, hnext⟩
      · have hold : (classes a).getD before.length 0 < merged.size := by omega
        have hplace : place (classes a) merged (st, before.length) =
            merged.modify ((classes a).getD before.length 0) (unite · st) := if_pos hold
        rw [hplace]
        refine ih (before ++ [st]) _ (by simp [hall]) ?_ ?_
        · rw [Array.size_modify]
          omega
        · rw [← hlen]
          exact modify _ st merged h hst hold
      · have hnew : ¬ (classes a).getD before.length 0 < merged.size := by omega
        have hplace : place (classes a) merged (st, before.length) =
            merged.push (renumber (classes a) st) := if_neg hnew
        rw [hplace]
        refine ih (before ++ [st]) _ (by simp [hall]) ?_ ?_
        · rw [Array.size_push]
          omega
        · rw [← hlen]
          exact push _ st merged h hst (by omega)
  rw [mergeCores_states]
  exact placed a.states.toList [] #[] rfl rfl start

theorem mergeCores_placed {a : Automaton} (hn : Numbered a.states (classes a)) :
    Placed a.states (classes a) a.states.size (mergeCores a).states := by
  exact mergeCores_induction .start (fun k st merged h => h.push hn)
    (fun k st merged h => h.modify hn)

theorem mergeCores_gathers {a : Automaton} (hn : Numbered a.states (classes a))
    (hannotated : ∀ st ∈ a.states, Annotates st) :
    Gathers a.states (classes a) a.states.size (mergeCores a).states := by
  have hboth : Placed a.states (classes a) a.states.size (mergeCores a).states ∧
      Gathers a.states (classes a) a.states.size (mergeCores a).states := by
    refine mergeCores_induction (P := fun k merged => Placed a.states (classes a) k merged ∧
      Gathers a.states (classes a) k merged) ⟨.start, ?_⟩ ?_ ?_
    · intro m st hm
      cases hm
    · rintro k st merged ⟨hplaced, hgathers⟩ hst hnew
      have hst' := hannotated st (Array.mem_of_getElem? hst)
      exact ⟨hplaced.push hn hst hnew, hgathers.push hst hst' hplaced hnew⟩
    · rintro k st merged ⟨hplaced, hgathers⟩ hst hold
      have hst' := hannotated st (Array.mem_of_getElem? hst)
      exact ⟨hplaced.modify hn hst hold, hgathers.modify hst hst' hplaced hn⟩
  exact hboth.2

theorem size_mergeCores_le (a : Automaton) : (mergeCores a).states.size ≤ a.states.size := by
  have hplace : ∀ (l : List (Automaton.State × Nat)) (merged : Array Automaton.State),
      (l.foldl (place (classes a)) merged).size ≤ merged.size + l.length := by
    intro l
    induction l with
    | nil => exact fun merged => Nat.le_refl _
    | cons s l ih =>
      intro merged
      have hone : (place (classes a) merged s).size ≤ merged.size + 1 := by
        simp only [place]
        split <;> simp
      have hrest := ih (place (classes a) merged s)
      rw [List.foldl_cons, List.length_cons]
      omega
  have hall := hplace a.states.toList.zipIdx #[]
  simpa [mergeCores_states] using hall

theorem lookup_renumber {numbers : Array Nat} {st : Automaton.State} {x : Symbol} :
    (renumber numbers st).transitions.lookup x =
      (st.transitions.lookup x).map (numbers.getD · 0) := by
  simp only [renumber]
  induction st.transitions with
  | nil => rfl
  | cons e l ih =>
    rw [List.map_cons, List.lookup_cons, List.lookup_cons, ih]
    cases x == e.1 <;> rfl

theorem classes_eq_iff {a : Automaton} {s s' : Nat} {st st' : Automaton.State}
    (hs : a.states[s]? = some st) (hs' : a.states[s']? = some st') :
    (classes a).getD s 0 = (classes a).getD s' 0 ↔ core st = core st' := by
  have hfind := find?_core hs
  have hfind' := find?_core hs'
  constructor
  · intro heq
    rw [heq] at hfind
    have hkey := (Numbering.find?_eq_some_iff _).mp hfind
    rw [(Numbering.find?_eq_some_iff _).mp hfind'] at hkey
    exact (Option.some.inj hkey).symm
  · intro heq
    rw [heq, hfind'] at hfind
    exact (Option.some.inj hfind).symm

section Quotient

variable {g : Grammar} {a : Automaton} (h : a.Faithful g)

include h

theorem classes_zero : (classes a).getD 0 0 = 0 := by
  obtain ⟨st, hst, -⟩ := h.state [] 0 rfl
  cases hlist : a.states.toList with
  | nil =>
    rw [← Array.getElem?_toList, hlist] at hst
    cases hst
  | cons first rest =>
    have hall : a.states.toList = [] ++ first :: rest := hlist
    rcases classes_next hall with ⟨hlt, -⟩ | ⟨heq, -⟩
    · exact absurd hlt (Nat.not_lt_zero _)
    · exact heq

theorem numbered : Numbered a.states (classes a) := by
  refine ⟨fun s s' st st' => classes_eq_iff, ?_, ?_⟩
  · intro s s' st st' hs hs' hcore p
    exact (h.reduces_core h hs hs' hcore p).mp
  · intro s st hs
    exact h.reduces_nodup st (Array.mem_of_getElem? hs)

theorem mergeCores_merged : Placed a.states (classes a) a.states.size (mergeCores a).states :=
  mergeCores_placed (numbered h)

theorem step_mergeCores {s : Nat} (hs : s < a.states.size) (x : Symbol) :
    (mergeCores a).step ((classes a).getD s 0) x = (a.step s x).map ((classes a).getD · 0) := by
  have hst := Array.getElem?_eq_getElem hs
  have placed := mergeCores_merged h
  have hlt := placed.bound s hs
  obtain ⟨f, first, -, hfirst, hclass, -, htransitions, -, -⟩ :=
    placed.origin _ _ (Array.getElem?_eq_getElem hlt)
  have hcore := (classes_eq_iff hfirst hst).mp hclass
  have hstep : (mergeCores a).step ((classes a).getD s 0) x =
      (a.step f x).map ((classes a).getD · 0) := by
    rw [Automaton.step, Array.getElem?_eq_getElem hlt, Option.bind_some, Automaton.State.target?,
      htransitions, lookup_renumber, Automaton.step, hfirst]
    rfl
  rw [hstep]
  rcases h.step_core h hfirst hst hcore x with ⟨hf, hs⟩ | ⟨u, v, stu, stv, hf, hs, hu, hv, hcore⟩
  · rw [hf, hs]
  · rw [hf, hs, Option.map_some, Option.map_some, (classes_eq_iff hu hv).mpr hcore]

theorem stateAfter_mergeCores (γ : List Symbol) :
    stateAfter (mergeCores a).step γ = (stateAfter a.step γ).map ((classes a).getD · 0) := by
  induction γ with
  | nil => exact congrArg some (classes_zero h).symm
  | cons x γ ih =>
    rw [stateAfter, ih, stateAfter]
    cases hs : stateAfter a.step γ with
    | none => rfl
    | some s =>
      obtain ⟨st, hst, -⟩ := h.state γ s hs
      exact step_mergeCores h (Array.getElem?_eq_some_iff.mp hst).1 x

theorem mergeCores_faithful : (mergeCores a).Faithful g := by
  have placed := mergeCores_merged h
  refine ⟨?_, ?_, ?_, ?_⟩
  · intro γ m hm
    rw [stateAfter_mergeCores h, Option.map_eq_some_iff] at hm
    obtain ⟨s, hs, rfl⟩ := hm
    obtain ⟨st, hst, hk, hd⟩ := h.state γ s hs
    have hlt := placed.bound s (Array.getElem?_eq_some_iff.mp hst).1
    obtain ⟨f, first, -, hfirst, hclass, hcore, htransitions, haccepts, hkeys⟩ :=
      placed.origin _ _ (Array.getElem?_eq_getElem hlt)
    have hsame := (classes_eq_iff hfirst hst).mp hclass
    refine ⟨_, Array.getElem?_eq_getElem hlt, by rw [hcore, hsame]; exact hk, ?_⟩
    obtain ⟨δ, -, hδk, hδ⟩ := h.of_state hfirst
    have hcongr := hδ.congr ((hδk.eq_iff hk).mp hsame)
    rw [hkeys, haccepts]
    refine ⟨fun x => ?_, hcongr.completed, hcongr.accepts⟩
    rw [htransitions, lookup_renumber, ← hcongr.moves]
    simp
  · intro m hm
    obtain ⟨f, first, hf, -, hclass, -⟩ := placed.origin m _ (Array.getElem?_eq_getElem hm)
    obtain ⟨γ, hγ⟩ := h.reached f hf
    exact ⟨γ, by rw [stateAfter_mergeCores h, hγ, Option.map_some, hclass]⟩
  · intro st hst
    obtain ⟨m, hm⟩ := Array.mem_iff_getElem?.mp hst
    obtain ⟨f, first, -, hfirst, -, -, htransitions, -⟩ := placed.origin m st hm
    have hnodup := h.symbols_nodup first (Array.mem_of_getElem? hfirst)
    simpa [htransitions, renumber, Function.comp_def] using hnodup
  · intro st hst
    obtain ⟨m, hm⟩ := Array.mem_iff_getElem?.mp hst
    obtain ⟨f, first, -, hfirst, -, -, -, -, hkeys⟩ := placed.origin m st hm
    rw [hkeys]
    exact h.reduces_nodup first (Array.mem_of_getElem? hfirst)

theorem mergeCores_distinct : (mergeCores a).Distinct := by
  have placed := mergeCores_merged h
  intro m m' st st' hm hm' heq
  obtain ⟨f, first, -, hfirst, rfl, hcore, -⟩ := placed.origin m st hm
  obtain ⟨f', first', -, hfirst', rfl, hcore', -⟩ := placed.origin m' st' hm'
  rw [classes_eq_iff hfirst hfirst', ← hcore, ← hcore', heq]

theorem mergeCores_exact (hexact : a.Exact g) : (mergeCores a).Exact g := by
  have placed := mergeCores_merged h
  intro m st p lookaheads t hm hp
  rw [placed.lookaheads m st hm p lookaheads hp t]
  simp only [stateAfter_mergeCores h, Option.map_eq_some_iff]
  constructor
  · intro ho
    obtain ⟨s, other, -, hother, hclass, l, hl, ht⟩ := ho
    obtain ⟨γ, hγ, hahead⟩ := (hexact s other p l t hother hl).mp ht
    exact ⟨γ, ⟨s, hγ, hclass⟩, hahead⟩
  · intro ho
    obtain ⟨γ, ⟨s, hγ, hclass⟩, hahead⟩ := ho
    obtain ⟨other, hother, -, hd⟩ := h.state γ s hγ
    obtain ⟨⟨q, l⟩, hl, rfl⟩ := List.mem_map.mp ((hd.completed p).mpr hahead.viable)
    exact ⟨s, other, (Array.getElem?_eq_some_iff.mp hother).1, hother, hclass, l, hl,
      (hexact s other _ l t hother hl).mpr ⟨γ, hγ, hahead⟩⟩

theorem mergeCores_annotated (hannotated : a.Annotated g) : (mergeCores a).Annotated g := by
  have annotates : ∀ st ∈ a.states, Annotates st := by
    intro st hst
    obtain ⟨s, hs⟩ := Array.mem_iff_getElem?.mp hst
    obtain ⟨γ, -, hk, -⟩ := h.of_state hs
    refine ⟨hk.nodup, fun i o hi => ?_⟩
    obtain ⟨l, hl, -⟩ := hannotated s st i o hs hi
    exact ⟨l, hl⟩
  intro m st i o hm hi
  obtain ⟨l, rfl, hl⟩ := mergeCores_gathers (numbered h) annotates m st hm i o hi
  refine ⟨l, rfl, fun t => ?_⟩
  rw [hl]
  simp only [stateAfter_mergeCores h, Option.map_eq_some_iff]
  constructor
  · rintro ⟨s, other, -, hother, hclass, l', hl', ht⟩
    obtain ⟨_, heq, hmem⟩ := hannotated s other i _ hother hl'
    cases heq
    obtain ⟨γ, hγ, hahead⟩ := (hmem t).mp ht
    exact ⟨γ, ⟨s, hγ, hclass⟩, hahead⟩
  · rintro ⟨γ, ⟨s, hγ, hclass⟩, hahead⟩
    obtain ⟨other, hother, hk, -⟩ := h.state γ s hγ
    have hγm : stateAfter (mergeCores a).step γ = some m := by
      rw [stateAfter_mergeCores h, hγ, Option.map_some, hclass]
    obtain ⟨hkm, -⟩ := (mergeCores_faithful h).at_state hγm hm
    have hcore := (hkm.mem_iff i).mp (List.mem_map_of_mem hi)
    obtain ⟨⟨j, o⟩, ho, rfl⟩ := List.mem_map.mp ((hk.mem_iff i).mpr hcore)
    obtain ⟨l', rfl, hl'⟩ := hannotated s other _ o hother ho
    exact ⟨s, other, (Array.getElem?_eq_some_iff.mp hother).1, hother, hclass, l', ho,
      (hl' t).mpr ⟨γ, hγ, hahead⟩⟩

end Quotient

end Canonical

end TableParsing
