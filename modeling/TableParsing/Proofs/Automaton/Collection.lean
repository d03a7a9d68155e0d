import Mathlib.Data.Set.Card
import TableParsing.Proofs.Automaton.Method

/-! The textbook collection of LR(0) item sets, and the numbered one. Item sets are closed under
the start items of the nonterminals after their dots, and the collection is what goto reaches
from the closure of the accepting item. Its members are the sets of items that are valid after
a prefix, so the numbered collection lists exactly their kernels, and it exists unless there
are too many of them. -/

namespace TableParsing

namespace ItemSet

inductive Closure (g : Grammar) (I : Set Item) : Item → Prop
  | base {i : Item} : i ∈ I → Closure g I i
  | expand {i : Item} {n p : Nat} : Closure g I i → i.next g = some (.nonterminal n) →
      p ∈ g.productionsOf n → Closure g I (.start p)

def closure (g : Grammar) (I : Set Item) : Set Item := {i | Closure g I i}

def advanced (g : Grammar) (I : Set Item) (x : Symbol) : Set Item :=
  {j | ∃ i ∈ I, i.next g = some x ∧ j = i.advance}

def goto (g : Grammar) (I : Set Item) (x : Symbol) : Set Item := closure g (advanced g I x)

/-- The item sets that goto reaches without advancing over the end of input. -/
inductive Canonical (g : Grammar) : Set Item → Prop
  | start : Canonical g (closure g {.start 0})
  | goto {I : Set Item} {i : Item} {x : Symbol} : Canonical g I → i ∈ I → i.next g = some x →
      x ≠ .terminal Symbol.endOfInput → Canonical g (goto g I x)

def collection (g : Grammar) : Set (Set Item) := {I | Canonical g I}

def kernel (I : Set Item) : Set Item := {i | i ∈ I ∧ (i.index ≠ 0 ∨ i = .start 0)}

section Prefixes

variable {g : Grammar} {γ : List Symbol} {i : Item} {x : Symbol}

theorem closure_core : closure g {i | Core g γ i} = {i | Viable g γ i} := by
  ext i
  constructor
  · intro h
    induction h with
    | base hi => exact Core.viable hi
    | expand _ hn hp ih => exact .expand ih hn hp
  · intro h
    change Closure g _ i
    induction h with
    | start => exact .base rfl
    | advance hi hx hend _ => exact .base ⟨_, hi, hx, hend, rfl⟩
    | expand _ hn hp ih => exact .expand ih hn hp

theorem core_cons (hend : x ≠ .terminal Symbol.endOfInput) :
    {i | Core g (x :: γ) i} = advanced g {i | Viable g γ i} x := by
  ext j
  constructor
  · rintro ⟨i, hi, hx, -, rfl⟩
    exact ⟨i, hi, hx, rfl⟩
  · rintro ⟨i, hi, hx, rfl⟩
    exact ⟨i, hi, hx, hend, rfl⟩

theorem exists_core (h : Viable g γ i) : ∃ j, Core g γ j := by
  rcases viable_iff.mp h with hcore | ⟨n, p, hneeded, -, -⟩
  · exact ⟨i, hcore⟩
  · obtain ⟨j, -, hj, -, -⟩ := needed_iff.mp hneeded
    exact ⟨j, hj⟩

theorem mem_collection_iff {I : Set Item} :
    I ∈ collection g ↔ ∃ γ, (∃ i, Viable g γ i) ∧ I = {i | Viable g γ i} := by
  have hstart : closure g {.start 0} = {i | Viable g [] i} :=
    (closure_core : closure g {i | Core g [] i} = _)
  have hgoto {γ : List Symbol} {x : Symbol} (hend : x ≠ .terminal Symbol.endOfInput) :
      goto g {i | Viable g γ i} x = {i | Viable g (x :: γ) i} := by
    rw [goto, ← core_cons hend, closure_core]
  constructor
  · intro h
    induction h with
    | start => exact ⟨[], ⟨_, .start⟩, hstart⟩
    | @goto I i x _ hi hx hend ih =>
      obtain ⟨γ, -, rfl⟩ := ih
      exact ⟨x :: γ, ⟨_, .advance hi hx hend⟩, hgoto hend⟩
  · rintro ⟨γ, ⟨i, hi⟩, rfl⟩
    change Canonical g _
    induction γ generalizing i with
    | nil => exact hstart ▸ .start
    | cons x γ ih =>
      obtain ⟨_, j, hj, hx, hend, -⟩ := exists_core hi
      exact hgoto hend ▸ .goto (ih j hj) hj hx hend

theorem kernel_viable (wf : g.WellFormed) :
    kernel {i | Viable g γ i} = {i | Core g γ i} := by
  ext i
  constructor
  · rintro ⟨hi, hdot⟩
    rcases viable_iff.mp hi with hcore | ⟨n, p, hn, hp, rfl⟩
    · exact hcore
    · rcases hdot with hdot | hdot
      · exact absurd rfl hdot
      · exact absurd (congrArg Item.production hdot) (wf.ne_zero_of_needed hn hp)
  · intro hcore
    refine ⟨hcore.viable, ?_⟩
    cases γ with
    | nil => exact Or.inr hcore
    | cons x γ =>
      obtain ⟨j, -, -, -, rfl⟩ := hcore
      exact Or.inl (Nat.succ_ne_zero _)

theorem closure_kernel {k : List Item} (hk : IsKernel g γ k) :
    closure g {i | i ∈ k} = {i | Viable g γ i} := by
  have hcore : {i | i ∈ k} = {i | Core g γ i} := Set.ext hk.mem_iff
  rw [hcore, closure_core]

theorem encard_image_closure (wf : g.WellFormed) {ks : List (List Item)} (nodup : ks.Nodup)
    (hks : ∀ k ∈ ks, ∃ γ, IsKernel g γ k) :
    ((fun k : List Item => closure g {i | i ∈ k}) '' {k | k ∈ ks}).encard = ks.length := by
  have hinj : Set.InjOn (fun k : List Item => closure g {i | i ∈ k}) {k | k ∈ ks} := by
    intro k hk l hl heq
    obtain ⟨γ, hγ⟩ := hks k hk
    obtain ⟨δ, hδ⟩ := hks l hl
    simp only [closure_kernel hγ, closure_kernel hδ] at heq
    have hcore : {i | Core g γ i} = {i | Core g δ i} := by
      rw [← kernel_viable wf, ← kernel_viable wf, heq]
    exact (hγ.eq_iff hδ).mpr fun i => Set.ext_iff.mp hcore i
  have hfinset : {k | k ∈ ks} = (ks.toFinset : Set (List Item)) := by
    ext k
    simp
  rw [hinj.encard_image, hfinset, Set.encard_coe_eq_coe_finsetCard,
    List.toFinset_card_of_nodup nodup]

end Prefixes

end ItemSet

namespace LR0

open ItemSet

def State.items (g : Grammar) (st : State) : Set Item := ItemSet.closure g {i | i ∈ st.kernel}

structure State.Canonical (g : Grammar) (d : Collection) (st : State) : Prop where
  sorted : st.kernel.Pairwise fun a b => a.le b = true
  nodup : st.kernel.Nodup
  shifts : ∀ t next, (t, next) ∈ st.shifts ↔ st.target? (.terminal t) = some next
  gotos : ∀ n next, (n, next) ∈ st.gotos ↔ st.target? (.nonterminal n) = some next
  moves : ∀ x, (∃ next, st.target? x = some next) ↔
    x ≠ .terminal Symbol.endOfInput ∧ ∃ i ∈ st.items g, i.next g = some x
  target : ∀ x next, st.target? x = some next →
    ∃ st', d[next]? = some st' ∧ {i | i ∈ st'.kernel} = advanced g (st.items g) x
  reduces_nodup : st.reduces.Nodup
  reduces : ∀ p, p ∈ st.reduces ↔ ∃ i ∈ st.items g, i.next g = none ∧ i.production = p
  reduces_ne_zero : ∀ p ∈ st.reduces, p ≠ 0
  accepts : st.accepts = true ↔ ⟨0, 1⟩ ∈ st.kernel

/-- The states are those of the canonical collection, each once, and every state knows where
it is reached from. -/
structure IsCanonical (g : Grammar) (d : Collection) : Prop where
  initial : (d[0]?).map State.kernel = some [.start 0]
  state : ∀ st ∈ d, st.Canonical g d
  distinct : ∀ (s s' : Nat) (st st' : State), d[s]? = some st → d[s']? = some st' →
    st.kernel = st'.kernel → s = s'
  kernels : {K | ∃ st ∈ d, K = {i | i ∈ st.kernel}} = kernel '' collection g
  incoming : ∀ s q x, (q, x) ∈ predecessors d s ↔
    ∃ st, d[q]? = some st ∧ st.target? x = some s
  incoming_nodup : ∀ s, ((predecessors d s).map Prod.fst).Nodup
  one_symbol : ∀ s q x q' x', (q, x) ∈ predecessors d s → (q', x') ∈ predecessors d s → x = x'

section States

variable {g : Grammar} {d : Collection} {γ : List Symbol} {s next : Nat} {st : State} {x : Symbol}

theorem stateAfter_target (hγ : stateAfter (step d) γ = some s) (hst : d[s]? = some st)
    (hx : st.target? x = some next) : stateAfter (step d) (x :: γ) = some next := by
  rw [stateAfter, hγ, Option.bind_some, step, hst]
  exact hx

theorem mem_shifts_iff (hnodup : (st.transitions.map (·.1)).Nodup) {t : Nat} :
    (t, next) ∈ st.shifts ↔ st.target? (.terminal t) = some next := by
  rw [State.target?, lookup_iff_mem hnodup]
  simp only [State.shifts, List.mem_filterMap, Option.map_eq_some_iff]
  constructor
  · rintro ⟨⟨y, r⟩, hy, t', ht', heq⟩
    cases heq
    cases y with
    | terminal u =>
      cases ht'
      exact hy
    | nonterminal n => cases ht'
  · intro hmem
    exact ⟨_, hmem, t, rfl, rfl⟩

variable (h : Represents g d)

include h

theorem Represents.of_state (hst : d[s]? = some st) :
    ∃ γ, stateAfter (step d) γ = some s ∧ IsKernel g γ st.kernel ∧
      Describes g γ st.transitions st.reduces st.accepts := by
  obtain ⟨γ, hγ⟩ := h.reached s (Array.getElem?_eq_some_iff.mp hst).1
  obtain ⟨_, hst', hk, hd⟩ := h.state γ s hγ
  cases hst.symm.trans hst'
  exact ⟨γ, hγ, hk, hd⟩

theorem Represents.exists_core (hγ : stateAfter (step d) γ = some s) : ∃ i, Core g γ i := by
  cases γ with
  | nil => exact ⟨_, rfl⟩
  | cons x γ =>
    obtain ⟨s', hs', hx⟩ := Option.bind_eq_some_iff.mp hγ
    obtain ⟨hend, i, hi, hnext⟩ := h.viable_of_step hs' hx
    exact ⟨i.advance, i, hi, hnext, hend, rfl⟩

theorem Represents.one_symbol {q q' : Nat} {st' : State} {x' : Symbol} (hst : d[q]? = some st)
    (hst' : d[q']? = some st') (hx : st.target? x = some s) (hx' : st'.target? x' = some s) :
    x = x' := by
  obtain ⟨γ, hγ, -, -⟩ := h.of_state hst
  obtain ⟨δ, hδ, -, -⟩ := h.of_state hst'
  have hafter := stateAfter_target hγ hst hx
  obtain ⟨target, htarget, hk, -⟩ := h.state _ _ hafter
  obtain ⟨target', htarget', hk', -⟩ := h.state _ _ (stateAfter_target hδ hst' hx')
  cases htarget.symm.trans htarget'
  obtain ⟨j, hj⟩ := h.exists_core hafter
  have hj' : Core g (x' :: δ) j := (hk'.mem_iff j).mp ((hk.mem_iff j).mpr hj)
  obtain ⟨i, -, hi, -, hadvance⟩ := hj
  obtain ⟨i', -, hi', -, hadvance'⟩ := hj'
  have heq : i = i' := by
    rw [hadvance] at hadvance'
    cases i
    cases i'
    simpa [Item.advance] using hadvance'
  rw [heq, hi'] at hi
  exact (Option.some.inj hi).symm

theorem Represents.mem_predecessors {q : Nat} : (q, x) ∈ predecessors d s ↔
    ∃ st, d[q]? = some st ∧ st.target? x = some s := by
  simp only [predecessors, List.mem_filterMap, Option.map_eq_some_iff]
  constructor
  · rintro ⟨⟨st, q'⟩, hst, ⟨x', r⟩, hfind, heq⟩
    cases heq
    rw [List.mem_zipIdx_iff_getElem?, Array.getElem?_toList] at hst
    have hr : r = s := by simpa using List.find?_some hfind
    have hnodup := h.symbols_nodup st (Array.mem_of_getElem? hst)
    exact ⟨st, hst, (lookup_iff_mem hnodup).mpr (hr ▸ List.mem_of_find?_eq_some hfind)⟩
  · rintro ⟨st, hst, hx⟩
    have hnodup := h.symbols_nodup st (Array.mem_of_getElem? hst)
    have hmem := (lookup_iff_mem hnodup).mp hx
    refine ⟨(st, q), ?_, ?_⟩
    · rw [List.mem_zipIdx_iff_getElem?, Array.getElem?_toList]
      exact hst
    · cases hfind : st.transitions.find? (·.2 == s) with
      | none =>
        have hnone := List.find?_eq_none.mp hfind _ hmem
        simp at hnone
      | some e =>
        obtain ⟨x', r⟩ := e
        have hr : r = s := by simpa using List.find?_some hfind
        have hx' : st.target? x' = some s :=
          (lookup_iff_mem hnodup).mpr (hr ▸ List.mem_of_find?_eq_some hfind)
        cases h.one_symbol hst hst hx hx'
        exact ⟨_, rfl, rfl⟩

omit h in
theorem predecessors_nodup (d : Collection) (s : Nat) :
    ((predecessors d s).map Prod.fst).Nodup := by
  have hidx : (d.toList.zipIdx.map (·.2)).Nodup := by
    rw [List.zipIdx_map_snd]
    exact List.nodup_range'
  rw [List.Nodup, List.pairwise_map] at hidx
  rw [List.Nodup, predecessors, List.pairwise_map, List.pairwise_filterMap]
  refine hidx.imp fun {e e'} hne a ha b hb heq => hne ?_
  obtain ⟨_, -, rfl⟩ := Option.map_eq_some_iff.mp ha
  obtain ⟨_, -, rfl⟩ := Option.map_eq_some_iff.mp hb
  exact heq

variable (wf : g.WellFormed)

include wf

theorem Represents.state_canonical (hst : st ∈ d) : st.Canonical g d := by
  obtain ⟨s, hs⟩ := Array.mem_iff_getElem?.mp hst
  obtain ⟨γ, hγ, hk, hd⟩ := h.of_state hs
  have hitems : st.items g = {i | Viable g γ i} := closure_kernel hk
  have hnodup := h.symbols_nodup st hst
  refine ⟨hk.sorted, hk.nodup, fun t next => mem_shifts_iff hnodup,
    fun n next => Lookahead.mem_gotos_iff hnodup, fun x => ?_, fun x next hx => ?_,
    h.reduces_nodup st hst, fun p => ?_, fun p hp => ?_, ?_⟩
  · rw [hitems]
    exact hd.moves x
  · obtain ⟨st', hst', hk', -⟩ := h.state _ _ (stateAfter_target hγ hs hx)
    have hend := ((hd.moves x).mp ⟨next, hx⟩).1
    refine ⟨st', hst', ?_⟩
    rw [hitems, ← core_cons hend]
    exact Set.ext hk'.mem_iff
  · rw [hitems, hd.completed]
    constructor
    · intro hp
      exact ⟨_, hp, Item.next_completed, rfl⟩
    · rintro ⟨i, hi, hnext, rfl⟩
      exact hi.eq_completed hnext ▸ hi
  · exact (wf.completed ((hd.completed p).mp hp)).1
  · rw [hd.accepts, hk.mem_iff]
    constructor
    · rintro ⟨i, hi, hnext⟩
      rw [wf.accepting_prefix hi hnext]
      rcases viable_iff.mp wf.viable_accept with hcore | ⟨n, p, -, -, hstart⟩
      · exact hcore
      · cases hstart
    · intro hcore
      refine ⟨⟨0, 1⟩, hcore.viable, ?_⟩
      rw [Item.next, wf.right_zero]
      rfl

theorem Represents.isCanonical : IsCanonical g d := by
  refine ⟨?_, fun st hst => h.state_canonical wf hst, h.injective, ?_,
    fun s q x => h.mem_predecessors, predecessors_nodup d, ?_⟩
  · obtain ⟨st, hst, hk, -⟩ := h.state [] 0 rfl
    rw [hst, Option.map_some, (hk.eq_iff (.start g)).mpr fun _ => .rfl]
  · ext K
    constructor
    · rintro ⟨st, hst, rfl⟩
      obtain ⟨s, hs⟩ := Array.mem_iff_getElem?.mp hst
      obtain ⟨γ, hγ, hk, -⟩ := h.of_state hs
      obtain ⟨i, hi⟩ := h.exists_core hγ
      refine ⟨_, mem_collection_iff.mpr ⟨γ, ⟨i, hi.viable⟩, rfl⟩, ?_⟩
      rw [kernel_viable wf]
      exact (Set.ext hk.mem_iff).symm
    · rintro ⟨I, hI, rfl⟩
      obtain ⟨γ, ⟨i, hi⟩, rfl⟩ := mem_collection_iff.mp hI
      obtain ⟨s, hs⟩ := h.exists_stateAfter hi
      obtain ⟨st, hst, hk, -⟩ := h.state γ s hs
      refine ⟨st, Array.mem_of_getElem? hst, ?_⟩
      rw [kernel_viable wf]
      exact (Set.ext hk.mem_iff).symm
  · intro s q x q' x' hx hx'
    obtain ⟨st, hst, hx⟩ := h.mem_predecessors.mp hx
    obtain ⟨st', hst', hx'⟩ := h.mem_predecessors.mp hx'
    exact h.one_symbol hst hst' hx hx'

theorem Represents.encard_collection : (collection g).encard = d.size := by
  have hnodup : (d.toList.map State.kernel).Nodup := by
    rw [List.nodup_iff_injective_getElem]
    intro i j hij
    have hi : i.val < d.size := by simpa using i.isLt
    have hj : j.val < d.size := by simpa using j.isLt
    exact Fin.ext (h.injective i j d[i.val] d[j.val] (Array.getElem?_eq_getElem hi)
      (Array.getElem?_eq_getElem hj) (by simpa using hij))
  have hkernel : ∀ k ∈ d.toList.map State.kernel, ∃ γ, IsKernel g γ k := by
    intro k hk
    obtain ⟨st, hst, rfl⟩ := List.mem_map.mp hk
    obtain ⟨s, hs⟩ := Array.mem_iff_getElem?.mp (Array.mem_toList_iff.mp hst)
    obtain ⟨γ, -, hk, -⟩ := h.of_state hs
    exact ⟨γ, hk⟩
  have hcollection : collection g =
      (fun k : List Item => ItemSet.closure g {i | i ∈ k}) ''
        {k | k ∈ d.toList.map State.kernel} := by
    ext I
    rw [mem_collection_iff]
    constructor
    · rintro ⟨γ, ⟨i, hi⟩, rfl⟩
      obtain ⟨s, hs⟩ := h.exists_stateAfter hi
      obtain ⟨st, hst, hk, -⟩ := h.state γ s hs
      have hmem := Array.mem_toList_iff.mpr (Array.mem_of_getElem? hst)
      exact ⟨st.kernel, List.mem_map_of_mem hmem, closure_kernel hk⟩
    · rintro ⟨k, hk, rfl⟩
      obtain ⟨st, hst, rfl⟩ := List.mem_map.mp hk
      obtain ⟨s, hs⟩ := Array.mem_iff_getElem?.mp (Array.mem_toList_iff.mp hst)
      obtain ⟨γ, hγ, hk, -⟩ := h.of_state hs
      obtain ⟨i, hi⟩ := h.exists_core hγ
      exact ⟨γ, ⟨i, hi.viable⟩, closure_kernel hk⟩
  rw [hcollection, encard_image_closure wf hnodup hkernel, List.length_map, Array.length_toList]

end States

section Building

variable {g : Grammar} (wf : g.WellFormed)

include wf

theorem kernelAfter_exists_viable {γ : List Symbol} {k : List Item}
    (h : kernelAfter g γ = some k) : ∃ i, Viable g γ i := by
  cases γ with
  | nil => exact ⟨_, .start⟩
  | cons x γ =>
    obtain ⟨l, hl, hk⟩ := Option.bind_eq_some_iff.mp h
    have hmem := (kernelAfter_isKernel wf hl).mem_iff
    obtain ⟨hend, i, hi, hnext⟩ :=
      (lookup_successors_isSome fun i => mem_closure wf hmem).mp ⟨k, hk⟩
    exact ⟨i.advance, .advance hi hnext hend⟩

theorem lt_encard_of_build {e : TooManyStates} (h : build g = .error e) :
    (maxStates : ℕ∞) < (collection g).encard := by
  simp only [build] at h
  split at h
  case h_1 => cases h
  case h_2 hexplore =>
    obtain ⟨ks, nodup, hlt, hled⟩ :=
      Exploration.explore_error (fun _ => successors_nodup) hexplore
    have hkernel : ∀ k ∈ ks, ∃ γ, IsKernel g γ k := fun k hk => by
      obtain ⟨γ, hγ⟩ := hled k hk
      exact ⟨γ, kernelAfter_isKernel wf hγ⟩
    have hsubset : (fun k : List Item => ItemSet.closure g {i | i ∈ k}) '' {k | k ∈ ks} ⊆
        collection g := by
      rintro _ ⟨k, hk, rfl⟩
      obtain ⟨γ, hγ⟩ := hled k hk
      exact mem_collection_iff.mpr
        ⟨γ, kernelAfter_exists_viable wf hγ, closure_kernel (kernelAfter_isKernel wf hγ)⟩
    calc (maxStates : ℕ∞) < ks.length := by exact_mod_cast hlt
      _ = _ := (encard_image_closure wf nodup hkernel).symm
      _ ≤ (collection g).encard := Set.encard_le_encard hsubset

omit wf in
/-- The numbered collection is the canonical one, and it exists unless that has more item sets
than there are state numbers. The position of a dot fits a word. -/
theorem build_canonical (hg : g.Defined) :
    (build g = .error ⟨⟩ ↔ (maxStates : ℕ∞) < (collection g).encard) ∧
      ((collection g).encard ≤ maxStates → ∃ d, build g = .ok d ∧
        (d.size : ℕ∞) = (collection g).encard ∧ IsCanonical g d) ∧
      ∀ I ∈ collection g, ∀ i ∈ I, i.index < 2 ^ 16 := by
  have wf := hg.wellFormed
  refine ⟨⟨lt_encard_of_build wf, fun hlt => ?_⟩, fun hle => ?_, fun I hI i hi => ?_⟩
  · cases hbuild : build g with
    | error e => rfl
    | ok d =>
      rw [(build_represents wf hbuild).encard_collection wf, Nat.cast_lt] at hlt
      have hsize := build_size_le hbuild
      omega
  · cases hbuild : build g with
    | error e => exact absurd (lt_encard_of_build wf hbuild) (not_lt.mpr hle)
    | ok d =>
      have hrep := build_represents wf hbuild
      exact ⟨d, rfl, (hrep.encard_collection wf).symm, hrep.isCanonical wf⟩
  · obtain ⟨γ, -, rfl⟩ := mem_collection_iff.mp hI
    have hindex := Viable.index_le hi
    have hlength := hg.bounded.length i.production
    rw [Item.right, Array.length_toList] at hindex
    simp only [maxIndex] at hlength
    omega

end Building

theorem build_canonical_parentheses :
    Grammar.parentheses.Defined ∧ build .parentheses = .ok parentheses ∧
      (collection .parentheses).encard = 5 ∧ IsCanonical .parentheses parentheses := by
  obtain ⟨hfail, hbuilt, -⟩ := build_canonical Grammar.parentheses_defined
  have hle : (collection .parentheses).encard ≤ maxStates := by
    refine not_lt.mp fun hlt => ?_
    rw [← hfail, build_parentheses] at hlt
    cases hlt
  obtain ⟨d, hd, hsize, hcanonical⟩ := hbuilt hle
  cases hd.symm.trans build_parentheses
  exact ⟨Grammar.parentheses_defined, build_parentheses, hsize.symm, hcanonical⟩

end LR0

end TableParsing
