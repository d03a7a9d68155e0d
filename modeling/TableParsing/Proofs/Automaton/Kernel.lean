import Mathlib.Data.List.Nodup
import TableParsing.Proofs.Automaton.Exploration
import TableParsing.Proofs.Automaton.ViablePrefix
import TableParsing.Proofs.Reachability

/-! What the constructions of item sets have in common: the kernel of a state is the sorted
list of the core items of the prefixes that lead to it, the start items of a closure are those
of the needed nonterminals, and what follows a set of items is grouped by symbol. -/

namespace TableParsing

section Grouping

variable {α : Type} [BEq α] [LawfulBEq α]

theorem nodup_eraseDups (l : List α) : l.eraseDups.Nodup := by
  induction hn : l.length using Nat.strongRecOn generalizing l with
  | ind n ih =>
    cases l with
    | nil => simp
    | cons a l =>
      rw [List.eraseDups_cons, List.nodup_cons]
      have hlen := List.length_filter_le (fun b => !b == a) l
      rw [List.length_cons] at hn
      exact ⟨by simp, ih _ (by omega) _ rfl⟩

theorem lookup_map_mk {β : Type} (f : α → β) {l : List α} {x : α} :
    (l.map fun y => (y, f y)).lookup x = if x ∈ l then some (f x) else none := by
  induction l with
  | nil => rfl
  | cons y l ih =>
    rw [List.map_cons, List.lookup_cons]
    by_cases hx : x = y
    · simp [hx]
    · have hne : (x == y) = false := beq_false_of_ne hx
      rw [hne, ih]
      simp [hx]

end Grouping

namespace Item

theorem le_iff {a b : Item} : a.le b = true ↔
    a.production < b.production ∨ a.production = b.production ∧ a.index ≤ b.index := by
  simp [le]

theorem le_trans (a b c : Item) (h : a.le b = true) (h' : b.le c = true) : a.le c = true := by
  rw [le_iff] at *
  omega

theorem le_total (a b : Item) : (a.le b || b.le a) = true := by
  rw [Bool.or_eq_true, le_iff, le_iff]
  omega

theorem le_antisymm {a b : Item} (h : a.le b = true) (h' : b.le a = true) : a = b := by
  rw [le_iff] at *
  cases a
  cases b
  simp only [Item.mk.injEq]
  simp only at h h'
  omega

end Item

structure IsKernel (g : Grammar) (γ : List Symbol) (k : List Item) : Prop where
  sorted : k.Pairwise fun a b => a.le b = true
  nodup : k.Nodup
  mem_iff : ∀ i, i ∈ k ↔ Core g γ i

theorem IsKernel.eq_iff {g : Grammar} {γ δ : List Symbol} {k l : List Item}
    (hk : IsKernel g γ k) (hl : IsKernel g δ l) : k = l ↔ ∀ i, Core g γ i ↔ Core g δ i := by
  constructor
  · intro h i
    rw [← hk.mem_iff, ← hl.mem_iff, h]
  · intro h
    have hperm : k.Perm l := by
      rw [List.perm_ext_iff_of_nodup hk.nodup hl.nodup]
      intro i
      rw [hk.mem_iff, hl.mem_iff, h]
    exact hperm.eq_of_pairwise (fun a b _ _ => Item.le_antisymm) hk.sorted hl.sorted

theorem IsKernel.start (g : Grammar) : IsKernel g [] [Item.start 0] :=
  ⟨by simp, by simp, fun i => by simp [Core]⟩

/-- The successors of a state, its completed productions and whether it accepts are those of
the items valid after a prefix. -/
structure Describes (g : Grammar) (γ : List Symbol) (transitions : List (Symbol × Nat))
    (completed : List Nat) (accepts : Bool) : Prop where
  moves : ∀ x, (∃ s, transitions.lookup x = some s) ↔
    x ≠ .terminal Symbol.endOfInput ∧ ∃ i, Viable g γ i ∧ i.next g = some x
  completed : ∀ p, p ∈ completed ↔ Viable g γ (.completed g p)
  accepts : accepts = true ↔ ∃ i, Viable g γ i ∧ i.next g = some (.terminal Symbol.endOfInput)

theorem Describes.congr {g : Grammar} {γ δ : List Symbol} {transitions : List (Symbol × Nat)}
    {completed : List Nat} {accepts : Bool} (h : Describes g γ transitions completed accepts)
    (hcore : ∀ i, Core g γ i ↔ Core g δ i) : Describes g δ transitions completed accepts := by
  have hviable : ∀ i, Viable g γ i ↔ Viable g δ i := fun i => viable_congr hcore
  constructor
  · simpa only [hviable] using h.moves
  · simpa only [hviable] using h.completed
  · simpa only [hviable] using h.accepts

section StartItems

variable {g : Grammar} (wf : g.WellFormed)

include wf

theorem Grammar.WellFormed.productionsOf_eq_nil {n : Nat} (hn : g.nonterminals.size ≤ n) :
    g.productionsOf n = [] := by
  rw [List.eq_nil_iff_forall_not_mem]
  intro p hp
  obtain ⟨hlt, rfl⟩ := mem_productionsOf.mp hp
  have hleft := wf.left_lt hlt
  omega

theorem StartItems.of_eq (n : Nat) :
    (StartItems.ofGrammar g).of n = (g.productionsOf n).map Item.start := by
  simp only [of, ofGrammar, Array.getD_eq_getD_getElem?, Array.getElem?_map]
  by_cases hn : n < g.nonterminals.size
  · simp [hn]
  · rw [wf.productionsOf_eq_nil (by omega)]
    simp [hn]

theorem StartItems.mem_leads {n m : Nat} :
    m ∈ (StartItems.ofGrammar g).leads.getD n [] ↔ Begets g n m := by
  have hleads : (StartItems.ofGrammar g).leads.getD n [] =
      ((StartItems.ofGrammar g).of n).filterMap (Item.nextNonterminal g) := by
    simp only [of, ofGrammar, Array.getD_eq_getD_getElem?, Array.getElem?_map]
    by_cases hn : n < g.nonterminals.size
    · simp [hn]
    · simp [hn]
  rw [hleads, StartItems.of_eq wf]
  simp only [List.mem_filterMap, List.mem_map, Item.nextNonterminal, Begets]
  constructor
  · intro h
    obtain ⟨i, ⟨p, hp, rfl⟩, hm⟩ := h
    obtain ⟨x, hx, hm⟩ := Option.bind_eq_some_iff.mp hm
    cases x with
    | terminal t => cases hm
    | nonterminal k =>
      cases hm
      exact ⟨p, hp, hx⟩
  · intro h
    obtain ⟨p, hp, hm⟩ := h
    exact ⟨_, ⟨p, hp, rfl⟩, by rw [hm]; rfl⟩

theorem Begets.lt {n m : Nat} (h : Begets g n m) : m < g.nonterminals.size := by
  obtain ⟨p, -, hm⟩ := h
  exact (wf.nonterminal_proper (Item.next_mem hm)).2

theorem StartItems.expanded_spec {roots : List Nat}
    (hroots : ∀ r ∈ roots, r < g.nonterminals.size) :
    ((StartItems.ofGrammar g).expanded roots).Nodup ∧
      ∀ m, m ∈ (StartItems.ofGrammar g).expanded roots ↔
        ∃ r ∈ roots, Relation.ReflTransGen (Begets g) r m := by
  have hsize : (StartItems.ofGrammar g).items.size = g.nonterminals.size := by
    simp [StartItems.ofGrammar]
  have hnext : ∀ n < (StartItems.ofGrammar g).items.size,
      ∀ m ∈ (StartItems.ofGrammar g).leads.getD n [],
        m < (StartItems.ofGrammar g).items.size := by
    intro n _ m hm
    rw [hsize]
    exact Begets.lt wf ((StartItems.mem_leads wf).mp hm)
  have hroots' : ∀ r ∈ roots, r < (StartItems.ofGrammar g).items.size := by
    rw [hsize]
    exact hroots
  refine ⟨Reachability.reach_nodup hroots' hnext, fun m => ?_⟩
  simp only [expanded, Reachability.mem_reach hroots' hnext, Reachability.Reaches,
    StartItems.mem_leads wf]

end StartItems

end TableParsing
