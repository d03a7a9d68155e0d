import Mathlib.Data.Finset.Card
import Mathlib.Logic.Relation
import TableParsing.Reachability

/-! The listing of reachable nodes is exact. Every node is listed once, so in a graph of
`count` nodes at most `count` visits are made, and the bound on the visits cuts nothing off. -/

namespace TableParsing.Reachability

theorem mem_addNew {seen : Array Nat} {n m : Nat} : m ∈ addNew seen n ↔ m ∈ seen ∨ m = n := by
  rw [addNew]
  split
  case isTrue h =>
    have hn : n ∈ seen := by simpa using h
    constructor
    · exact Or.inl
    · rintro (h | rfl)
      · exact h
      · exact hn
  case isFalse h => simp

theorem addNew_extends (seen : Array Nat) (n : Nat) : seen.toList <+: (addNew seen n).toList := by
  rw [addNew]
  split
  · exact List.prefix_refl _
  · simp

theorem addNew_nodup {seen : Array Nat} (h : seen.toList.Nodup) (n : Nat) :
    (addNew seen n).toList.Nodup := by
  rw [addNew]
  split
  case isTrue => exact h
  case isFalse hn =>
    have hn : n ∉ seen.toList := by simpa using hn
    rw [Array.toList_push, List.nodup_append]
    refine ⟨h, List.nodup_singleton n, ?_⟩
    intro a ha b hb
    obtain rfl := List.mem_singleton.mp hb
    exact fun hab => hn (hab ▸ ha)

theorem mem_foldl_addNew {ns : List Nat} {seen : Array Nat} {m : Nat} :
    m ∈ ns.foldl addNew seen ↔ m ∈ seen ∨ m ∈ ns := by
  induction ns generalizing seen with
  | nil => simp
  | cons n ns ih => rw [List.foldl_cons, ih, mem_addNew, List.mem_cons, or_assoc]

theorem foldl_addNew_extends (ns : List Nat) (seen : Array Nat) :
    seen.toList <+: (ns.foldl addNew seen).toList := by
  induction ns generalizing seen with
  | nil => exact List.prefix_refl _
  | cons n ns ih => exact (addNew_extends seen n).trans (ih _)

theorem foldl_addNew_nodup {seen : Array Nat} (h : seen.toList.Nodup) (ns : List Nat) :
    (ns.foldl addNew seen).toList.Nodup := by
  induction ns generalizing seen with
  | nil => exact h
  | cons n ns ih => exact ih (addNew_nodup h n)

def Reaches (next : Nat → List Nat) : Nat → Nat → Prop :=
  Relation.ReflTransGen fun a b => b ∈ next a

/-- What holds of the listing when the nodes before position `i` have been visited. -/
structure Listing (count : Nat) (next : Nat → List Nat) (roots : List Nat) (i : Nat)
    (seen : Array Nat) : Prop where
  nodup : seen.toList.Nodup
  bounded : ∀ m ∈ seen, m < count
  reached : ∀ m ∈ seen, ∃ r ∈ roots, Reaches next r m
  roots : ∀ r ∈ roots, r ∈ seen
  visited : ∀ j n, j < i → seen[j]? = some n → ∀ m ∈ next n, m ∈ seen

variable {count : Nat} {next : Nat → List Nat} {roots : List Nat}

theorem Listing.size_le {i : Nat} {seen : Array Nat} (h : Listing count next roots i seen) :
    seen.size ≤ count := by
  have hsub : seen.toList.toFinset ⊆ Finset.range count := by
    intro m hm
    exact Finset.mem_range.mpr (h.bounded m (by simpa using hm))
  have hcard := Finset.card_le_card hsub
  rwa [List.toFinset_card_of_nodup h.nodup, Finset.card_range, Array.length_toList] at hcard

theorem Listing.visit_one {i n : Nat} {seen : Array Nat} (h : Listing count next roots i seen)
    (hn : seen[i]? = some n) (inRange : ∀ m ∈ next n, m < count) :
    Listing count next roots (i + 1) ((next n).foldl addNew seen) := by
  have keep := foldl_addNew_extends (next n) seen
  refine ⟨foldl_addNew_nodup h.nodup _, ?_, ?_, ?_, ?_⟩
  · intro m hm
    rcases mem_foldl_addNew.mp hm with hm | hm
    · exact h.bounded m hm
    · exact inRange m hm
  · intro m hm
    rcases mem_foldl_addNew.mp hm with hm | hm
    · exact h.reached m hm
    · obtain ⟨r, hr, hrn⟩ := h.reached n (Array.mem_of_getElem? hn)
      exact ⟨r, hr, hrn.tail hm⟩
  · exact fun r hr => mem_foldl_addNew.mpr (Or.inl (h.roots r hr))
  · intro j k hj hk m hm
    -- the positions up to `i` keep their nodes while the listing grows behind them
    have hi : i < seen.size := (Array.getElem?_eq_some_iff.mp hn).1
    have hjk : seen[j]? = some k := by
      have hlt : j < seen.toList.length := by
        rw [Array.length_toList]
        omega
      rw [← Array.getElem?_toList, List.prefix_iff_getElem?.mp keep j hlt] at hk
      rw [← Array.getElem?_toList, List.getElem?_eq_getElem hlt]
      exact hk
    rcases Nat.lt_succ_iff_lt_or_eq.mp hj with hj | rfl
    · exact mem_foldl_addNew.mpr (Or.inl (h.visited j k hj hjk m hm))
    · rw [hjk] at hn
      cases hn
      exact mem_foldl_addNew.mpr (Or.inr hm)

theorem visit_listing (inRange : ∀ n < count, ∀ m ∈ next n, m < count) {fuel i : Nat}
    {seen : Array Nat} (h : Listing count next roots i seen) (enough : count ≤ fuel + i) :
    ∃ k, Listing count next roots k (visit next fuel i seen) ∧
      (visit next fuel i seen).size ≤ k := by
  induction fuel generalizing i seen with
  | zero =>
    have hsize := h.size_le
    exact ⟨i, h, by simp only [visit]; omega⟩
  | succ fuel ih =>
    rw [visit]
    cases hn : seen[i]? with
    | none => exact ⟨i, h, Array.getElem?_eq_none_iff.mp hn⟩
    | some n =>
      have hlt := h.bounded n (Array.mem_of_getElem? hn)
      exact ih (h.visit_one hn (inRange n hlt)) (by omega)

theorem listing_roots (inRange : ∀ r ∈ roots, r < count) :
    Listing count next roots 0 (roots.foldl addNew #[]) := by
  refine ⟨foldl_addNew_nodup List.nodup_nil roots, ?_, ?_, ?_, ?_⟩
  · intro m hm
    exact inRange m (by simpa [mem_foldl_addNew] using hm)
  · intro m hm
    exact ⟨m, by simpa [mem_foldl_addNew] using hm, .refl⟩
  · exact fun r hr => mem_foldl_addNew.mpr (Or.inr hr)
  · exact fun j n hj => absurd hj (Nat.not_lt_zero j)

section Reach

variable (rootsInRange : ∀ r ∈ roots, r < count)
  (nextInRange : ∀ n < count, ∀ m ∈ next n, m < count)

include rootsInRange nextInRange in
theorem mem_reach {m : Nat} :
    m ∈ reach count next roots ↔ ∃ r ∈ roots, Reaches next r m := by
  have first : Listing count next roots 0 _ := listing_roots rootsInRange
  obtain ⟨k, hk, hsize⟩ := visit_listing nextInRange first (Nat.le_add_right count 0)
  rw [reach]
  rw [Array.mem_toList_iff]
  constructor
  · exact hk.reached m
  · rintro ⟨r, hr, hrm⟩
    induction hrm with
    | refl => exact hk.roots r hr
    | @tail b c _ hc ih =>
      obtain ⟨j, hj, hb⟩ := Array.mem_iff_getElem.mp ih
      exact hk.visited j b (by omega) (by rw [Array.getElem?_eq_getElem hj, hb]) c hc

include rootsInRange nextInRange in
theorem reach_nodup : (reach count next roots).Nodup := by
  have first : Listing count next roots 0 _ := listing_roots rootsInRange
  obtain ⟨k, hk, -⟩ := visit_listing nextInRange first (Nat.le_add_right count 0)
  exact hk.nodup

end Reach

end TableParsing.Reachability
