import Mathlib.Data.Finset.Card
import Mathlib.Logic.Relation
import TableParsing.Propagation
import TableParsing.TerminalSet

/-! Propagation computes unions over reachable nodes. One round brings in what lies one edge
away, so `n` rounds bring in what lies on paths of at most `n` edges, and in a graph of `n`
nodes every reachable node lies on such a path. -/

namespace TableParsing.Propagation

def Edge (edges : Array (List Nat)) (n i j : Nat) : Prop := j ∈ edges.getD i [] ∧ j < n

abbrev Reaches (edges : Array (List Nat)) (n : Nat) : Nat → Nat → Prop :=
  Relation.ReflTransGen (Edge edges n)

def Within (edges : Array (List Nat)) (n : Nat) : Nat → Nat → Nat → Prop
  | 0, i, j => i = j
  | k + 1, i, j => i = j ∨ ∃ m, Edge edges n i m ∧ Within edges n k m j

section Paths

variable {edges : Array (List Nat)} {n : Nat}

theorem Within.refl (k i : Nat) : Within edges n k i i := by
  cases k with
  | zero => rfl
  | succ k => exact Or.inl rfl

theorem Within.reaches {k i j : Nat} (h : Within edges n k i j) : Reaches edges n i j := by
  induction k generalizing i with
  | zero => exact h ▸ .refl
  | succ k ih =>
    rcases h with rfl | ⟨m, he, hm⟩
    · exact .refl
    · exact .head he (ih hm)

theorem within_succ_iff {k i j : Nat} :
    Within edges n (k + 1) i j ↔
      Within edges n k i j ∨ ∃ m, Within edges n k i m ∧ Edge edges n m j := by
  induction k generalizing i with
  | zero =>
    constructor
    · rintro (h | ⟨m, he, hm⟩)
      · exact Or.inl h
      · exact Or.inr ⟨i, rfl, (hm : m = j) ▸ he⟩
    · rintro (h | ⟨m, hm, he⟩)
      · exact Or.inl h
      · exact Or.inr ⟨j, (hm : i = m) ▸ he, rfl⟩
  | succ k ih =>
    constructor
    · rintro (h | ⟨m, he, hm⟩)
      · exact Or.inl (Or.inl h)
      · rcases ih.mp hm with hm | ⟨l, hl, hj⟩
        · exact Or.inl (Or.inr ⟨m, he, hm⟩)
        · exact Or.inr ⟨l, Or.inr ⟨m, he, hl⟩, hj⟩
    · rintro (h | ⟨l, hl, hj⟩)
      · rcases h with h | ⟨m, he, hm⟩
        · exact Or.inl h
        · exact Or.inr ⟨m, he, ih.mpr (Or.inl hm)⟩
      · rcases hl with rfl | ⟨m, he, hm⟩
        · exact Or.inr ⟨j, hj, .refl _ _⟩
        · exact Or.inr ⟨m, he, ih.mpr (Or.inr ⟨l, hm, hj⟩)⟩

abbrev ReachesIn (edges : Array (List Nat)) (n : Nat) (a : Finset Nat) : Nat → Nat → Prop :=
  Relation.ReflTransGen fun i j => Edge edges n i j ∧ j ∈ a

theorem ReachesIn.erase {a : Finset Nat} {i j : Nat} (h : ReachesIn edges n a i j) :
    ReachesIn edges n (a.erase i) i j := by
  induction h with
  | refl => exact .refl
  | @tail b c _ hc ih =>
    by_cases hci : c = i
    · exact hci ▸ .refl
    · exact ih.tail ⟨hc.1, Finset.mem_erase.mpr ⟨hci, hc.2⟩⟩

theorem ReachesIn.within {a : Finset Nat} {i j : Nat} (h : ReachesIn edges n a i j) :
    Within edges n a.card i j := by
  induction hk : a.card generalizing a i with
  | zero =>
    rcases Relation.ReflTransGen.cases_head h with rfl | ⟨m, hm, -⟩
    · exact .refl _ _
    · rw [Finset.card_eq_zero.mp hk] at hm
      exact absurd hm.2 (Finset.notMem_empty m)
  | succ k ih =>
    rcases Relation.ReflTransGen.cases_head h with rfl | ⟨m, hm, hj⟩
    · exact .refl _ _
    · have hcard : (a.erase m).card = k := by
        rw [Finset.card_erase_of_mem hm.2, hk]
        rfl
      exact Or.inr ⟨m, hm.1, ih (ReachesIn.erase hj) hcard⟩

theorem Reaches.within {i j : Nat} (h : Reaches edges n i j) : Within edges n n i j := by
  have hin : ReachesIn edges n (Finset.range n) i j :=
    Relation.ReflTransGen.mono (fun _ _ he => ⟨he, Finset.mem_range.mpr he.2⟩) _ _ h
  simpa using hin.within

end Paths

section Sets

variable {α τ : Type} [Membership τ α]

def Holds (sets : Array α) (i : Nat) (t : τ) : Prop := ∃ s, sets[i]? = some s ∧ t ∈ s

theorem Holds.lt {sets : Array α} {i : Nat} {t : τ} (h : Holds sets i t) : i < sets.size := by
  obtain ⟨s, hs, -⟩ := h
  exact (Array.getElem?_eq_some_iff.mp hs).1

theorem mem_getD_iff_holds {sets : Array TerminalSet} {i t : Nat} :
    t ∈ sets.getD i ∅ ↔ Holds sets i t := by
  rw [Holds, Array.getD_eq_getD_getElem?]
  cases sets[i]? with
  | none => simp [TerminalSet.not_mem_empty]
  | some s => simp

variable [Union α] (mem_union : ∀ {t : τ} {a b : α}, t ∈ a ∪ b ↔ t ∈ a ∨ t ∈ b)

include mem_union in
theorem mem_takeIn {sets : Array α} {js : List Nat} {s : α} {t : τ} :
    t ∈ js.foldl (fun acc j => match sets[j]? with
      | some t => acc ∪ t
      | none => acc) s ↔ t ∈ s ∨ ∃ j ∈ js, Holds sets j t := by
  induction js generalizing s with
  | nil => simp
  | cons j js ih =>
    rw [List.foldl_cons, ih]
    cases hj : sets[j]? with
    | none => simp [Holds, hj]
    | some u => simp [Holds, hj, mem_union, or_assoc]

include mem_union in
theorem holds_round {edges : Array (List Nat)} {sets : Array α} {i : Nat} {t : τ} :
    Holds (round edges sets) i t ↔
      Holds sets i t ∨ i < sets.size ∧ ∃ j ∈ edges.getD i [], Holds sets j t := by
  rw [round]
  constructor
  · rintro ⟨s, hs, ht⟩
    rw [Array.getElem?_mapIdx, Option.map_eq_some_iff] at hs
    obtain ⟨u, hu, rfl⟩ := hs
    rcases (mem_takeIn mem_union).mp ht with h | h
    · exact Or.inl ⟨u, hu, h⟩
    · exact Or.inr ⟨(Array.getElem?_eq_some_iff.mp hu).1, h⟩
  · intro h
    have hi : i < sets.size := by
      rcases h with h | h
      · exact h.lt
      · exact h.1
    have hu := Array.getElem?_eq_getElem hi
    refine ⟨_, by rw [Array.getElem?_mapIdx, hu]; rfl, (mem_takeIn mem_union).mpr ?_⟩
    rcases h with ⟨u, hu', ht⟩ | ⟨-, h⟩
    · rw [hu] at hu'
      cases hu'
      exact Or.inl ht
    · exact Or.inr h

theorem size_round (edges : Array (List Nat)) (sets : Array α) :
    (round edges sets).size = sets.size := by simp [round]

include mem_union in
theorem holds_of_fixed {edges : Array (List Nat)} {sets : Array α}
    (fixed : round edges sets = sets) {k i j : Nat} {t : τ} (hi : i < sets.size)
    (h : Within edges sets.size k i j) (ht : Holds sets j t) : Holds sets i t := by
  induction k generalizing i with
  | zero => exact (h : i = j) ▸ ht
  | succ k ih =>
    rcases h with rfl | ⟨m, he, hm⟩
    · exact ht
    · have hmt := ih he.2 hm
      rw [← fixed]
      exact (holds_round mem_union).mpr (Or.inr ⟨hi, m, he.1, hmt⟩)

variable [DecidableEq α]

include mem_union in
theorem holds_settle {edges : Array (List Nat)} {k : Nat} {sets : Array α} {i : Nat} {t : τ} :
    Holds (settle edges k sets) i t ↔
      i < sets.size ∧ ∃ j, Within edges sets.size k i j ∧ Holds sets j t := by
  induction k generalizing sets with
  | zero =>
    constructor
    · exact fun h => ⟨h.lt, i, rfl, h⟩
    · rintro ⟨-, j, hj, ht⟩
      exact (hj : i = j) ▸ ht
  | succ k ih =>
    rw [settle]
    by_cases fixed : round edges sets = sets
    · rw [if_pos fixed]
      constructor
      · exact fun h => ⟨h.lt, i, .refl _ _, h⟩
      · rintro ⟨hi, j, hj, ht⟩
        exact holds_of_fixed mem_union fixed hi hj ht
    · rw [if_neg fixed, ih, size_round]
      constructor
      · rintro ⟨hi, j, hj, ht⟩
        rcases (holds_round mem_union).mp ht with ht | ⟨-, m, hm, ht⟩
        · exact ⟨hi, j, within_succ_iff.mpr (Or.inl hj), ht⟩
        · exact ⟨hi, m, within_succ_iff.mpr (Or.inr ⟨j, hj, hm, ht.lt⟩), ht⟩
      · rintro ⟨hi, j, hj, ht⟩
        rcases within_succ_iff.mp hj with hj | ⟨m, hm, he⟩
        · exact ⟨hi, j, hj, (holds_round mem_union).mpr (Or.inl ht)⟩
        · refine ⟨hi, m, hm, (holds_round mem_union).mpr (Or.inr ⟨?_, j, he.1, ht⟩)⟩
          rcases Relation.ReflTransGen.cases_tail hm.reaches with rfl | ⟨l, -, hl⟩
          · exact hi
          · exact hl.2

include mem_union in
theorem holds_close {edges : Array (List Nat)} {sets : Array α} {i : Nat} {t : τ} :
    Holds (close edges sets) i t ↔
      i < sets.size ∧ ∃ j, Reaches edges sets.size i j ∧ Holds sets j t := by
  rw [close, holds_settle mem_union]
  constructor
  · rintro ⟨hi, j, hj, ht⟩
    exact ⟨hi, j, hj.reaches, ht⟩
  · rintro ⟨hi, j, hj, ht⟩
    exact ⟨hi, j, hj.within, ht⟩

theorem size_settle (edges : Array (List Nat)) (k : Nat) (sets : Array α) :
    (settle edges k sets).size = sets.size := by
  induction k generalizing sets with
  | zero => rfl
  | succ k ih =>
    rw [settle]
    by_cases fixed : round edges sets = sets
    · rw [if_pos fixed]
    · rw [if_neg fixed, ih, size_round]

theorem size_close (edges : Array (List Nat)) (sets : Array α) :
    (close edges sets).size = sets.size := size_settle _ _ _

end Sets

section Building

theorem getD_modify_cons {edges : Array (List Nat)} {e : Nat × Nat} {i j : Nat} :
    j ∈ (edges.modify e.1 (e.2 :: ·)).getD i [] ↔
      j ∈ edges.getD i [] ∨ i < edges.size ∧ e = (i, j) := by
  obtain ⟨a, b⟩ := e
  rw [Array.getD_eq_getD_getElem?, Array.getD_eq_getD_getElem?, Array.getElem?_modify]
  by_cases hai : a = i
  · subst hai
    by_cases ha : a < edges.size
    · simp [ha, or_comm, eq_comm]
    · simp [ha]
  · simp [hai]

theorem mem_foldl_modify_cons {edges : Array (List Nat)} {pairs : List (Nat × Nat)} {i j : Nat} :
    j ∈ (pairs.foldl (fun edges e => edges.modify e.1 (e.2 :: ·)) edges).getD i [] ↔
      j ∈ edges.getD i [] ∨ i < edges.size ∧ (i, j) ∈ pairs := by
  induction pairs generalizing edges with
  | nil => simp
  | cons e pairs ih =>
    rw [List.foldl_cons, ih, getD_modify_cons, Array.size_modify, List.mem_cons]
    constructor
    · rintro ((h | ⟨hi, rfl⟩) | ⟨hi, h⟩)
      · exact Or.inl h
      · exact Or.inr ⟨hi, Or.inl rfl⟩
      · exact Or.inr ⟨hi, Or.inr h⟩
    · rintro (h | ⟨hi, rfl | h⟩)
      · exact Or.inl (Or.inl h)
      · exact Or.inl (Or.inr ⟨hi, rfl⟩)
      · exact Or.inr ⟨hi, h⟩

theorem mem_ofPairs {n : Nat} {pairs : List (Nat × Nat)} {i j : Nat} :
    j ∈ (ofPairs n pairs).getD i [] ↔ i < n ∧ (i, j) ∈ pairs := by
  have empty : (Array.replicate n ([] : List Nat)).getD i [] = [] := by
    rw [Array.getD_eq_getD_getElem?, Array.getElem?_replicate]
    split <;> rfl
  rw [ofPairs, mem_foldl_modify_cons, empty]
  simp

section Pairs

variable {n : Nat} {pairs : List (Nat × Nat)} {sets : Array TerminalSet} (hsize : sets.size = n)
  {i j t : Nat}

include hsize

theorem edge_ofPairs (hi : i < n) (hj : j < n) (h : (i, j) ∈ pairs) :
    Edge (ofPairs n pairs) sets.size i j :=
  ⟨mem_ofPairs.mpr ⟨hi, h⟩, hsize ▸ hj⟩

theorem holds_close_of_pair (hi : i < n) (h : (i, j) ∈ pairs)
    (ht : Holds (close (ofPairs n pairs) sets) j t) :
    Holds (close (ofPairs n pairs) sets) i t := by
  rw [holds_close TerminalSet.mem_union] at ht ⊢
  obtain ⟨hj, k, hreach, ht⟩ := ht
  exact ⟨hsize ▸ hi, k, .head (edge_ofPairs hsize hi (hsize ▸ hj) h) hreach, ht⟩

omit hsize in
theorem holds_close_self (ht : Holds sets i t) : Holds (close (ofPairs n pairs) sets) i t :=
  (holds_close TerminalSet.mem_union).mpr ⟨ht.lt, i, .refl, ht⟩

omit hsize in
/-- What is propagated along pairs has a property that the initial sets have and that passes
backwards along each pair. -/
theorem holds_close_induction {P : Nat → Prop}
    (h : Holds (close (ofPairs n pairs) sets) i t) (base : ∀ i, Holds sets i t → P i)
    (step : ∀ i j, (i, j) ∈ pairs → P j → P i) : P i := by
  obtain ⟨-, k, hreach, ht⟩ := (holds_close TerminalSet.mem_union).mp h
  clear h
  induction hreach using Relation.ReflTransGen.head_induction_on with
  | refl => exact base _ ht
  | head hedge _ ih => exact step _ _ (mem_ofPairs.mp hedge.1).2 ih

end Pairs

variable {α τ : Type} [Membership τ α] [Union α]
  (mem_union : ∀ {t : τ} {a b : α}, t ∈ a ∪ b ↔ t ∈ a ∨ t ∈ b)

include mem_union in
theorem holds_modify {sets : Array α} {k : Nat} {a : α} {i : Nat} {t : τ} :
    Holds (sets.modify k (· ∪ a)) i t ↔
      Holds sets i t ∨ i < sets.size ∧ k = i ∧ t ∈ a := by
  simp only [Holds]
  rw [Array.getElem?_modify]
  by_cases hki : k = i
  · subst hki
    by_cases hk : k < sets.size
    · simp [hk, mem_union]
    · simp [hk]
  · simp [hki]

include mem_union in
theorem holds_accumulate {sets : Array α} {additions : List (Nat × α)} {i : Nat} {t : τ} :
    Holds (accumulate sets additions) i t ↔
      Holds sets i t ∨ i < sets.size ∧ ∃ a, (i, a) ∈ additions ∧ t ∈ a := by
  rw [accumulate]
  induction additions generalizing sets with
  | nil => simp
  | cons e additions ih =>
    rw [List.foldl_cons, ih, holds_modify mem_union, Array.size_modify]
    constructor
    · rintro ((h | ⟨hi, rfl, ht⟩) | ⟨hi, a, ha, ht⟩)
      · exact Or.inl h
      · exact Or.inr ⟨hi, e.2, by simp, ht⟩
      · exact Or.inr ⟨hi, a, List.mem_cons_of_mem _ ha, ht⟩
    · rintro (h | ⟨hi, a, ha, ht⟩)
      · exact Or.inl (Or.inl h)
      · rcases List.mem_cons.mp ha with rfl | ha
        · exact Or.inl (Or.inr ⟨hi, rfl, ht⟩)
        · exact Or.inr ⟨hi, a, ha, ht⟩

theorem size_accumulate (sets : Array α) (additions : List (Nat × α)) :
    (accumulate sets additions).size = sets.size := by
  rw [accumulate]
  induction additions generalizing sets with
  | nil => rfl
  | cons e additions ih => rw [List.foldl_cons, ih, Array.size_modify]

end Building

section TerminalSets

theorem not_holds_replicate_empty {n i t : Nat} :
    ¬ Holds (Array.replicate n (∅ : TerminalSet)) i t := by
  rintro ⟨s, hs, ht⟩
  rw [Array.getElem?_replicate] at hs
  split at hs
  · cases hs
    exact TerminalSet.not_mem_empty t ht
  · cases hs

theorem mem_close_accumulate {edges : Array (List Nat)} {n i t : Nat}
    {additions : List (Nat × TerminalSet)} :
    t ∈ (close edges (accumulate (Array.replicate n ∅) additions)).getD i ∅ ↔
      i < n ∧ ∃ j, Reaches edges n i j ∧ j < n ∧ ∃ a, (j, a) ∈ additions ∧ t ∈ a := by
  rw [mem_getD_iff_holds, holds_close TerminalSet.mem_union, size_accumulate,
    Array.size_replicate]
  simp only [holds_accumulate TerminalSet.mem_union, not_holds_replicate_empty, false_or,
    Array.size_replicate]

end TerminalSets

end TableParsing.Propagation
