import TableParsing.Proofs.Grammar.ExactSets
import TableParsing.Proofs.Table.Prediction

/-! The cells of a prediction table against derivations. A production of a nonterminal is
eligible on a terminal if the terminal begins a form of its right side, or if the right side
derives the empty form and the terminal stands after the nonterminal in some form. A cell holds
the eligible production of lowest index; every other one is in exactly one conflict, however
many ways there are for it to be eligible. -/

namespace TableParsing

namespace Grammar

/-- The production is one of the nonterminal, and the terminal can come next where it is used. -/
def Eligible (g : Grammar) (n t p : Nat) : Prop :=
  p < g.productions.size ∧ (g.production p).left = n ∧
    ((∃ β, g.Derives (g.production p).right.toList (.terminal t :: β)) ∨
      g.Derives (g.production p).right.toList [] ∧
        ∃ α β, g.Derives [.nonterminal Symbol.accept] (α ++ .nonterminal n :: .terminal t :: β))

theorem Defined.mem_follow_iff_derives {g : Grammar} (hg : g.Defined) {n t : Nat} :
    t ∈ g.follow n ↔ ∃ α β, g.Derives [.nonterminal Symbol.accept]
      (α ++ .nonterminal n :: .terminal t :: β) := by
  have wf := hg.wellFormed
  constructor
  · exact wf.exists_form_of_mem_follow fun n hn => hg.exists_form hn
  · intro h
    obtain ⟨α, β, hform⟩ := h
    exact wf.mem_follow_of_form hform rfl (wf.mem_prefixes_iff_derives.mpr ⟨β, .refl⟩)

end Grammar

namespace PredictionTable

variable {g : Grammar} {n t p : Nat}

theorem mem_candidates_iff_eligible (hg : g.Defined) :
    p ∈ candidates g n t ↔ g.Eligible n t p := by
  have wf := hg.wellFormed
  rw [mem_candidates, Grammar.Eligible]
  refine and_congr_right fun _ => and_congr_right fun hleft => ?_
  rw [mem_lookaheads, wf.mem_prefixes_iff_derives, wf.nullable_prefixes_iff_derives, hleft,
    hg.mem_follow_iff_derives]

theorem pairwise_candidates (g : Grammar) (n t : Nat) :
    (candidates g n t).Pairwise (· < ·) := List.pairwise_lt_range.filter _

theorem mem_conflictsOf {c : PredictionConflict} {kept : Nat} {others : List Nat} :
    c ∈ conflictsOf n t (kept :: others) ↔ ∃ p ∈ others, c = ⟨n, t, kept, p⟩ := by
  simp only [conflictsOf, List.mem_map, eq_comm (a := c)]

theorem nodup_conflictsOf {ps : List Nat} (h : ps.Nodup) : (conflictsOf n t ps).Nodup := by
  cases ps with
  | nil => exact List.nodup_nil
  | cons kept others =>
    refine (List.nodup_cons.mp h).2.map fun p q heq => ?_
    exact (PredictionConflict.mk.inj heq).2.2.2

theorem count_conflicts (wf : g.WellFormed) (kept rejected : Nat) :
    (generate g).conflicts.count ⟨n, t, kept, rejected⟩ =
      (conflictsOf n t (candidates g n t)).count ⟨n, t, kept, rejected⟩ := by
  have hcell := (entered_generate wf).conflicts n t
  change _ = conflictsOf n t (candidates g n t) at hcell
  rw [← hcell, List.count_filter (by simp [Occupies])]

theorem mem_conflicts_iff (wf : g.WellFormed) {kept rejected : Nat} :
    (⟨n, t, kept, rejected⟩ : PredictionConflict) ∈ (generate g).conflicts ↔
      (candidates g n t).head? = some kept ∧ rejected ∈ (candidates g n t).tail := by
  rw [← List.count_pos_iff, count_conflicts wf, List.count_pos_iff]
  cases candidates g n t with
  | nil => simp [conflictsOf]
  | cons first others =>
    rw [mem_conflictsOf]
    simp only [PredictionConflict.mk.injEq, true_and, List.head?_cons, Option.some.injEq,
      List.tail_cons]
    constructor
    · rintro ⟨p, hp, rfl, rfl⟩
      exact ⟨rfl, hp⟩
    · rintro ⟨rfl, hp⟩
      exact ⟨rejected, hp, rfl, rfl⟩

theorem head_candidates (hg : g.Defined) :
    (candidates g n t).head? = some p ↔ g.Eligible n t p ∧ ∀ q, g.Eligible n t q → p ≤ q := by
  simp only [← mem_candidates_iff_eligible hg]
  have hsorted := pairwise_candidates g n t
  cases hcell : candidates g n t with
  | nil => simp
  | cons first others =>
    rw [hcell, List.pairwise_cons] at hsorted
    rw [List.head?_cons, Option.some.injEq]
    constructor
    · rintro rfl
      refine ⟨List.mem_cons_self, fun q hq => ?_⟩
      rcases List.mem_cons.mp hq with rfl | hq
      · exact Nat.le_refl q
      · exact Nat.le_of_lt (hsorted.1 q hq)
    · intro h
      obtain ⟨hp, hleast⟩ := h
      rcases List.mem_cons.mp hp with rfl | hp
      · rfl
      · have hle := hleast first List.mem_cons_self
        have hlt := hsorted.1 p hp
        omega

theorem mem_tail_candidates (hg : g.Defined) {kept : Nat}
    (hkept : (candidates g n t).head? = some kept) :
    p ∈ (candidates g n t).tail ↔ g.Eligible n t p ∧ p ≠ kept := by
  rw [← mem_candidates_iff_eligible hg]
  have hsorted := pairwise_candidates g n t
  cases hcell : candidates g n t with
  | nil => simp
  | cons first others =>
    rw [hcell, List.head?_cons, Option.some.injEq] at hkept
    subst hkept
    rw [hcell, List.pairwise_cons] at hsorted
    rw [List.tail_cons, List.mem_cons]
    constructor
    · intro hp
      exact ⟨Or.inr hp, (Nat.ne_of_lt (hsorted.1 p hp)).symm⟩
    · intro h
      exact h.1.resolve_left h.2

/-- A cell of a prediction table holds the eligible production of lowest index, if there is any.
Each of the others is rejected in one conflict with it, and there are no other conflicts, so
that a table has none exactly if no cell has two eligible productions. -/
theorem cells_exact (hg : g.Defined) :
    (∀ n t, n < g.nonterminals.size →
      (∀ p, (generate g).predict n t = some p ↔
        g.Eligible n t p ∧ ∀ q, g.Eligible n t q → p ≤ q) ∧
      ((generate g).predict n t = none ↔ ∀ p, ¬ g.Eligible n t p) ∧
      ∀ kept rejected,
        ((⟨n, t, kept, rejected⟩ : PredictionConflict) ∈ (generate g).conflicts ↔
          (generate g).predict n t = some kept ∧ g.Eligible n t rejected ∧ rejected ≠ kept) ∧
        (generate g).conflicts.count ⟨n, t, kept, rejected⟩ ≤ 1) ∧
    ((generate g).conflicts.length = 0 ↔
      ∀ n t p q, g.Eligible n t p → g.Eligible n t q → p = q) := by
  have wf := hg.wellFormed
  refine ⟨fun n t hn => ⟨fun p => ?_, ?_, fun kept rejected => ⟨?_, ?_⟩⟩, ?_⟩
  · rw [predict_eq wf hn, head_candidates hg]
  · simp only [← mem_candidates_iff_eligible hg]
    rw [predict_eq wf hn, List.head?_eq_none_iff, List.eq_nil_iff_forall_not_mem]
  · rw [mem_conflicts_iff wf, predict_eq wf hn]
    exact and_congr_right fun hkept => mem_tail_candidates hg hkept
  · rw [count_conflicts wf]
    have hnodup : (candidates g n t).Nodup := (pairwise_candidates g n t).imp Nat.ne_of_lt
    exact List.nodup_iff_count_le_one.mp (nodup_conflictsOf hnodup) _
  · rw [List.length_eq_zero_iff]
    constructor
    · intro hnone n t p q hp hq
      -- an eligible production that is not the first one would be rejected in a conflict
      have kept : ∀ p, g.Eligible n t p → (candidates g n t).head? = some p := by
        intro p hp
        have hmem := (mem_candidates_iff_eligible hg).mpr hp
        obtain ⟨first, hfirst⟩ := Option.isSome_iff_exists.mp
          (List.isSome_head?.mpr (List.ne_nil_of_mem hmem))
        by_contra hne
        have hconflict := (mem_conflicts_iff wf).mpr ⟨hfirst, (mem_tail_candidates hg hfirst).mpr
          ⟨hp, fun heq => hne (heq ▸ hfirst)⟩⟩
        rw [hnone] at hconflict
        cases hconflict
      exact Option.some.inj ((kept p hp).symm.trans (kept q hq))
    · intro hunique
      rw [List.eq_nil_iff_forall_not_mem]
      rintro ⟨n, t, kept, rejected⟩ hc
      obtain ⟨hkept, hrejected⟩ := (mem_conflicts_iff wf).mp hc
      obtain ⟨heligible, hne⟩ := (mem_tail_candidates hg hkept).mp hrejected
      exact hne (hunique n t rejected kept heligible ((head_candidates hg).mp hkept).1)

theorem cells_exact_tolerant :
    (generate .tolerant).predict 1 2 = some 1 ∧ Grammar.tolerant.Eligible 1 2 1 ∧
    Grammar.tolerant.Eligible 1 2 2 ∧
    (generate .tolerant).conflicts.count ⟨1, 2, 1, 2⟩ = 1 ∧
    (generate .tolerant).conflicts.length ≠ 0 := by
  have hpredict : (generate .tolerant).predict 1 2 = some 1 := by decide +kernel
  have hmem : (⟨1, 2, 1, 2⟩ : PredictionConflict) ∈ (generate .tolerant).conflicts := by
    decide +kernel
  obtain ⟨hcells, htotal⟩ := cells_exact Grammar.tolerant_defined
  obtain ⟨hsome, -, hconflicts⟩ := hcells 1 2 (by decide +kernel)
  obtain ⟨hiff, hle⟩ := hconflicts 1 2
  have hkept := ((hsome 1).mp hpredict).1
  obtain ⟨-, hrejected, hne⟩ := hiff.mp hmem
  have hpos := List.count_pos_iff.mpr hmem
  refine ⟨hpredict, hkept, hrejected, by omega, fun hzero => ?_⟩
  exact hne (htotal.mp hzero 1 2 2 1 hrejected hkept)

end PredictionTable

end TableParsing
