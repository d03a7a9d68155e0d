import Mathlib.Algebra.Order.BigOperators.Group.List
import TableParsing.Proofs.Table.Renumbering

/-! The conflicts of a table, cell by cell. A cell with some reductions records one conflict less
than there are reductions, all of them counted, and one more if it also shifts or accepts.
Whether the last one counts depends on which reduction comes first, but a cell that is left more
reductions records and counts at least as many conflicts. -/

namespace TableParsing

section Cell

variable {g : Grammar} {s t : Nat} {shift : Option Action} {reduces : List Nat}

theorem length_candidates (h : reduces.Nodup) :
    ((reduces.mergeSort (· ≤ ·)).eraseDups).length = reduces.length := by
  apply List.Perm.length_eq
  rw [List.perm_ext_iff_of_nodup (nodup_eraseDups _) h]
  exact fun p => mem_candidates

theorem resolve_conflict_at {c : Conflict} (h : c ∈ (resolve g s t shift reduces).conflicts) :
    c.state = s ∧ c.lookahead = t := by
  simp only [resolve] at h
  split at h
  · cases h
  case h_2 winner losers _ =>
    have hlosers : c ∈ losers.map (reduceConflict s t winner) → c.state = s ∧ c.lookahead = t := by
      intro hc
      obtain ⟨p, -, rfl⟩ := List.mem_map.mp hc
      exact ⟨rfl, rfl⟩
    split at h
    · exact hlosers h
    · rcases List.mem_append.mp h with h | h
      · exact hlosers h
      · obtain rfl := List.mem_singleton.mp h
        exact ⟨rfl, rfl⟩

theorem resolve_conflicts_eq_nil : (resolve g s t shift reduces).conflicts = [] ↔
    reduces = [] ∨ shift = none ∧ ∀ p ∈ reduces, ∀ q ∈ reduces, p = q := by
  constructor
  · intro h
    refine (resolve_of_noConflict h).imp And.left fun hreduces => ⟨hreduces.1, ?_⟩
    intro p hp q hq
    have heq := (hreduces.2 p hp).symm.trans (hreduces.2 q hq)
    simpa using heq
  · intro h
    simp only [resolve]
    split
    · rfl
    case h_2 winner losers hsorted =>
      have hmem : ∀ p, p ∈ winner :: losers ↔ p ∈ reduces := fun p => hsorted ▸ mem_candidates
      have hwinner := (hmem winner).mp List.mem_cons_self
      rcases h with rfl | ⟨rfl, hsame⟩
      · cases hwinner
      · -- a loser would be the winner once more
        have hnodup : (winner :: losers).Nodup := hsorted ▸ nodup_eraseDups _
        change losers.map _ = []
        rw [List.map_eq_nil_iff, List.eq_nil_iff_forall_not_mem]
        intro p hp
        have heq := hsame p ((hmem p).mp (List.mem_cons_of_mem _ hp)) winner hwinner
        exact (List.nodup_cons.mp hnodup).1 (heq ▸ hp)

theorem resolve_reduceReduce (h : shift = none ∨ reduces = []) {c : Conflict}
    (hc : c ∈ (resolve g s t shift reduces).conflicts) : c.reason = .reduceReduce := by
  simp only [resolve] at hc
  split at hc
  · cases hc
  case h_2 winner losers hsorted =>
    have hwinner : winner ∈ reduces := by
      rw [← mem_candidates, hsorted]
      exact List.mem_cons_self
    rcases h with rfl | rfl
    · obtain ⟨p, -, rfl⟩ := List.mem_map.mp hc
      rfl
    · cases hwinner

theorem resolve_countP (g : Grammar) (s t : Nat) (shift : Option Action) {reduces : List Nat}
    {q : Conflict → Bool} (hq : ∀ c, c.counted = true → q c = true)
    (hnodup : reduces.Nodup) :
    reduces.length ≤ (resolve g s t shift reduces).conflicts.countP q + 1 ∧
      (resolve g s t shift reduces).conflicts.countP q ≤ reduces.length := by
  rw [← length_candidates hnodup]
  simp only [resolve]
  split
  case h_1 hnil => simp [hnil]
  case h_2 winner losers hsorted =>
    have hlosers : (losers.map (reduceConflict s t winner)).countP q = losers.length := by
      have hall : ∀ c ∈ losers.map (reduceConflict s t winner), q c = true := by
        intro c hc
        obtain ⟨p, -, rfl⟩ := List.mem_map.mp hc
        exact hq _ rfl
      rw [List.countP_eq_length.mpr hall, List.length_map]
    rw [hsorted, List.length_cons]
    split
    · rw [hlosers]
      omega
    · rw [List.countP_append, hlosers, List.countP_singleton]
      split <;> omega

/-- A cell that is left more reductions has no fewer conflicts of any kind that takes in those
that count. -/
theorem resolve_countP_le {q : Conflict → Bool} (hq : ∀ c, c.counted = true → q c = true)
    {reduces' : List Nat} (hsub : reduces.Sublist reduces') (hnodup : reduces'.Nodup) :
    (resolve g s t shift reduces).conflicts.countP q ≤
      (resolve g s t shift reduces').conflicts.countP q := by
  rcases Nat.lt_or_ge reduces.length reduces'.length with hlt | hge
  · have hle := (resolve_countP g s t shift hq (hnodup.sublist hsub)).2
    have hge := (resolve_countP g s t shift hq hnodup).1
    omega
  · rw [hsub.eq_of_length_le hge]

end Cell

namespace Table

def conflictsAt (table : Table) (s t : Nat) : List Conflict :=
  table.conflicts.filter fun c => c.state = s ∧ c.lookahead = t

variable {g : Grammar} {a b : Automaton}

def cellConflicts (g : Grammar) (a : Automaton) (s t : Nat) : List Conflict :=
  match a.states[s]? with
  | some st => (entry g s st t).conflicts
  | none => []

theorem conflicts_eq_flatMap : (generate g a).conflicts = (List.range a.states.size).flatMap
    fun s => (List.range g.terminals.size).flatMap (cellConflicts g a s) := by
  rw [conflicts_generate]
  apply List.flatMap_congr
  intro s _
  rw [rowConflicts]
  cases hst : a.states[s]? with
  | none =>
    have hnil : cellConflicts g a s = fun _ => [] := by
      funext t
      rw [cellConflicts, hst]
    simp [hnil]
  | some st =>
    have hcells : cellConflicts g a s = fun t => (entry g s st t).conflicts := by
      funext t
      rw [cellConflicts, hst]
    rw [hcells]
    simp only [cells, List.flatMap_map]
    rfl

theorem mem_conflicts {c : Conflict} : c ∈ (generate g a).conflicts ↔
    ∃ s st t, a.states[s]? = some st ∧ t < g.terminals.size ∧ c ∈ (entry g s st t).conflicts := by
  simp only [conflicts_eq_flatMap, List.mem_flatMap, List.mem_range]
  constructor
  · rintro ⟨s, hs, t, ht, hc⟩
    have hst := Array.getElem?_eq_getElem hs
    rw [cellConflicts, hst] at hc
    exact ⟨s, _, t, hst, ht, hc⟩
  · rintro ⟨s, st, t, hst, ht, hc⟩
    refine ⟨s, (Array.getElem?_eq_some_iff.mp hst).1, t, ht, ?_⟩
    rw [cellConflicts, hst]
    exact hc

theorem cellConflicts_at {s t : Nat} {c : Conflict} (h : c ∈ cellConflicts g a s t) :
    c.state = s ∧ c.lookahead = t := by
  rw [cellConflicts] at h
  split at h
  · exact resolve_conflict_at h
  · cases h

theorem flatMap_range_single {α : Type} {f : Nat → List α} {i : Nat} (h : ∀ j, j ≠ i → f j = [])
    (n : Nat) : (List.range n).flatMap f = if i < n then f i else [] := by
  induction n with
  | zero => rfl
  | succ n ih =>
    rw [List.range_succ, List.flatMap_append, ih, List.flatMap_singleton]
    rcases Nat.lt_trichotomy i n with hlt | rfl | hgt
    · rw [if_pos hlt, if_pos (by omega), h n (by omega), List.append_nil]
    · rw [if_neg (by omega), if_pos (by omega), List.nil_append]
    · rw [if_neg (by omega), if_neg (by omega), h n (by omega), List.append_nil]

theorem conflictsAt_generate (s t : Nat) : (generate g a).conflictsAt s t =
    if t < g.terminals.size then cellConflicts g a s t else [] := by
  have hfilter : ∀ s' t', (cellConflicts g a s' t').filter
      (fun c => c.state = s ∧ c.lookahead = t) =
        if s' = s ∧ t' = t then cellConflicts g a s t else [] := by
    intro s' t'
    split
    case isTrue heq =>
      obtain ⟨rfl, rfl⟩ := heq
      rw [List.filter_eq_self]
      intro c hc
      exact decide_eq_true (cellConflicts_at hc)
    case isFalse hne =>
      rw [List.filter_eq_nil_iff]
      intro c hc
      obtain ⟨rfl, rfl⟩ := cellConflicts_at hc
      simpa using hne
  rw [conflictsAt, conflicts_eq_flatMap, List.filter_flatMap]
  simp only [List.filter_flatMap, hfilter]
  rw [flatMap_range_single (i := s), flatMap_range_single (i := t)]
  · by_cases hs : s < a.states.size
    · simp [hs]
    · simp [hs, cellConflicts]
  · intro t' hne
    simp [hne]
  · intro s' hne
    simp [hne]

theorem countP_conflicts_le {q : Conflict → Bool} (hsize : a.states.size = b.states.size)
    (h : ∀ s t, (cellConflicts g a s t).countP q ≤ (cellConflicts g b s t).countP q) :
    (generate g a).conflicts.countP q ≤ (generate g b).conflicts.countP q := by
  simp only [conflicts_eq_flatMap, List.countP_flatMap, hsize]
  apply List.sum_le_sum
  intro s _
  simp only [Function.comp_apply, List.countP_flatMap]
  apply List.sum_le_sum
  intro t _
  exact h s t

end Table

end TableParsing
