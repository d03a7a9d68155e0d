import TableParsing.Proofs.Table
import TableParsing.Table.Prediction

/-! What a prediction table holds. The candidates of a cell are the productions of its
nonterminal that are predicted on its terminal; the cell has the first of them, and there is one
conflict for each of the others. Without conflicts a cell has at most one candidate. -/

namespace TableParsing

theorem lookup_append {κ α : Type} [BEq κ] (l l' : List (κ × α)) (k : κ) :
    (l ++ l').lookup k = (l.lookup k).or (l'.lookup k) := by
  induction l with
  | nil => rfl
  | cons e l ih =>
    rw [List.cons_append, List.lookup_cons, List.lookup_cons, ih]
    split <;> rfl

namespace PredictionTable

def Occupies (n t : Nat) (c : PredictionConflict) : Bool := c.symbol == n && c.lookahead == t

theorem enter_row (n p u : Nat) (d : Draft) (t : Nat) :
    (d.enter n p u).row.lookup t = (d.row.lookup t).or (if t = u then some p else none) := by
  rw [Draft.enter]
  cases hkept : d.row.lookup u with
  | some kept =>
    by_cases htu : t = u
    · rw [htu, hkept]
      rfl
    · rw [if_neg htu, Option.or_none]
  | none =>
    rw [lookup_append]
    by_cases htu : t = u <;> simp [htu]

theorem enter_conflicts (n p u : Nat) (d : Draft) (m t : Nat) :
    (d.enter n p u).conflicts.filter (Occupies m t) = d.conflicts.filter (Occupies m t) ++
      if m = n ∧ t = u then (d.row.lookup t).toList.map (⟨n, t, ·, p⟩) else [] := by
  rw [Draft.enter]
  cases hkept : d.row.lookup u with
  | some kept =>
    rw [List.filter_append]
    congr 1
    by_cases htu : t = u
    · by_cases hmn : m = n
      · simp [Occupies, htu, hmn, hkept]
      · simp [Occupies, hmn, Ne.symm hmn]
    · simp [Occupies, htu, Ne.symm htu]
  | none =>
    by_cases htu : t = u <;> simp [htu, hkept]

theorem foldl_enter {n p : Nat} {ts : List Nat} (hts : ts.Nodup) (d : Draft) (t : Nat) :
    (ts.foldl (Draft.enter n p) d).row.lookup t =
      (d.row.lookup t).or (if t ∈ ts then some p else none) ∧
    ∀ m, (ts.foldl (Draft.enter n p) d).conflicts.filter (Occupies m t) =
      d.conflicts.filter (Occupies m t) ++
        if m = n ∧ t ∈ ts then (d.row.lookup t).toList.map (⟨n, t, ·, p⟩) else [] := by
  induction ts generalizing d with
  | nil => simp
  | cons u ts ih =>
    rw [List.nodup_cons] at hts
    obtain ⟨hrow, hconflicts⟩ := ih hts.2 (d.enter n p u)
    rw [List.foldl_cons, hrow, enter_row]
    simp only [hconflicts, enter_conflicts, enter_row]
    -- the terminal is the one entered now, or it is left to the rest
    by_cases htu : t = u
    · simp [htu, hts.1]
    · simp [htu]

def candidatesIn (g : Grammar) (ps : List Nat) (n t : Nat) : List Nat :=
  ps.filter fun p => (g.production p).left == n && (lookaheads g p).contains t

def candidates (g : Grammar) (n t : Nat) : List Nat :=
  candidatesIn g (List.range g.productions.size) n t

def conflictsOf (n t : Nat) : List Nat → List PredictionConflict
  | [] => []
  | kept :: others => others.map (⟨n, t, kept, ·⟩)

theorem conflictsOf_append (n t : Nat) (ps qs : List Nat) : conflictsOf n t (ps ++ qs) =
    conflictsOf n t ps ++ match ps with
      | [] => conflictsOf n t qs
      | kept :: _ => qs.map (⟨n, t, kept, ·⟩) := by
  cases ps with
  | nil => rfl
  | cons kept ps => simp [conflictsOf]

/-- What the rows and the conflicts hold after the given productions have been entered. -/
structure Entered (g : Grammar) (ps : List Nat)
    (state : Array (List (Nat × Nat)) × List PredictionConflict) : Prop where
  size : state.1.size = g.nonterminals.size
  row : ∀ n t, n < g.nonterminals.size →
    (state.1.getD n []).lookup t = (candidatesIn g ps n t).head?
  conflicts : ∀ n t, state.2.filter (Occupies n t) = conflictsOf n t (candidatesIn g ps n t)

theorem candidatesIn_concat (g : Grammar) (ps : List Nat) (p n t : Nat) :
    candidatesIn g (ps ++ [p]) n t = candidatesIn g ps n t ++
      if n = (g.production p).left ∧ t ∈ (lookaheads g p).toList then [p] else [] := by
  have hmem : t ∈ (lookaheads g p).toList ↔ (lookaheads g p).contains t = true :=
    TerminalSet.mem_toList
  rw [candidatesIn, List.filter_append, List.filter_cons, List.filter_nil, candidatesIn]
  simp only [hmem, Bool.and_eq_true, beq_iff_eq, eq_comm (a := n)]

theorem Entered.enter {g : Grammar} (wf : g.WellFormed) {ps : List Nat} {p : Nat}
    (hp : p < g.productions.size) {state : Array (List (Nat × Nat)) × List PredictionConflict}
    (h : Entered g ps state) : Entered g (ps ++ [p]) (enter g state p) := by
  have hleft := wf.left_lt hp
  have hdraft := foldl_enter (n := (g.production p).left) (p := p)
    (lookaheads g p).nodup_toList ⟨state.1.getD (g.production p).left [], []⟩
  refine ⟨?_, fun n t hn => ?_, fun n t => ?_⟩
  · simp only [PredictionTable.enter, Array.size_setIfInBounds, h.size]
  · rw [candidatesIn_concat, List.head?_append, ← h.row n t hn]
    by_cases hnp : n = (g.production p).left
    · subst hnp
      have hset : ((PredictionTable.enter g state p).1.getD (g.production p).left []) =
          ((lookaheads g p).toList.foldl (Draft.enter (g.production p).left p)
            ⟨state.1.getD (g.production p).left [], []⟩).row := by
        simp only [PredictionTable.enter, Array.getD_eq_getD_getElem?,
          Array.getElem?_setIfInBounds_self, h.size, hleft, if_true, Option.getD_some]
      rw [hset, (hdraft t).1]
      simp only [true_and]
      split <;> rfl
    · have hsame : (PredictionTable.enter g state p).1.getD n [] = state.1.getD n [] := by
        simp only [PredictionTable.enter, Array.getD_eq_getD_getElem?,
          Array.getElem?_setIfInBounds_ne (Ne.symm hnp)]
      rw [hsame]
      simp [hnp]
  · rw [candidatesIn_concat, conflictsOf_append, ← h.conflicts n t]
    simp only [PredictionTable.enter, List.filter_append, (hdraft t).2 n, List.filter_nil,
      List.nil_append]
    congr 1
    by_cases hin : n = (g.production p).left ∧ t ∈ (lookaheads g p).toList
    · obtain ⟨rfl, ht⟩ := hin
      simp only [ht, and_self, if_true, h.row _ t hleft]
      cases candidatesIn g ps (g.production p).left t <;> rfl
    · simp only [hin, if_false]
      cases candidatesIn g ps n t <;> rfl

theorem entered_foldl {g : Grammar} (wf : g.WellFormed) {ps qs : List Nat}
    (hqs : ∀ q ∈ qs, q < g.productions.size)
    {state : Array (List (Nat × Nat)) × List PredictionConflict} (h : Entered g ps state) :
    Entered g (ps ++ qs) (qs.foldl (PredictionTable.enter g) state) := by
  induction qs generalizing ps state with
  | nil => simpa using h
  | cons q qs ih =>
    rw [List.forall_mem_cons] at hqs
    have hrest := ih hqs.2 (h.enter wf hqs.1)
    rwa [List.append_assoc] at hrest

theorem entered_generate {g : Grammar} (wf : g.WellFormed) :
    Entered g (List.range g.productions.size) ((generate g).rows, (generate g).conflicts) := by
  have hempty : Entered g [] (Array.replicate g.nonterminals.size [], []) := by
    refine ⟨by simp, fun n t hn => ?_, fun n t => rfl⟩
    simp [candidatesIn, Array.getD_eq_getD_getElem?, hn]
  have hlt : ∀ p ∈ List.range g.productions.size, p < g.productions.size := by simp
  exact entered_foldl wf hlt hempty

variable {g : Grammar} {n t p : Nat}

theorem mem_candidates : p ∈ candidates g n t ↔
    p < g.productions.size ∧ (g.production p).left = n ∧ t ∈ lookaheads g p := by
  simp [candidates, candidatesIn, TerminalSet.mem_def]

theorem mem_lookaheads : t ∈ lookaheads g p ↔
    t ∈ (g.prefixes (g.production p).right.toList).first ∨
      (g.prefixes (g.production p).right.toList).nullable = true ∧
        t ∈ g.follow (g.production p).left := by
  have htail : g.tail p 0 = g.prefixes (g.production p).right.toList := Grammar.tail_eq p 0
  rw [lookaheads, htail]
  split
  case isTrue hnull => simp [TerminalSet.mem_union, hnull]
  case isFalse hnull => simp [hnull]

theorem lt_of_predict {table : PredictionTable} (h : table.predict n t = some p) :
    n < table.rows.size := by
  by_contra hle
  rw [predict, Array.getD_eq_getD_getElem?, Array.getElem?_eq_none (by omega)] at h
  cases h

section Names

variable (wf : g.WellFormed) {name : String}

include wf

theorem eq_terminalName (h : (generate g).terminal? name = some t) : name = g.terminalName t :=
  Table.eq_terminalName (a := ⟨#[]⟩) wf h

theorem terminal?_terminalName (ht : t < g.terminals.size) :
    (generate g).terminal? (g.terminalName t) = some t :=
  Table.terminal?_terminalName (a := ⟨#[]⟩) wf ht

theorem terminal?_eq_endOfInput :
    (generate g).terminal? name = some Symbol.endOfInput ↔ name = Symbol.endName :=
  Table.terminal?_eq_endOfInput (a := ⟨#[]⟩) wf

end Names

section Predictions

variable (wf : g.WellFormed)

include wf

theorem size_rows : (generate g).rows.size = g.nonterminals.size := (entered_generate wf).size

theorem predict_eq (hn : n < g.nonterminals.size) :
    (generate g).predict n t = (candidates g n t).head? := (entered_generate wf).row n t hn

theorem candidate_of_predict (h : (generate g).predict n t = some p) :
    p ∈ candidates g n t := by
  have hn := lt_of_predict h
  rw [size_rows wf] at hn
  rw [predict_eq wf hn] at h
  exact List.mem_of_head? h

theorem predict_of_lookahead (hconflicts : (generate g).conflicts = [])
    (hp : p < g.productions.size) (ht : t ∈ lookaheads g p) :
    (generate g).predict (g.production p).left t = some p := by
  have hn := wf.left_lt hp
  have h := mem_candidates.mpr ⟨hp, rfl, ht⟩
  have hnone := (entered_generate wf).conflicts (g.production p).left t
  rw [hconflicts, List.filter_nil] at hnone
  rw [predict_eq wf hn]
  change [] = conflictsOf _ t (candidates g (g.production p).left t) at hnone
  cases hcell : candidates g (g.production p).left t with
  | nil =>
    rw [hcell] at h
    cases h
  | cons kept others =>
    rw [hcell] at h hnone
    rw [conflictsOf, eq_comm, List.map_eq_nil_iff] at hnone
    rw [hnone, List.mem_singleton] at h
    rw [h]
    rfl

end Predictions

def lenient : PredictionTable where
  rows := #[[(1, 0), (2, 0), (3, 0)], [(2, 1), (1, 2), (3, 3)], [], []]
  conflicts := []
  terminals := #["$end", "error", "y", "z"]
  nonterminals := #["$accept", "S", "C", "A"]
  productions := Grammar.lenient.productions

theorem generate_lenient : generate .lenient = .lenient := by
  cbv

end PredictionTable

end TableParsing
