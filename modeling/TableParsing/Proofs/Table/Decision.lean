import Mathlib.Data.Finset.Sort
import TableParsing.Proofs.Table.Conflict

/-! What decides a cell of a table. Of the reductions that a state can make on a terminal the one
by the earliest production wins, and each of the others loses in a conflict that counts. If the
state can also shift or accept, the declared precedences decide between that and the winner, and
this is one conflict more. Nothing else is recorded, and the order in which the reductions are
given, or how often, makes no difference. -/

namespace TableParsing

inductive Grammar.Binds (g : Grammar) (p : Nat) (r : Precedence) : Prop
  | assigned (h : (g.production p).precedence = some r)
  | inherited {α β : List Symbol} {t : Nat} (hnone : (g.production p).precedence = none)
      (hright : (g.production p).right.toList = α ++ .terminal t :: β)
      (hlast : ∀ u, .terminal u ∉ β) (ht : g.terminalPrecedence t = some r)

theorem findSome?_terminal? {l : List Symbol} {t : Nat} :
    l.reverse.findSome? Symbol.terminal? = some t ↔
      ∃ α β, l = α ++ .terminal t :: β ∧ ∀ u, .terminal u ∉ β := by
  rw [List.findSome?_eq_some_iff]
  constructor
  · rintro ⟨l₁, x, l₂, hl, hx, hnone⟩
    obtain rfl : x = .terminal t := by
      cases x with
      | terminal u => exact congrArg Symbol.terminal (Option.some.inj hx)
      | nonterminal n => cases hx
    refine ⟨l₂.reverse, l₁.reverse, ?_, fun u hu => ?_⟩
    · rw [← List.reverse_reverse l, hl]
      simp
    · cases hnone _ (List.mem_reverse.mp hu)
  · rintro ⟨α, β, rfl, hβ⟩
    refine ⟨β.reverse, .terminal t, α.reverse, by simp, rfl, fun x hx => ?_⟩
    cases x with
    | terminal u => exact absurd (List.mem_reverse.mp hx) (hβ u)
    | nonterminal n => rfl

theorem Grammar.binds_iff {g : Grammar} {p : Nat} {r : Precedence} :
    g.Binds p r ↔ g.productionPrecedence p = some r := by
  rw [productionPrecedence]
  constructor
  · rintro (h | ⟨hnone, hright, hlast, ht⟩)
    · rw [h]
    · rw [hnone, findSome?_terminal?.mpr ⟨_, _, hright, hlast⟩]
      exact ht
  · intro h
    split at h
    case h_1 assigned hassigned =>
      cases h
      exact .assigned hassigned
    case h_2 hnone =>
      split at h
      case h_1 t ht =>
        obtain ⟨α, β, hright, hlast⟩ := findSome?_terminal?.mp ht
        exact .inherited hnone hright hlast h
      case h_2 => cases h

/-- What wins when a shift on a terminal, or acceptance, competes with the reduction by a
production, and why. -/
inductive Settles (g : Grammar) (t p : Nat) : Action → Action → ConflictReason → Prop
  | accept : Settles g t p .accept .accept .missingPrecedence
  | unranked {u : Nat} (h : g.terminalPrecedence t = none ∨ ∀ r, ¬ g.Binds p r) :
      Settles g t p (.shift u) (.shift u) .missingPrecedence
  | tighter {u : Nat} {s r : Precedence} (hs : g.terminalPrecedence t = some s)
      (hr : g.Binds p r) (h : r.priority < s.priority) :
      Settles g t p (.shift u) (.shift u) .precedence
  | looser {u : Nat} {s r : Precedence} (hs : g.terminalPrecedence t = some s)
      (hr : g.Binds p r) (h : s.priority < r.priority) :
      Settles g t p (.shift u) (.reduce p) .precedence
  | left {u : Nat} {s r : Precedence} (hs : g.terminalPrecedence t = some s)
      (hr : g.Binds p r) (h : s.priority = r.priority) (hassoc : s.assoc = .left) :
      Settles g t p (.shift u) (.reduce p) (.associativity .left)
  | right {u : Nat} {s r : Precedence} (hs : g.terminalPrecedence t = some s)
      (hr : g.Binds p r) (h : s.priority = r.priority) (hassoc : s.assoc = .right) :
      Settles g t p (.shift u) (.shift u) (.associativity .right)
  | nonassoc {u : Nat} {s r : Precedence} (hs : g.terminalPrecedence t = some s)
      (hr : g.Binds p r) (h : s.priority = r.priority) (hassoc : s.assoc = .nonassoc) :
      Settles g t p (.shift u) .error (.associativity .nonassoc)

def ConflictReason.counts (reason : ConflictReason) : Bool :=
  reason = .missingPrecedence ∨ reason = .associativity .nonassoc

section Settles

variable {g : Grammar} {s t p : Nat}

theorem compareLevels_counted (shift : Action) (ls lr : Option Precedence) :
    (compareLevels shift p ls lr).counted = (compareLevels shift p ls lr).reason.counts := by
  simp only [compareLevels]
  split
  · split
    · rfl
    · split
      · rfl
      · split <;> rfl
  · rfl

theorem settles_shift (u : Nat) :
    let verdict := compareLevels (.shift u) p (g.terminalPrecedence t) (g.productionPrecedence p)
    Settles g t p (.shift u) verdict.resolution verdict.reason := by
  intro verdict
  cases hs : g.terminalPrecedence t with
  | none =>
    have hverdict : verdict = ⟨.shift u, .missingPrecedence, true⟩ := by
      simp only [verdict, hs, compareLevels]
    rw [hverdict]
    exact .unranked (Or.inl hs)
  | some ls =>
    cases hr : g.productionPrecedence p with
    | none =>
      have hverdict : verdict = ⟨.shift u, .missingPrecedence, true⟩ := by
        simp only [verdict, hs, hr, compareLevels]
      rw [hverdict]
      refine .unranked (Or.inr fun r h => ?_)
      rw [Grammar.binds_iff, hr] at h
      cases h
    | some lr =>
      have hbinds := Grammar.binds_iff.mpr hr
      simp only [verdict, hs, hr, compareLevels]
      split
      case isTrue hlt => exact .tighter hs hbinds hlt
      case isFalse hnlt =>
        split
        case isTrue hlt => exact .looser hs hbinds hlt
        case isFalse hngt =>
          have heq : ls.priority = lr.priority := by omega
          split
          case h_1 hassoc => exact .left hs hbinds heq hassoc
          case h_2 hassoc => exact .right hs hbinds heq hassoc
          case h_3 hassoc => exact .nonassoc hs hbinds heq hassoc

theorem shiftConflict_settles {act : Action} {st : Automaton.State}
    (h : Table.shiftOn st t = some act) : ∃ taken reason, Settles g t p act taken reason ∧
      shiftConflict g s t act p =
        ⟨s, t, [act, .reduce p], taken, reason, reason.counts⟩ := by
  rcases Table.shiftOn_eq_some.mp h with ⟨u, rfl, -⟩ | ⟨rfl, -⟩
  · refine ⟨_, _, settles_shift u, ?_⟩
    simp only [shiftConflict, shiftPrecedence, compareLevels_counted]
  · exact ⟨_, _, .accept, rfl⟩

end Settles

theorem eraseDups_sublist {α : Type} [BEq α] : ∀ l : List α, l.eraseDups.Sublist l
  | [] => by simp
  | a :: l => by
    rw [List.eraseDups_cons]
    exact ((eraseDups_sublist _).trans List.filter_sublist).cons_cons a
termination_by l => l.length
decreasing_by exact Nat.lt_succ_of_le (List.length_filter_le _ _)

theorem candidates_eq_sort (reduces : List Nat) :
    (reduces.mergeSort (· ≤ ·)).eraseDups = reduces.toFinset.sort := by
  have hperm : (reduces.mergeSort (· ≤ ·)).eraseDups.Perm reduces.toFinset.sort := by
    rw [List.perm_ext_iff_of_nodup (nodup_eraseDups _) (Finset.sort_nodup _ _)]
    intro p
    rw [mem_candidates, Finset.mem_sort, List.mem_toFinset]
  exact hperm.eq_of_pairwise' ((List.pairwise_mergeSort' (· ≤ ·) reduces).sublist
    (eraseDups_sublist _)) (Finset.pairwise_sort _ _)

theorem sort_eq_cons {R : Finset Nat} (h : R.Nonempty) :
    R.sort = R.min' h :: (R.erase (R.min' h)).sort := by
  conv_lhs => rw [← Finset.insert_erase (R.min'_mem h)]
  exact Finset.sort_insert _ (fun p hp => R.min'_le p (Finset.mem_of_mem_erase hp))
    (Finset.notMem_erase _ _)

variable {g : Grammar} {s t : Nat}

theorem resolve_congr {shift : Option Action} {l l' : List Nat} (h : ∀ p, p ∈ l ↔ p ∈ l') :
    resolve g s t shift l = resolve g s t shift l' := by
  have hsame : l.toFinset = l'.toFinset := List.toFinset.ext h
  rw [resolve, resolve, candidates_eq_sort, candidates_eq_sort, hsame]

theorem resolve_of_empty {shift : Option Action} {l : List Nat} (h : l.toFinset = ∅) :
    resolve g s t shift l = ⟨shift, []⟩ := by
  rw [resolve, candidates_eq_sort, h, Finset.sort_empty]

def lostReductions (s t : Nat) (R : Finset Nat) (h : R.Nonempty) : List Conflict :=
  (R.erase (R.min' h)).sort.map (reduceConflict s t (R.min' h))

theorem resolve_of_nonempty {shift : Option Action} {l : List Nat} (h : l.toFinset.Nonempty) :
    resolve g s t shift l =
      match shift with
      | none => ⟨some (.reduce (l.toFinset.min' h)), lostReductions s t _ h⟩
      | some act =>
        let conflict := shiftConflict g s t act (l.toFinset.min' h)
        ⟨some conflict.resolution, lostReductions s t _ h ++ [conflict]⟩ := by
  rw [resolve, candidates_eq_sort, sort_eq_cons h]
  rfl

theorem length_lostReductions {R : Finset Nat} (h : R.Nonempty) :
    (lostReductions s t R h).length = R.card - 1 := by
  rw [lostReductions, List.length_map, Finset.length_sort, Finset.card_erase_of_mem (R.min'_mem h)]

theorem lostReductions_counted {R : Finset Nat} {h : R.Nonempty} {c : Conflict}
    (hc : c ∈ lostReductions s t R h) : c.reason = .reduceReduce ∧ c.counted = true := by
  obtain ⟨p, -, rfl⟩ := List.mem_map.mp hc
  exact ⟨rfl, rfl⟩

namespace Table

def reducible (st : Automaton.State) (t : Nat) : Finset Nat := (reducesOn st t).toFinset

theorem mem_reducible {st : Automaton.State} {p : Nat} :
    p ∈ reducible st t ↔ ∃ l, (p, l) ∈ st.reduces ∧ t ∈ l := by
  rw [reducible, List.mem_toFinset, mem_reducesOn]

/-- The cell of a state and a terminal, with the conflicts recorded there, as it follows from the
shift or acceptance that competes for it, if any, and the productions that could be reduced. -/
structure Decided (g : Grammar) (s t : Nat) (shift : Option Action) (R : Finset Nat)
    (cell : Option Action) (conflicts : List Conflict) : Prop where
  absent : cell = none ↔ R = ∅ ∧ shift = none
  alone : R = ∅ → cell = shift ∧ conflicts = []
  reduced : ∀ h : R.Nonempty, shift = none →
    cell = some (.reduce (R.min' h)) ∧ conflicts = lostReductions s t R h
  settled : ∀ (h : R.Nonempty) (act : Action), shift = some act →
    ∃ taken reason, Settles g t (R.min' h) act taken reason ∧ cell = some taken ∧
      conflicts = lostReductions s t R h ++
        [⟨s, t, [act, .reduce (R.min' h)], taken, reason, reason.counts⟩]

theorem decided_entry (g : Grammar) (s t : Nat) (st : Automaton.State) :
    Decided g s t (shiftOn st t) (reducible st t) (entry g s st t).action
      (entry g s st t).conflicts := by
  rcases (reducible st t).eq_empty_or_nonempty with hnone | hsome
  · rw [entry, resolve_of_empty hnone, hnone]
    exact ⟨by simp, fun _ => ⟨rfl, rfl⟩, fun h => absurd h (by simp), fun h => absurd h (by simp)⟩
  · have hne : reducible st t ≠ ∅ := hsome.ne_empty
    rw [entry, resolve_of_nonempty hsome]
    cases hshift : shiftOn st t with
    | none => exact ⟨by simp [hne], fun h => absurd h hne, fun _ _ => ⟨rfl, rfl⟩, by simp⟩
    | some act =>
      refine ⟨by simp, fun h => absurd h hne, by simp, ?_⟩
      rintro h _ ⟨⟩
      obtain ⟨taken, reason, hsettles, hconflict⟩ :=
        shiftConflict_settles (g := g) (s := s) (p := (reducible st t).min' h) hshift
      refine ⟨taken, reason, hsettles, ?_⟩
      rw [← hconflict]
      refine ⟨?_, rfl⟩
      change some (shiftConflict g s t act ((reducible st t).min' h)).resolution = _
      rw [hconflict]

variable {a : Automaton}

theorem conflicts_eq_conflictsAt : (generate g a).conflicts =
    (List.range a.states.size).flatMap fun s =>
      (List.range g.terminals.size).flatMap ((generate g a).conflictsAt s) := by
  rw [conflicts_eq_flatMap]
  refine List.flatMap_congr fun s _ => List.flatMap_congr fun t ht => ?_
  rw [conflictsAt_generate, if_pos (List.mem_range.mp ht)]

/-- Every cell of a table is decided by the rule: it is empty if nothing competes for it; a shift
or acceptance stands alone without reductions, and without it the earliest reduction wins; between
the two the precedences decide. The conflicts recorded there are one for each reduction that lost,
all of them counted, and then one between the shift and the winner, if there are both, counted if
a precedence is missing or the lookahead is nonassociative. The log of the table is made up of
those of its cells in order, and a cell depends only on which reductions are given. -/
theorem cell_decided (g : Grammar) (a : Automaton) {s t : Nat} {st : Automaton.State}
    (hst : a.states[s]? = some st) (ht : t < g.terminals.size) :
    let table := generate g a
    (∃ row cell, table.rows[s]? = some row ∧ row.actions[t]? = some cell ∧
      table.action s t = cell.getD .error ∧
      Decided g s t (shiftOn st t) (reducible st t) cell (table.conflictsAt s t)) ∧
    (∀ act, shiftOn st t = some act ↔
      (∃ u, act = .shift u ∧ st.target? (.terminal t) = some u) ∨
        act = .accept ∧ t = Symbol.endOfInput ∧ st.accepts = true ∧
          st.target? (.terminal t) = none) ∧
    (∀ p, p ∈ reducible st t ↔ ∃ l, (p, l) ∈ st.reduces ∧ t ∈ l) ∧
    (∀ h, (lostReductions s t (reducible st t) h).length = (reducible st t).card - 1 ∧
      ∀ c ∈ lostReductions s t (reducible st t) h, c.reason = .reduceReduce ∧ c.counted = true) ∧
    table.conflicts = (List.range a.states.size).flatMap (fun s =>
      (List.range g.terminals.size).flatMap (table.conflictsAt s)) ∧
    ∀ shift l l', (∀ p, p ∈ l ↔ p ∈ l') → resolve g s t shift l = resolve g s t shift l' := by
  intro table
  have hrow : table.rows[s]? = some (rowOf st (cells g s st)) := by
    rw [getElem?_rows, hst]
    rfl
  have hcell : (rowOf st (cells g s st)).actions[t]? = some (entry g s st t).action := by
    simp only [rowOf, List.getElem?_toArray, List.getElem?_map, getElem?_cells, if_pos ht]
    rfl
  have haction : table.action s t = (entry g s st t).action.getD .error := by
    rw [action_generate hst, if_pos ht]
  have hconflicts : table.conflictsAt s t = (entry g s st t).conflicts := by
    rw [conflictsAt_generate, if_pos ht, cellConflicts, hst]
  refine ⟨⟨_, _, hrow, hcell, haction, ?_⟩, fun act => shiftOn_eq_some, fun p => mem_reducible,
    fun h => ⟨length_lostReductions h, fun c hc => lostReductions_counted hc⟩,
    conflicts_eq_conflictsAt, fun shift l l' h => resolve_congr h⟩
  rw [hconflicts]
  exact decided_entry g s t st

end Table

def Grammar.subtractionRules : Array Production :=
  #[⟨1, #[.nonterminal 1, .terminal 2, .nonterminal 1], none,
      [⟨"e", 1⟩, ⟨"e1", 1⟩, ⟨"-", 2⟩, ⟨"-1", 2⟩, ⟨"e2", 3⟩]⟩,
    ⟨1, #[.terminal 3], none, [⟨"x", 1⟩, ⟨"x1", 1⟩]⟩]

def Grammar.subtraction : Grammar :=
  .ofProductions #[⟨"$end", none⟩, ⟨"error", none⟩, ⟨"-", some ⟨1, .left⟩⟩, ⟨"x", none⟩]
    #["$accept", "e"] (#[Definition.acceptProduction 1] ++ subtractionRules) 1

def Automaton.subtraction : Automaton where
  states :=
    #[⟨[(⟨0, 0⟩, none)], [(.nonterminal 1, 1), (.terminal 3, 2)], [], false⟩,
      ⟨[(⟨0, 1⟩, none), (⟨1, 1⟩, none)], [(.terminal 2, 3)], [], true⟩,
      ⟨[(⟨2, 1⟩, none)], [], [(2, .ofList [0, 2])], false⟩,
      ⟨[(⟨1, 2⟩, none)], [(.nonterminal 1, 4), (.terminal 3, 2)], [], false⟩,
      ⟨[(⟨1, 1⟩, none), (⟨1, 3⟩, none)], [(.terminal 2, 3)], [(1, .ofList [0, 2])], false⟩]

theorem Table.cell_decided_subtraction :
    let table := generate .subtraction .subtraction
    table.action 4 2 = .reduce 1 ∧
      Decided .subtraction 4 2 (some (.shift 3)) {1} (some (.reduce 1)) (table.conflictsAt 4 2) ∧
      table.conflictsAt 4 2 =
        [⟨4, 2, [.shift 3, .reduce 1], .reduce 1, .associativity .left, false⟩] := by
  intro table
  obtain ⟨⟨row, cell, hrow, hcell, -, hdecided⟩, -⟩ :=
    cell_decided .subtraction .subtraction (s := 4) (t := 2) rfl (by decide)
  have hrows : table.rows[4]? = some
      ⟨#[some (.reduce 1), none, some (.reduce 1), none], [], some 1⟩ := by
    cbv
  rw [hrow] at hrows
  cases hrows
  cases hcell
  refine ⟨?_, hdecided, ?_⟩
  · cbv
  · cbv

end TableParsing
