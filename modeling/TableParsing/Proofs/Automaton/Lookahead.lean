import TableParsing.Proofs.Automaton.Faithful
import TableParsing.Proofs.Propagation.Traversal

/-! The look-ahead sets found over the LR(0) collection. What is read after a nonterminal
transition is what begins the rest after the nonterminal, whatever prefix led there; what
follows it is what can come next after some prefix that led there. So the set of a reduction is
exact: it unites, over the prefixes that lead to its state, what can come next when the
production has been completed. -/

namespace TableParsing.Lookahead

variable {g : Grammar} {d : LR0.Collection}

theorem step_eq (s : Nat) (x : Symbol) : LR0.step d s x = (stateAt d s).target? x := by
  rw [LR0.step, stateAt, Array.getD_eq_getD_getElem?]
  cases d[s]? <;> rfl

theorem mem_gotos_iff {st : LR0.State} (hnodup : (st.transitions.map (·.1)).Nodup) {n r : Nat} :
    (n, r) ∈ st.gotos ↔ st.target? (.nonterminal n) = some r := by
  have hmem : (n, r) ∈ st.gotos ↔ (.nonterminal n, r) ∈ st.transitions := by
    simp only [LR0.State.gotos, List.mem_filterMap, Option.map_eq_some_iff]
    constructor
    · intro h
      obtain ⟨⟨x, r'⟩, hx, m, hm, heq⟩ := h
      cases heq
      cases x with
      | terminal t => cases hm
      | nonterminal k =>
        cases hm
        exact hx
    · intro h
      exact ⟨_, h, n, rfl, rfl⟩
  rw [hmem]
  exact (lookup_iff_mem hnodup).symm

abbrev gotoKeys (d : LR0.Collection) : Numbering Goto := Numbering.ofList ((gotos d).map (·.1))

section Keys

variable (hsymbols : ∀ st ∈ d, (st.transitions.map (·.1)).Nodup)

include hsymbols

theorem mem_gotos {e : Goto} {r : Nat} :
    (e, r) ∈ gotos d ↔ LR0.step d e.state (.nonterminal e.symbol) = some r := by
  simp only [gotos, List.mem_flatMap, List.mem_map, LR0.step, Option.bind_eq_some_iff]
  constructor
  · intro h
    obtain ⟨⟨st, s⟩, hst, ⟨n, r'⟩, hn, heq⟩ := h
    cases heq
    have hget : d[s]? = some st := by
      rw [← Array.getElem?_toList]
      exact List.mem_zipIdx_iff_getElem?.mp hst
    exact ⟨st, hget, (mem_gotos_iff (hsymbols st (Array.mem_of_getElem? hget))).mp hn⟩
  · intro h
    obtain ⟨st, hst, hr⟩ := h
    refine ⟨(st, e.state), List.mem_zipIdx_iff_getElem?.mpr ?_, (e.symbol, r),
      (mem_gotos_iff (hsymbols st (Array.mem_of_getElem? hst))).mpr hr, rfl⟩
    rw [Array.getElem?_toList]
    exact hst

theorem gotos_nodup : ((gotos d).map (·.1)).Nodup := by
  have hone : ∀ st ∈ d, (st.gotos.map (·.1)).Nodup := by
    intro st hst
    have hsym := hsymbols st hst
    rw [LR0.State.gotos, List.map_filterMap]
    rw [List.Nodup, List.pairwise_map] at hsym
    rw [List.Nodup, List.pairwise_filterMap]
    refine hsym.imp fun {e e'} hne n hn n' hn' heq => hne ?_
    obtain ⟨x, r⟩ := e
    obtain ⟨x', r'⟩ := e'
    cases x with
    | terminal t => cases hn
    | nonterminal m =>
      cases x' with
      | terminal t => cases hn'
      | nonterminal m' =>
        cases hn
        cases hn'
        exact congrArg Symbol.nonterminal heq
  rw [gotos, List.map_flatMap]
  refine List.nodup_flatMap.mpr ⟨fun e he => ?_, ?_⟩
  · have hmem : e.1 ∈ d := by
      rw [← Array.mem_toList_iff]
      exact List.mem_of_getElem? (List.mem_zipIdx_iff_getElem?.mp he)
    have hmap : (e.1.gotos.map fun x => ((⟨e.2, x.1⟩ : Goto), x.2)).map (·.1) =
        (e.1.gotos.map (·.1)).map (Goto.mk e.2) := by
      simp [Function.comp_def]
    change (List.map _ (List.map _ _)).Nodup
    rw [hmap]
    refine (hone e.1 hmem).map fun n n' heq => ?_
    exact congrArg Goto.symbol heq
  · have hidx : (d.toList.zipIdx.map (·.2)).Nodup := by
      rw [List.zipIdx_map_snd]
      exact List.nodup_range'
    rw [List.Nodup, List.pairwise_map] at hidx
    refine hidx.imp fun {e e'} hne => ?_
    rw [Function.onFun, List.disjoint_left]
    intro t ht ht'
    simp only [List.map_map, List.mem_map, Function.comp_apply] at ht ht'
    obtain ⟨_, -, rfl⟩ := ht
    obtain ⟨_, -, heq⟩ := ht'
    exact hne (congrArg Goto.state heq).symm

theorem find?_gotoKeys {e : Goto} {i : Nat} :
    (gotoKeys d).find? e = some i ↔ ∃ r, (gotos d)[i]? = some (e, r) := by
  rw [Numbering.find?_ofList (gotos_nodup hsymbols), List.getElem?_map, Option.map_eq_some_iff]
  constructor
  · intro h
    obtain ⟨⟨e, r⟩, hr, rfl⟩ := h
    exact ⟨r, hr⟩
  · intro h
    obtain ⟨r, hr⟩ := h
    exact ⟨(e, r), hr, rfl⟩

theorem size_gotoKeys : (gotoKeys d).size = (gotos d).length := by
  rw [Numbering.size, Numbering.keys_ofList (gotos_nodup hsymbols)]
  simp

theorem exists_number {s n r : Nat} (h : LR0.step d s (.nonterminal n) = some r) :
    ∃ i : Nat, (gotos d)[i]? = some (⟨s, n⟩, r) := by
  have hmem : ((⟨s, n⟩ : Goto), r) ∈ gotos d := (mem_gotos hsymbols).mpr h
  exact List.mem_iff_getElem?.mp hmem

theorem step_of_number {i : Nat} {e : Goto} {r : Nat} (h : (gotos d)[i]? = some (e, r)) :
    LR0.step d e.state (.nonterminal e.symbol) = some r :=
  (mem_gotos hsymbols).mp (List.mem_of_getElem? h)

theorem number_lt {i : Nat} {e : Goto} {r : Nat} (h : (gotos d)[i]? = some (e, r)) :
    i < (gotoKeys d).size := by
  rw [size_gotoKeys hsymbols]
  exact (List.getElem?_eq_some_iff.mp h).1

end Keys

/-- The terminal is shifted or accepted after the transition, maybe after transitions on
nullable nonterminals. -/
inductive Read (g : Grammar) (d : LR0.Collection) : Nat → Nat → Nat → Prop
  | direct {s n r t : Nat} : LR0.step d s (.nonterminal n) = some r → t ∈ directRead d r →
      Read g d s n t
  | through {s n r m t : Nat} : LR0.step d s (.nonterminal n) = some r →
      g.isNullable m = true → Read g d r m t → Read g d s n t

theorem Read.step {s n t : Nat} (h : Read g d s n t) :
    ∃ r, LR0.step d s (.nonterminal n) = some r := by
  cases h with
  | direct hr _ => exact ⟨_, hr⟩
  | through hr _ _ => exact ⟨_, hr⟩

def directReads (d : LR0.Collection) : Array TerminalSet :=
  ((gotos d).map fun (_, target) => directRead d target).toArray

def readSets (g : Grammar) (d : LR0.Collection) : Array TerminalSet :=
  Propagation.close (Propagation.ofPairs (gotoKeys d).size (readsPairs g d (gotoKeys d)))
    (directReads d)

theorem holds_directReads {i t : Nat} : Propagation.Holds (directReads d) i t ↔
    ∃ e r, (gotos d)[i]? = some (e, r) ∧ t ∈ directRead d r := by
  simp only [Propagation.Holds, directReads, List.getElem?_toArray, List.getElem?_map,
    Option.map_eq_some_iff]
  constructor
  · intro h
    obtain ⟨_, ⟨⟨e, r⟩, hr, rfl⟩, ht⟩ := h
    exact ⟨e, r, hr, ht⟩
  · intro h
    obtain ⟨e, r, hr, ht⟩ := h
    exact ⟨_, ⟨(e, r), hr, rfl⟩, ht⟩

section Reading

variable (hsymbols : ∀ st ∈ d, (st.transitions.map (·.1)).Nodup)

include hsymbols

theorem size_directReads : (directReads d).size = (gotoKeys d).size := by
  rw [size_gotoKeys hsymbols]
  simp [directReads]

theorem stateAt_nodup (s : Nat) : ((stateAt d s).transitions.map (·.1)).Nodup := by
  rw [stateAt, Array.getD_eq_getD_getElem?]
  cases hs : d[s]? with
  | none => exact List.nodup_nil
  | some st => exact hsymbols st (Array.mem_of_getElem? hs)

theorem mem_readsOf {r : Nat} {e : Goto} : e ∈ readsOf g d r ↔ e.state = r ∧
    g.isNullable e.symbol = true ∧ ∃ r', LR0.step d r (.nonterminal e.symbol) = some r' := by
  simp only [readsOf, List.mem_map, List.mem_filter, Lookahead.step_eq,
    ← mem_gotos_iff (stateAt_nodup hsymbols r)]
  constructor
  · rintro ⟨⟨m, r'⟩, ⟨hm, hnull⟩, rfl⟩
    exact ⟨rfl, hnull, r', hm⟩
  · rintro ⟨rfl, hnull, r', hm⟩
    exact ⟨(e.symbol, r'), ⟨hm, hnull⟩, rfl⟩

theorem mem_readsPairs {i j : Nat} : (i, j) ∈ readsPairs g d (gotoKeys d) ↔
    ∃ e r m r', (gotos d)[i]? = some (e, r) ∧ g.isNullable m = true ∧
      (gotos d)[j]? = some (⟨r, m⟩, r') := by
  simp only [readsPairs, List.mem_flatMap, List.mem_filterMap, mem_readsOf hsymbols,
    Option.map_eq_some_iff, find?_gotoKeys hsymbols]
  constructor
  · intro h
    obtain ⟨⟨⟨e, r⟩, k⟩, hk, t, ⟨rfl, hnull, -⟩, j', ⟨r', hr'⟩, heq⟩ := h
    cases heq
    exact ⟨e, t.state, t.symbol, r', List.mem_zipIdx_iff_getElem?.mp hk, hnull, hr'⟩
  · intro h
    obtain ⟨e, r, m, r', hi, hnull, hj⟩ := h
    exact ⟨((e, r), i), List.mem_zipIdx_iff_getElem?.mpr hi, ⟨r, m⟩,
      ⟨rfl, hnull, r', step_of_number hsymbols hj⟩, j, ⟨r', hj⟩, rfl⟩

theorem size_readSets : (readSets g d).size = (gotoKeys d).size := by
  rw [readSets, Propagation.size_close, size_directReads hsymbols]

theorem holds_readSets {i t : Nat} {e : Goto} {r : Nat} (hi : (gotos d)[i]? = some (e, r)) :
    Propagation.Holds (readSets g d) i t ↔ Read g d e.state e.symbol t := by
  constructor
  · intro h
    have hall : ∀ e r, (gotos d)[i]? = some (e, r) → Read g d e.state e.symbol t := by
      refine Propagation.holds_close_induction
        (P := fun i => ∀ e r, (gotos d)[i]? = some (e, r) → Read g d e.state e.symbol t) h ?_ ?_
      · intro i hi e r her
        obtain ⟨e', r', her', ht⟩ := holds_directReads.mp hi
        rw [her] at her'
        cases her'
        exact .direct (step_of_number hsymbols her) ht
      · intro i j hij ih e r her
        obtain ⟨e', r', m, r'', hi, hnull, hj⟩ := (mem_readsPairs hsymbols).mp hij
        rw [her] at hi
        cases hi
        exact .through (step_of_number hsymbols her) hnull (ih _ _ hj)
    exact hall e r hi
  · intro h
    obtain ⟨s, n⟩ := e
    simp only at h
    induction h generalizing i r with
    | @direct s n r' t hstep ht =>
      have hr := step_of_number hsymbols hi
      rw [hstep] at hr
      cases hr
      exact Propagation.holds_close_self (holds_directReads.mpr ⟨_, _, hi, ht⟩)
    | @through s n r' m t hstep hnull hread ih =>
      have hr := step_of_number hsymbols hi
      rw [hstep] at hr
      cases hr
      obtain ⟨r'', hr''⟩ := hread.step
      obtain ⟨j, hj⟩ := exists_number hsymbols hr''
      refine Propagation.holds_close_of_pair (size_directReads hsymbols) (number_lt hsymbols hi) ?_
        (ih hj)
      exact (mem_readsPairs hsymbols).mpr ⟨_, _, m, r'', hi, hnull, hj⟩

end Reading

section Represented

variable (h : LR0.Represents g d)

include h

theorem mem_directRead {γ : List Symbol} {r t : Nat} (hγ : stateAfter (LR0.step d) γ = some r) :
    t ∈ directRead d r ↔ ∃ i, Viable g γ i ∧ i.next g = some (.terminal t) := by
  obtain ⟨st, hst, -, hd⟩ := h.state γ r hγ
  have hat : stateAt d r = st := by
    rw [stateAt, Array.getD_eq_getD_getElem?, hst, Option.getD_some]
  have hshift : t ∈ TerminalSet.ofList (st.shifts.map (·.1)) ↔
      ∃ s, st.transitions.lookup (.terminal t) = some s := by
    have hnodup := h.symbols_nodup st (Array.mem_of_getElem? hst)
    simp only [TerminalSet.mem_ofList, lookup_iff_mem hnodup, LR0.State.shifts, List.mem_map,
      List.mem_filterMap, Option.map_eq_some_iff]
    constructor
    · intro hmem
      obtain ⟨_, ⟨⟨x, s⟩, hx, u, hu, rfl⟩, rfl⟩ := hmem
      cases x with
      | terminal v =>
        cases hu
        exact ⟨s, hx⟩
      | nonterminal n => cases hu
    · intro hmem
      obtain ⟨s, hs⟩ := hmem
      exact ⟨_, ⟨_, hs, t, rfl, rfl⟩, rfl⟩
  rw [directRead, hat]
  by_cases ht : t = Symbol.endOfInput
  · subst ht
    have hnot : Symbol.endOfInput ∉ TerminalSet.ofList (st.shifts.map (·.1)) := by
      rw [hshift, hd.moves]
      intro hmem
      exact hmem.1 rfl
    rw [← hd.accepts]
    by_cases hacc : st.accepts = true
    · simp [hacc, TerminalSet.mem_insert]
    · simp [hacc, hnot]
  · have hiff : t ∈ TerminalSet.ofList (st.shifts.map (·.1)) ↔
        ∃ i, Viable g γ i ∧ i.next g = some (.terminal t) := by
      rw [hshift, hd.moves]
      refine and_iff_right ?_
      simpa using ht
    rw [← hiff]
    split
    · rw [TerminalSet.mem_insert, or_iff_left ht]
    · rfl

theorem read_skip {x : Symbol} {t : Nat} (base : ∀ γ s n k,
      stateAfter (LR0.step d) γ = some s → Viable g (.nonterminal n :: γ) k →
        k.next g = some x → Read g d s n t)
    {γ α β : List Symbol} {k : Item} {s n : Nat} (hγ : stateAfter (LR0.step d) γ = some s)
    (hk : Viable g (.nonterminal n :: γ) k) (hrest : (k.right g).drop k.index = α ++ x :: β)
    (hα : ∀ y ∈ α, g.Nullable y) : Read g d s n t := by
  -- each nullable symbol is one more transition passed before anything is read
  induction α generalizing γ k s n with
  | nil => exact base γ s n k hγ hk (Item.next_of_drop hrest).1
  | cons y α ih =>
    obtain ⟨hnext, hlater⟩ := Item.next_of_drop hrest
    rw [List.forall_mem_cons] at hα
    cases y with
    | terminal u => exact absurd hα.1 (Grammar.not_nullable_terminal u)
    | nonterminal m =>
      obtain ⟨r, hstep, hr⟩ := h.exists_step hγ hk
      have hadvance := Viable.advance hk hnext (by simp)
      exact .through hstep hα.1 (ih hr hadvance hlater hα.2)

theorem read_of_begins {x : Symbol} {t : Nat} (hx : g.Begins x t) {γ α β : List Symbol}
    {k : Item} {s n : Nat} (hγ : stateAfter (LR0.step d) γ = some s)
    (hk : Viable g (.nonterminal n :: γ) k)
    (hrest : (k.right g).drop k.index = α ++ x :: β) (hα : ∀ y ∈ α, g.Nullable y) :
    Read g d s n t := by
  induction hx generalizing γ α β k s n with
  | terminal t =>
    refine read_skip h (fun γ s n k hγ hk hnext => ?_) hγ hk hrest hα
    obtain ⟨r, hstep, hr⟩ := h.exists_step hγ hk
    exact .direct hstep ((mem_directRead h hr).mpr ⟨k, hk, hnext⟩)
  | nonterminal hlead _ ih =>
    refine read_skip h (fun γ s n k hγ hk hnext => ?_) hγ hk hrest hα
    obtain ⟨p, hp, α', β', hright, hα'⟩ := hlead
    exact ih hγ (.expand hk hnext hp) hright hα'

variable (wf : g.WellFormed)

include wf

theorem Read.first {s n t : Nat} (hread : Read g d s n t) {γ : List Symbol}
    (hγ : stateAfter (LR0.step d) γ = some s) : ∃ i, Viable g γ i ∧
      i.next g = some (.nonterminal n) ∧ t ∈ (g.tail i.production (i.index + 1)).first := by
  induction hread generalizing γ with
  | @direct s n r t hstep ht =>
    have hr : stateAfter (LR0.step d) (.nonterminal n :: γ) = some r := by
      rw [stateAfter, hγ, Option.bind_some, hstep]
    obtain ⟨k, hk, hnext⟩ := (mem_directRead h hr).mp ht
    exact wf.first_before hk ((wf.mem_first_drop hnext).mpr (Or.inl (.terminal t)))
  | @through s n r m t hstep hnull _ ih =>
    have hr : stateAfter (LR0.step d) (.nonterminal n :: γ) = some r := by
      rw [stateAfter, hγ, Option.bind_some, hstep]
    obtain ⟨k, hk, hnext, ht⟩ := ih hr
    exact wf.first_before hk ((wf.mem_first_drop hnext).mpr (Or.inr ⟨hnull, ht⟩))

theorem read_iff {γ : List Symbol} {s n t : Nat} (hγ : stateAfter (LR0.step d) γ = some s) :
    Read g d s n t ↔ ∃ i, Viable g γ i ∧ i.next g = some (.nonterminal n) ∧
      t ∈ (g.tail i.production (i.index + 1)).first := by
  constructor
  · intro hread
    exact hread.first h wf hγ
  · intro hfirst
    obtain ⟨i, hi, hnext, ht⟩ := hfirst
    rw [Item.tail_eq] at ht
    obtain ⟨α, x, β, hrest, hα, hx⟩ := wf.mem_prefixes.mp ht
    exact read_of_begins h hx hγ (.advance hi hnext (by simp)) hrest hα

end Represented

def passedFrom (d : LR0.Collection) : Option Nat → List Symbol → List (Nat × Symbol)
  | some s, x :: l => (s, x) :: passedFrom d (LR0.step d s x) l
  | some _, [] => []
  | none, _ => []

@[simp] theorem passedFrom_nil (s : Option Nat) : passedFrom d s [] = [] := by
  cases s <;> rfl

theorem Walk.step_eq (w : Walk) (x : Symbol) :
    (Walk.step d w x).current = w.current.bind (LR0.step d · x) ∧
      (Walk.step d w x).passed.reverse = w.passed.reverse ++ passedFrom d w.current [x] := by
  rw [Walk.step]
  cases hw : w.current with
  | none => simp [hw, passedFrom]
  | some s => simp [Lookahead.step_eq, passedFrom]

theorem stateFrom_cons_reverse (s : Nat) (x : Symbol) (l : List Symbol) :
    stateFrom (LR0.step d) s (x :: l).reverse =
      (LR0.step d s x).bind (stateFrom (LR0.step d) · l.reverse) := by
  rw [List.reverse_cons, stateFrom_append]
  rfl

theorem foldl_walk (l : List Symbol) (w : Walk) :
    (l.foldl (Walk.step d) w).current =
        w.current.bind (stateFrom (LR0.step d) · l.reverse) ∧
      (l.foldl (Walk.step d) w).passed.reverse =
        w.passed.reverse ++ passedFrom d w.current l := by
  induction l generalizing w with
  | nil =>
    constructor
    · exact (Option.bind_fun_some _).symm
    · simp
  | cons x l ih =>
    obtain ⟨hcurrent, hpassed⟩ := Walk.step_eq (d := d) w x
    rw [List.foldl_cons, (ih _).1, (ih _).2, hcurrent, hpassed]
    cases hw : w.current with
    | none => simp [passedFrom]
    | some s =>
      simp only [Option.bind_some, stateFrom_cons_reverse, passedFrom, passedFrom_nil,
        List.append_assoc, List.singleton_append, and_self]

theorem current_walk (s : Nat) (right : Array Symbol) :
    (walk d s right).current = stateFrom (LR0.step d) s right.toList.reverse := by
  rw [walk, ← Array.foldl_toList, (foldl_walk _ _).1, Option.bind_some]

theorem getElem?_passedFrom {s i u : Nat} {x : Symbol} {l : List Symbol} :
    (passedFrom d (some s) l)[i]? = some (u, x) ↔
      l[i]? = some x ∧ stateFrom (LR0.step d) s (l.take i).reverse = some u := by
  induction l generalizing s i with
  | nil => simp [passedFrom]
  | cons y l ih =>
    cases i with
    | zero => simp [passedFrom, stateFrom, and_comm]
    | succ i =>
      rw [passedFrom, List.getElem?_cons_succ, List.getElem?_cons_succ, List.take_succ_cons,
        stateFrom_cons_reverse]
      cases hs : LR0.step d s y with
      | none => simp [passedFrom]
      | some v => rw [ih, Option.bind_some]

theorem mem_endings {s p : Nat} {e : Goto} : e ∈ endings g d s p ↔
    ∃ i : Item, i.production = p ∧ i.next g = some (.nonterminal e.symbol) ∧
      stateFrom (LR0.step d) s ((i.right g).take i.index).reverse = some e.state ∧
        (g.tail p (i.index + 1)).nullable = true := by
  have hpassed : (walk d s (g.production p).right).passed.reverse =
      passedFrom d (some s) (g.production p).right.toList := by
    rw [walk, ← Array.foldl_toList, (foldl_walk _ _).2]
    rfl
  simp only [endings, hpassed, List.mem_filterMap]
  constructor
  · intro h
    obtain ⟨⟨⟨u, x⟩, i⟩, hi, he⟩ := h
    have hget := getElem?_passedFrom.mp (List.mem_zipIdx_iff_getElem?.mp hi)
    cases x with
    | terminal t => cases he
    | nonterminal n =>
      simp only [Option.ite_none_right_eq_some, Option.some.injEq] at he
      obtain ⟨hnull, rfl⟩ := he
      refine ⟨⟨p, i⟩, rfl, ?_, hget.2, hnull⟩
      rw [Item.next_eq]
      exact hget.1
  · intro h
    obtain ⟨i, rfl, hnext, hstate, hnull⟩ := h
    rw [Item.next_eq] at hnext
    refine ⟨((e.state, .nonterminal e.symbol), i.index), ?_, by simp [hnull]⟩
    exact List.mem_zipIdx_iff_getElem?.mpr (getElem?_passedFrom.mpr ⟨hnext, hstate⟩)

/-- The terminal can come next after the transition: it is read after it, or the transition ends
a production of one that it can come next after. -/
inductive Followed (g : Grammar) (d : LR0.Collection) : Nat → Nat → Nat → Prop
  | read {s n t : Nat} : Read g d s n t → Followed g d s n t
  | ending {s n t : Nat} {i : Item} {s' m r : Nat} : Followed g d s n t →
      i.production ∈ g.productionsOf n → i.next g = some (.nonterminal m) →
      stateFrom (LR0.step d) s ((i.right g).take i.index).reverse = some s' →
      (g.tail i.production (i.index + 1)).nullable = true →
      LR0.step d s' (.nonterminal m) = some r → Followed g d s' m t

theorem Followed.step {s n t : Nat} (h : Followed g d s n t) :
    ∃ r, LR0.step d s (.nonterminal n) = some r := by
  cases h with
  | read hread => exact hread.step
  | ending _ _ _ _ _ hr => exact ⟨_, hr⟩

theorem follows_eq : follows g d (gotoKeys d) = Propagation.close
    (Propagation.ofPairs (gotoKeys d).size (includesPairs g d (gotoKeys d))) (readSets g d) := by
  rw [readSets, ← Propagation.traverse_eq_close, ← Propagation.traverse_eq_close]
  rfl

section Following

variable (hsymbols : ∀ st ∈ d, (st.transitions.map (·.1)).Nodup)

include hsymbols

theorem mem_includesPairs {i j : Nat} : (j, i) ∈ includesPairs g d (gotoKeys d) ↔
    ∃ t r p e r', (gotos d)[i]? = some (t, r) ∧ p ∈ g.productionsOf t.symbol ∧
      e ∈ endings g d t.state p ∧ (gotos d)[j]? = some (e, r') := by
  simp only [includesPairs, List.mem_flatMap, List.mem_filterMap, Option.map_eq_some_iff,
    find?_gotoKeys hsymbols]
  constructor
  · intro h
    obtain ⟨⟨⟨t, r⟩, k⟩, hk, p, hp, e, he, j', ⟨r', hr'⟩, heq⟩ := h
    cases heq
    exact ⟨t, r, p, e, r', List.mem_zipIdx_iff_getElem?.mp hk, hp, he, hr'⟩
  · intro h
    obtain ⟨t, r, p, e, r', hi, hp, he, hj⟩ := h
    exact ⟨((t, r), i), List.mem_zipIdx_iff_getElem?.mpr hi, p, hp, e, he, j, ⟨r', hj⟩, rfl⟩

theorem size_follows : (follows g d (gotoKeys d)).size = (gotos d).length := by
  rw [follows_eq, Propagation.size_close, size_readSets hsymbols, size_gotoKeys hsymbols]

theorem holds_follows {i t : Nat} {e : Goto} {r : Nat} (hi : (gotos d)[i]? = some (e, r)) :
    Propagation.Holds (follows g d (gotoKeys d)) i t ↔ Followed g d e.state e.symbol t := by
  rw [follows_eq]
  constructor
  · intro h
    have hall : ∀ e r, (gotos d)[i]? = some (e, r) → Followed g d e.state e.symbol t := by
      refine Propagation.holds_close_induction
        (P := fun i => ∀ e r, (gotos d)[i]? = some (e, r) → Followed g d e.state e.symbol t)
        h ?_ ?_
      · intro i hi e r her
        exact .read ((holds_readSets hsymbols her).mp hi)
      · intro i j hij ih e r her
        obtain ⟨t', r', p, e', r'', hj, hp, he, hi⟩ := (mem_includesPairs hsymbols).mp hij
        rw [her] at hi
        cases hi
        obtain ⟨k, rfl, hnext, hstate, hnull⟩ := mem_endings.mp he
        exact .ending (ih _ _ hj) hp hnext hstate hnull (step_of_number hsymbols her)
    exact hall e r hi
  · intro h
    obtain ⟨s, n⟩ := e
    simp only at h
    induction h generalizing i r with
    | read hread => exact Propagation.holds_close_self ((holds_readSets hsymbols hi).mpr hread)
    | @ending s n t k s' m r' hfollowed hp hnext hstate hnull hr ih =>
      obtain ⟨r'', hr''⟩ := hfollowed.step
      obtain ⟨j, hj⟩ := exists_number hsymbols hr''
      refine Propagation.holds_close_of_pair (size_readSets hsymbols) (number_lt hsymbols hi) ?_
        (ih hj)
      exact (mem_includesPairs hsymbols).mpr
        ⟨_, _, _, _, _, hj, hp, mem_endings.mpr ⟨k, rfl, hnext, hstate, hnull⟩, hi⟩

end Following

section Represented

variable (wf : g.WellFormed) (h : LR0.Represents g d)

include wf h

theorem Followed.follows {s n t : Nat} (hf : Followed g d s n t) :
    ∃ γ, stateAfter (LR0.step d) γ = some s ∧ Follows g γ n t := by
  induction hf with
  | @read s n t hread =>
    obtain ⟨r, hr⟩ := hread.step
    obtain ⟨st, hst, -⟩ := Option.bind_eq_some_iff.mp hr
    obtain ⟨γ, hγ⟩ := h.reached s (Array.getElem?_eq_some_iff.mp hst).1
    obtain ⟨i, hi, hnext, ht⟩ := (read_iff h wf hγ).mp hread
    exact ⟨γ, hγ, i, hi, hnext, Or.inl ht⟩
  | @ending s n t i s' m r _ hp hnext hstate hnull _ ih =>
    obtain ⟨γ, hγ, hfollows⟩ := ih
    -- the prefix goes on with what the production has before the nonterminal
    have hzero := wf.ne_zero_of_needed hfollows.needed hp
    have hle : i.index ≤ (i.right g).length := by
      rw [Item.next_eq, List.getElem?_eq_some_iff] at hnext
      exact Nat.le_of_lt hnext.1
    have hend : .terminal Symbol.endOfInput ∉ (i.right g).take i.index := by
      intro hmem
      exact wf.end_notMem_right hzero (List.mem_of_mem_take hmem)
    have hahead := (hfollows.ahead hp).take hle hend
    refine ⟨((i.right g).take i.index).reverse ++ γ, ?_, i, hahead.viable, hnext,
      Or.inr ⟨hnull, hahead⟩⟩
    rw [stateAfter_append, hγ, Option.bind_some, hstate]

theorem followed_of_ahead {γ : List Symbol} {i : Item} {t : Nat} (hahead : Ahead g γ i t) :
    ∃ δ s, γ = ((i.right g).take i.index).reverse ++ δ ∧
      stateAfter (LR0.step d) δ = some s ∧
        Followed g d s (g.production i.production).left t := by
  induction hahead with
  | advance _ hx _ ih =>
    obtain ⟨δ, s, rfl, hδ, hf⟩ := ih
    refine ⟨δ, s, ?_, hδ, hf⟩
    rw [Item.take_advance hx, List.reverse_append]
    rfl
  | @first γ j n p t hj hn hp ht =>
    obtain ⟨s, hs⟩ := h.exists_stateAfter hj
    refine ⟨γ, s, rfl, hs, .read ?_⟩
    obtain ⟨-, hleft⟩ := Grammar.mem_productionsOf.mp hp
    rw [Item.start, hleft]
    exact (read_iff h wf hs).mpr ⟨j, hj, hn, ht⟩
  | @inherit γ j n p t hj hn hp hnull ih =>
    -- the item inherited from came from a shorter prefix, whose transition it ends
    obtain ⟨δ, s₀, hγ, hδ, hf⟩ := ih
    obtain ⟨s, hs⟩ := h.exists_stateAfter hj.viable
    obtain ⟨r, hr, -⟩ := h.exists_step hs (.advance hj.viable hn (by simp))
    refine ⟨γ, s, rfl, hs, ?_⟩
    obtain ⟨-, hleft⟩ := Grammar.mem_productionsOf.mp hp
    rw [Item.start, hleft]
    refine .ending hf (Grammar.mem_productionsOf.mpr ⟨wf.viable_lt hj.viable, rfl⟩) hn ?_ hnull
      (r := r) ?_
    · rw [hγ, stateAfter_append, hδ, Option.bind_some] at hs
      exact hs
    · exact hr

end Represented

abbrev reductionKeys (d : LR0.Collection) : Numbering Reduction := Numbering.ofList (reductions d)

theorem mem_reductions {q p : Nat} :
    ⟨q, p⟩ ∈ reductions d ↔ ∃ st, d[q]? = some st ∧ p ∈ st.reduces := by
  simp only [reductions, List.mem_flatMap, List.mem_map]
  constructor
  · intro h
    obtain ⟨⟨st, s⟩, hst, p', hp, heq⟩ := h
    cases heq
    refine ⟨st, ?_, hp⟩
    rw [← Array.getElem?_toList]
    exact List.mem_zipIdx_iff_getElem?.mp hst
  · intro h
    obtain ⟨st, hst, hp⟩ := h
    refine ⟨(st, q), List.mem_zipIdx_iff_getElem?.mpr ?_, p, hp, rfl⟩
    rw [Array.getElem?_toList]
    exact hst

theorem mem_additions {keys : Numbering Reduction} {sets : Array TerminalSet} {r : Nat}
    {a : TerminalSet} : (r, a) ∈ additions g d keys sets ↔
      ∃ (i : Nat) (t : Goto) (target p q : Nat), (gotos d)[i]? = some (t, target) ∧
        p ∈ g.productionsOf t.symbol ∧
        (walk d t.state (g.production p).right).current = some q ∧
        keys.find? ⟨q, p⟩ = some r ∧ a = sets.getD i ∅ := by
  simp only [additions, List.mem_flatMap, List.mem_filterMap]
  constructor
  · intro h
    obtain ⟨⟨⟨t, target⟩, i⟩, hi, p, hp, heq⟩ := h
    obtain ⟨q, hq, heq⟩ := Option.bind_eq_some_iff.mp heq
    obtain ⟨r', hr', heq⟩ := Option.bind_eq_some_iff.mp heq
    cases heq
    exact ⟨i, t, target, p, q, List.mem_zipIdx_iff_getElem?.mp hi, hp, hq, hr', rfl⟩
  · intro h
    obtain ⟨i, t, target, p, q, hi, hp, hq, hr, rfl⟩ := h
    refine ⟨((t, target), i), List.mem_zipIdx_iff_getElem?.mpr hi, p, hp, ?_⟩
    simp [hq, hr]

theorem lookahead?_eq_none {q p : Nat} (hq : ∀ st, d[q]? = some st → p ∉ st.reduces) :
    (compute g d).lookahead? q p = none := by
  rw [Sets.lookahead?, Option.map_eq_none_iff, compute, Numbering.find?_eq_none_iff,
    Numbering.mem_keys_ofList, mem_reductions]
  intro h
  obtain ⟨st, hst, hp⟩ := h
  exact hq st hst hp

/-- The look-ahead set of a reduction holds exactly what can come next when its production has
been completed after a prefix leading to its state. -/
theorem mem_lookahead? (wf : g.WellFormed) (h : LR0.Represents g d) {q p : Nat}
    {st : LR0.State} (hq : d[q]? = some st) (hp : p ∈ st.reduces) :
    ∃ lookaheads, (compute g d).lookahead? q p = some lookaheads ∧ ∀ t, t ∈ lookaheads ↔
      ∃ γ, stateAfter (LR0.step d) γ = some q ∧ Ahead g γ (.completed g p) t := by
  obtain ⟨r, hr⟩ := (reductionKeys d).exists_find?_of_mem
    (Numbering.mem_keys_ofList.mpr (mem_reductions.mpr ⟨st, hq, hp⟩))
  have hlt := (reductionKeys d).find?_lt hr
  refine ⟨_, congrArg (Option.map _) hr, fun t => ?_⟩
  change t ∈ (Propagation.accumulate (Array.replicate (reductionKeys d).size ∅)
    (additions g d (reductionKeys d) (follows g d (gotoKeys d)))).getD r ∅ ↔ _
  rw [Propagation.mem_getD_iff_holds, Propagation.holds_accumulate TerminalSet.mem_union,
    or_iff_right Propagation.not_holds_replicate_empty, Array.size_replicate]
  simp only [hlt, true_and, mem_additions]
  constructor
  · intro ht
    obtain ⟨_, ⟨i, e, target, p', q', hi, hp', hwalk, hr', rfl⟩, ht⟩ := ht
    -- only the walks that end in this reduction add to its set
    have hkey := (Numbering.find?_eq_some_iff _).mp hr'
    rw [(Numbering.find?_eq_some_iff _).mp hr] at hkey
    cases hkey
    rw [Propagation.mem_getD_iff_holds, holds_follows h.symbols_nodup hi] at ht
    obtain ⟨γ, hγ, hfollows⟩ := ht.follows wf h
    rw [current_walk] at hwalk
    refine ⟨_, ?_, wf.ahead_completed (hfollows.ahead hp')
      (wf.ne_zero_of_needed hfollows.needed hp')⟩
    rw [stateAfter_append, hγ, Option.bind_some, hwalk]
  · intro ht
    obtain ⟨γ, hγ, hahead⟩ := ht
    obtain ⟨δ, s, rfl, hδ, hf⟩ := followed_of_ahead wf h hahead
    obtain ⟨target, htarget⟩ := hf.step
    obtain ⟨i, hi⟩ := exists_number h.symbols_nodup htarget
    rw [stateAfter_append, hδ, Option.bind_some, Item.take_completed] at hγ
    refine ⟨_, ⟨i, _, target, p, q, hi, ?_, ?_, hr, rfl⟩, ?_⟩
    · exact Grammar.mem_productionsOf.mpr ⟨wf.viable_lt hahead.viable, rfl⟩
    · rw [current_walk]
      exact hγ
    · rw [Propagation.mem_getD_iff_holds, holds_follows h.symbols_nodup hi]
      exact hf

end TableParsing.Lookahead
