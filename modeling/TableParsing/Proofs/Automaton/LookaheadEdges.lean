import TableParsing.Proofs.Automaton.Method
import TableParsing.Proofs.Grammar.ExactSets

/-! Nothing is missing where the look-ahead sets are computed. A transition on a nonterminal
leaves a state in which some item has the nonterminal after its dot, so every production of it can
be walked from there to a state that reduces it, and every nonterminal passed on the way has a
transition of its own. The numbered pairs are therefore all that the relations between transitions
have: an edge is never left out because a state or a transition was not found. -/

namespace TableParsing.Lookahead

variable {g : Grammar} {d : LR0.Collection}

/-- The first transition leads to where the second starts, on a nonterminal that derives
nothing. -/
structure Reads (g : Grammar) (d : LR0.Collection) (e e' : Goto) : Prop where
  leads : LR0.step d e.state (.nonterminal e.symbol) = some e'.state
  moves : ∃ r, LR0.step d e'.state (.nonterminal e'.symbol) = some r
  nullable : g.Derives [.nonterminal e'.symbol] []

/-- A production of the second transition's nonterminal goes on from where that starts to where
the first starts, over its nonterminal, and then over what derives nothing. -/
structure Includes (g : Grammar) (d : LR0.Collection) (e e' : Goto) : Prop where
  moves : ∃ r, LR0.step d e'.state (.nonterminal e'.symbol) = some r
  ends : ∃ p ∈ g.productionsOf e'.symbol, ∃ β γ,
    (g.production p).right.toList = β ++ .nonterminal e.symbol :: γ ∧ g.Derives γ [] ∧
      stateFrom (LR0.step d) e'.state β.reverse = some e.state

/-- The production of the reduction leads from where the transition on its left side starts to the
state of the reduction. -/
structure Lookback (g : Grammar) (d : LR0.Collection) (r : Reduction) (e : Goto) : Prop where
  moves : ∃ target, LR0.step d e.state (.nonterminal e.symbol) = some target
  production : r.production ∈ g.productionsOf e.symbol
  leads : stateFrom (LR0.step d) e.state (g.production r.production).right.toList.reverse =
    some r.state

def Joined (d : LR0.Collection) (pairs : List (Nat × Nat)) (e e' : Goto) : Prop :=
  ∃ i j, (gotoKeys d).find? e = some i ∧ (gotoKeys d).find? e' = some j ∧
    j ∈ (Propagation.ofPairs (gotoKeys d).size pairs).getD i []

theorem joined_iff (hsymbols : ∀ st ∈ d, (st.transitions.map (·.1)).Nodup)
    {pairs : List (Nat × Nat)} {e e' : Goto} : Joined d pairs e e' ↔ ∃ i j r r',
      (gotos d)[i]? = some (e, r) ∧ (gotos d)[j]? = some (e', r') ∧ (i, j) ∈ pairs := by
  simp only [Joined, Propagation.mem_ofPairs]
  constructor
  · rintro ⟨i, j, hi, hj, -, hpair⟩
    obtain ⟨r, hr⟩ := (find?_gotoKeys hsymbols).mp hi
    obtain ⟨r', hr'⟩ := (find?_gotoKeys hsymbols).mp hj
    exact ⟨i, j, r, r', hr, hr', hpair⟩
  · rintro ⟨i, j, r, r', hr, hr', hpair⟩
    have hi := (find?_gotoKeys hsymbols).mpr ⟨r, hr⟩
    exact ⟨i, j, hi, (find?_gotoKeys hsymbols).mpr ⟨r', hr'⟩, (gotoKeys d).find?_lt hi, hpair⟩

theorem mem_endings_iff_split (wf : g.WellFormed) {s p : Nat} {e : Goto} :
    e ∈ endings g d s p ↔ ∃ β γ,
      (g.production p).right.toList = β ++ .nonterminal e.symbol :: γ ∧ g.Derives γ [] ∧
        stateFrom (LR0.step d) s β.reverse = some e.state := by
  rw [mem_endings]
  constructor
  · rintro ⟨i, rfl, hnext, hstate, hnull⟩
    refine ⟨(i.right g).take i.index, (i.right g).drop (i.index + 1), ?_, ?_, hstate⟩
    · rw [← Item.drop_eq hnext, List.take_append_drop]
      rfl
    · rwa [Item.tail_eq, wf.nullable_prefixes_iff_derives] at hnull
  · rintro ⟨β, γ, hright, hγ, hstate⟩
    have hi : Item.right g ⟨p, β.length⟩ = β ++ .nonterminal e.symbol :: γ := hright
    refine ⟨⟨p, β.length⟩, rfl, ?_, ?_, ?_⟩
    · rw [Item.next_eq, hi]
      simp
    · rwa [hi, List.take_left]
    · rw [Grammar.tail_eq, wf.nullable_prefixes_iff_derives, hright]
      simpa using hγ

theorem includes_iff (wf : g.WellFormed) {e e' : Goto} : Includes g d e e' ↔
    (∃ r, LR0.step d e'.state (.nonterminal e'.symbol) = some r) ∧
      ∃ p ∈ g.productionsOf e'.symbol, e ∈ endings g d e'.state p := by
  simp only [mem_endings_iff_split wf]
  exact ⟨fun h => ⟨h.moves, h.ends⟩, fun h => ⟨h.1, h.2⟩⟩

structure Walked (g : Grammar) (d : LR0.Collection) (e : Goto) (p : Nat) : Prop where
  prefixes : ∀ k ≤ (g.production p).right.size, ∃ q st,
    (walk d e.state ((g.production p).right.take k)).current = some q ∧ d[q]? = some st
  ends : ∃ q st, (walk d e.state (g.production p).right).current = some q ∧ d[q]? = some st ∧
    p ∈ st.reduces
  endings : ∀ e' ∈ endings g d e.state p, ∃ j, (gotoKeys d).find? e' = some j

section Represented

variable (wf : g.WellFormed) (h : LR0.Represents g d) {s n p : Nat}

include h

theorem exists_needed {r : Nat} (hr : LR0.step d s (.nonterminal n) = some r) :
    ∃ γ, stateAfter (LR0.step d) γ = some s ∧ Needed g γ n := by
  obtain ⟨st, hst, -⟩ := Option.bind_eq_some_iff.mp hr
  obtain ⟨γ, hγ⟩ := h.reached s (Array.getElem?_eq_some_iff.mp hst).1
  exact ⟨γ, hγ, (h.viable_of_step hγ hr).2⟩

include wf

theorem exists_walk {γ : List Symbol} (hγ : stateAfter (LR0.step d) γ = some s)
    (hn : Needed g γ n) (hp : p ∈ g.productionsOf n) {k : Nat}
    (hk : k ≤ (g.production p).right.toList.length) :
    ∃ δ q, stateFrom (LR0.step d) s ((g.production p).right.toList.take k).reverse = some q ∧
      stateAfter (LR0.step d) δ = some q ∧ Viable g δ ⟨p, k⟩ := by
  have hend : .terminal Symbol.endOfInput ∉ (g.production p).right.toList.take k := by
    intro hmem
    exact wf.end_notMem_right (wf.ne_zero_of_needed hn hp) (List.mem_of_mem_take hmem)
  have hviable := (hn.viable hp).take hk hend
  obtain ⟨q, hq⟩ := h.exists_stateAfter hviable
  refine ⟨_, q, ?_, hq, hviable⟩
  rw [stateAfter_append, hγ, Option.bind_some] at hq
  exact hq

variable {e : Goto} {r : Nat} (hr : LR0.step d e.state (.nonterminal e.symbol) = some r)

include hr

omit wf in
theorem target_found : ∃ st, d[r]? = some st := by
  obtain ⟨γ, hγ, -⟩ := exists_needed h hr
  have hnext : stateAfter (LR0.step d) (.nonterminal e.symbol :: γ) = some r := by
    rw [stateAfter, hγ, Option.bind_some, hr]
  obtain ⟨st, hst, -⟩ := h.state _ r hnext
  exact ⟨st, hst⟩

variable (hp : p ∈ g.productionsOf e.symbol)

include hp

theorem ending_moves {e' : Goto} (he' : e' ∈ endings g d e.state p) :
    ∃ r', LR0.step d e'.state (.nonterminal e'.symbol) = some r' := by
  obtain ⟨i, rfl, hnext, hstate, -⟩ := mem_endings.mp he'
  obtain ⟨γ, hγ, hn⟩ := exists_needed h hr
  have hlt : i.index < (i.right g).length := by
    rw [Item.next_eq, List.getElem?_eq_some_iff] at hnext
    exact hnext.1
  obtain ⟨δ, q, hq, hδ, hi⟩ := exists_walk wf h hγ hn hp (Nat.le_of_lt hlt)
  have hsame : e'.state = q := Option.some.inj (hstate.symm.trans hq)
  obtain ⟨r', hr', -⟩ := h.exists_step hδ (.advance hi hnext (by simp))
  exact ⟨r', hsame ▸ hr'⟩

theorem walk_reduces : ∃ q st, (walk d e.state (g.production p).right).current = some q ∧
    d[q]? = some st ∧ p ∈ st.reduces := by
  obtain ⟨γ, hγ, hn⟩ := exists_needed h hr
  obtain ⟨δ, q, hq, hδ, hi⟩ := exists_walk wf h hγ hn hp (Nat.le_refl _)
  obtain ⟨st, hst, -, hd⟩ := h.state δ q hδ
  rw [List.take_length] at hq
  exact ⟨q, st, by rw [current_walk, hq], hst, (hd.completed p).mpr hi⟩

theorem walked : Walked g d e p := by
  refine ⟨fun k hk => ?_, walk_reduces wf h hr hp, fun e' he' => ?_⟩
  · obtain ⟨γ, hγ, hn⟩ := exists_needed h hr
    obtain ⟨δ, q, hq, hδ, -⟩ := exists_walk wf h hγ hn hp (k := k) (by simpa using hk)
    obtain ⟨st, hst, -⟩ := h.state δ q hδ
    exact ⟨q, st, by simpa [current_walk] using hq, hst⟩
  · obtain ⟨r', hr'⟩ := ending_moves wf h hr hp he'
    obtain ⟨j, hj⟩ := exists_number h.symbols_nodup hr'
    exact ⟨j, (find?_gotoKeys h.symbols_nodup).mpr ⟨r', hj⟩⟩

end Represented

section Edges

variable (wf : g.WellFormed) (h : LR0.Represents g d) {e e' : Goto}

include wf h

theorem reads_iff_joined : Reads g d e e' ↔ Joined d (readsPairs g d (gotoKeys d)) e e' := by
  rw [joined_iff h.symbols_nodup]
  simp only [mem_readsPairs h.symbols_nodup]
  constructor
  · rintro ⟨hleads, ⟨r', hr'⟩, hnull⟩
    obtain ⟨i, hi⟩ := exists_number h.symbols_nodup hleads
    obtain ⟨j, hj⟩ := exists_number h.symbols_nodup hr'
    exact ⟨i, j, _, r', hi, hj, e, _, _, r', hi, wf.isNullable_iff_derives.mpr hnull, hj⟩
  · rintro ⟨i, j, r, r', hi, hj, e₁, r₁, m, r₁', hi', hnull, hj'⟩
    rw [hi] at hi'
    rw [hj] at hj'
    cases hi'
    cases hj'
    exact ⟨step_of_number h.symbols_nodup hi, ⟨r', step_of_number h.symbols_nodup hj⟩,
      wf.isNullable_iff_derives.mp hnull⟩

theorem includes_iff_joined :
    Includes g d e e' ↔ Joined d (includesPairs g d (gotoKeys d)) e e' := by
  rw [joined_iff h.symbols_nodup, includes_iff wf]
  simp only [mem_includesPairs h.symbols_nodup]
  constructor
  · rintro ⟨⟨r', hr'⟩, p, hp, hends⟩
    obtain ⟨r, hr⟩ := ending_moves wf h hr' hp hends
    obtain ⟨i, hi⟩ := exists_number h.symbols_nodup hr
    obtain ⟨j, hj⟩ := exists_number h.symbols_nodup hr'
    exact ⟨i, j, r, r', hi, hj, e', r', p, e, r, hj, hp, hends, hi⟩
  · rintro ⟨i, j, r, r', hi, hj, t, r₁, p, e₁, r₁', hj', hp, hends, hi'⟩
    rw [hi] at hi'
    rw [hj] at hj'
    cases hi'
    cases hj'
    exact ⟨⟨r', step_of_number h.symbols_nodup hj⟩, p, hp, hends⟩

theorem lookback_added {r : Reduction} (hback : Lookback g d r e) : ∃ i j follow,
    (gotoKeys d).find? e = some i ∧ (follows g d (gotoKeys d))[i]? = some follow ∧
      (reductionKeys d).find? r = some j ∧
        (j, follow) ∈ additions g d (reductionKeys d) (follows g d (gotoKeys d)) := by
  obtain ⟨⟨target, htarget⟩, hp, hleads⟩ := hback
  obtain ⟨i, hi⟩ := exists_number h.symbols_nodup htarget
  obtain ⟨q, st, hq, hst, hreduces⟩ := walk_reduces wf h htarget hp
  rw [current_walk, hleads] at hq
  cases hq
  obtain ⟨j, hj⟩ := (reductionKeys d).exists_find?_of_mem
    (Numbering.mem_keys_ofList.mpr (mem_reductions.mpr ⟨st, hst, hreduces⟩))
  have hlt : i < (follows g d (gotoKeys d)).size := by
    rw [size_follows h.symbols_nodup]
    exact (List.getElem?_eq_some_iff.mp hi).1
  refine ⟨i, j, _, (find?_gotoKeys h.symbols_nodup).mpr ⟨target, hi⟩,
    Array.getElem?_eq_getElem hlt, hj, mem_additions.mpr ⟨i, e, target, r.production, r.state,
      hi, hp, by rw [current_walk, hleads], hj, ?_⟩⟩
  rw [Array.getD_eq_getD_getElem?, Array.getElem?_eq_getElem hlt, Option.getD_some]

end Edges

/-- Every state, transition and reduction that is looked up for the look-ahead sets is there: the
graphs of the transitions have all the edges of their relations, and every production of a
transition's nonterminal adds what follows the transition to its reduction. -/
theorem edges_complete (hg : g.Defined) (hd : LR0.build g = .ok d) :
    (∀ e r, (e, r) ∈ gotos d → (∃ st, d[r]? = some st) ∧
      (∀ e' ∈ readsOf g d r, ∃ j, (gotoKeys d).find? e' = some j) ∧
        ∀ p ∈ g.productionsOf e.symbol, Walked g d e p) ∧
    (∀ e e', Reads g d e e' ↔ Joined d (readsPairs g d (gotoKeys d)) e e') ∧
    (∀ e e', Includes g d e e' ↔ Joined d (includesPairs g d (gotoKeys d)) e e') ∧
    ∀ r e, Lookback g d r e → ∃ i j follow,
      (gotoKeys d).find? e = some i ∧ (follows g d (gotoKeys d))[i]? = some follow ∧
        (reductionKeys d).find? r = some j ∧
          (j, follow) ∈ additions g d (reductionKeys d) (follows g d (gotoKeys d)) := by
  have wf := hg.wellFormed
  have h := LR0.build_represents wf hd
  refine ⟨fun e r he => ?_, fun e e' => reads_iff_joined wf h, fun e e' => includes_iff_joined wf h,
    fun r e => lookback_added wf h⟩
  have hr := (mem_gotos h.symbols_nodup).mp he
  refine ⟨target_found h hr, fun e' he' => ?_, fun p hp => walked wf h hr hp⟩
  obtain ⟨rfl, -, r', hr'⟩ := (mem_readsOf h.symbols_nodup).mp he'
  obtain ⟨j, hj⟩ := exists_number h.symbols_nodup hr'
  exact ⟨j, (find?_gotoKeys h.symbols_nodup).mpr ⟨r', hj⟩⟩

theorem edges_complete_lenient :
    Grammar.lenient.Defined ∧ LR0.build .lenient = .ok LR0.lenient ∧
    Walked .lenient LR0.lenient ⟨4, 2⟩ 4 ∧
    Joined LR0.lenient (readsPairs .lenient LR0.lenient (gotoKeys LR0.lenient)) ⟨4, 3⟩ ⟨6, 3⟩ ∧
    Joined LR0.lenient (includesPairs .lenient LR0.lenient (gotoKeys LR0.lenient))
      ⟨6, 2⟩ ⟨4, 2⟩ ∧
    ∃ i j follow, (gotoKeys LR0.lenient).find? ⟨4, 2⟩ = some i ∧
      (follows .lenient LR0.lenient (gotoKeys LR0.lenient))[i]? = some follow ∧
        (reductionKeys LR0.lenient).find? ⟨7, 4⟩ = some j ∧
          (j, follow) ∈ additions .lenient LR0.lenient (reductionKeys LR0.lenient)
            (follows .lenient LR0.lenient (gotoKeys LR0.lenient)) := by
  obtain ⟨hfound, hreads, hincludes, hlookback⟩ :=
    edges_complete Grammar.lenient_defined LR0.build_lenient
  have hA : Grammar.lenient.Derives [.nonterminal 3] [] :=
    Grammar.lenient_defined.wellFormed.isNullable_iff_derives.mp (by decide +kernel)
  have hC : 4 ∈ Grammar.lenient.productionsOf 2 := by decide
  refine ⟨Grammar.lenient_defined, LR0.build_lenient, ?_, (hreads _ _).mp ⟨rfl, ⟨6, rfl⟩, hA⟩,
    (hincludes _ _).mp ⟨⟨5, rfl⟩, 4, hC, [.nonterminal 3], [], rfl, .refl, rfl⟩,
    hlookback _ _ ⟨⟨5, rfl⟩, hC, rfl⟩⟩
  exact (hfound ⟨4, 2⟩ 5 (by decide)).2.2 4 hC

end TableParsing.Lookahead
