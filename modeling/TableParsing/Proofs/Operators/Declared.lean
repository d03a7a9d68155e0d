import Mathlib.Data.List.Perm.Basic
import TableParsing.Proofs.Grammar.Realization
import TableParsing.Proofs.Operators.Parsing

/-! Operators declared by their levels. The declarations of precedence levels, and of a rule for
the operand and for every operator, define an operator grammar in which each operator has the
number of its level and the side that it groups from. -/

namespace TableParsing

namespace Operators

abbrev Levels := List (Assoc × List String)

def names (levels : Levels) : List String := levels.flatMap (·.2)

def right (name : String) : List String := if name = "x" then ["x"] else ["e", name, "e"]

def declarations (levels : Levels) (order : List String) : List Declaration :=
  levels.map (fun level => .precedence level.1 level.2) ++
    order.map fun name => .rule "e" (right name) none

/-- The names can be told apart from each other and from those that have a meaning of their own. -/
structure Proper (levels : Levels) (order : List String) : Prop where
  distinct : (names levels).Nodup
  fresh : ∀ name ∈ names levels, name ∉ ["", "$accept", "$end", "error", "e", "x"]
  bare : ∀ name ∈ names levels, (SymbolUse.parse name).givenName = none
  order : order.Perm ("x" :: names levels)

def rank (levels : Levels) (name : String) : Precedence :=
  match levels.zipIdx.find? fun level => name ∈ level.1.2 with
  | some (level, k) => ⟨k + 1, level.1⟩
  | none => ⟨0, .nonassoc⟩

def number (order : List String) (name : String) : Nat := order.idxOf name + 1

def assignments (levels : Levels) : List (String × Precedence) :=
  levels.zipIdx.flatMap fun (level, k) => level.2.map (·, ⟨k + 1, level.1⟩)

def ruleOf (name : String) : Rule := ⟨"e", (right name).map (⟨·, none⟩), none⟩

def outline (levels : Levels) (order : List String) : Outline :=
  ⟨[], assignments levels, order.map ruleOf, none⟩

theorem parse_of_bare {text : String} (h : (SymbolUse.parse text).givenName = none) :
    SymbolUse.parse text = ⟨text, none⟩ := by
  simp only [SymbolUse.parse] at h ⊢
  split at h
  · split at h
    · cases h
    · rfl
  · rfl

section Outline

variable {levels : Levels} {order : List String} (h : Proper levels order)

include h

theorem Proper.not_reserved {name : String} (hname : name ∈ names levels) :
    isReserved name = false := by
  have hfresh := h.fresh name hname
  simp only [List.mem_cons, List.not_mem_nil, or_false, not_or] at hfresh
  simp [isReserved, Symbol.acceptName, Symbol.endName, hfresh]

theorem Proper.mem_order {name : String} : name ∈ order ↔ name = "x" ∨ name ∈ names levels := by
  rw [h.order.mem_iff, List.mem_cons]

theorem Proper.ne_operand {name : String} (hname : name ∈ names levels) : name ≠ "x" := by
  rintro rfl
  exact absurd (h.fresh _ hname) (by decide)

theorem Proper.nodup_order : order.Nodup := by
  rw [h.order.nodup_iff, List.nodup_cons]
  exact ⟨fun hmem => h.ne_operand hmem rfl, h.distinct⟩

theorem Proper.parse_right {name : String} (hname : name ∈ order) :
    (right name).map SymbolUse.parse = (right name).map (⟨·, none⟩) := by
  have hx : SymbolUse.parse "x" = ⟨"x", none⟩ := by decide
  have he : SymbolUse.parse "e" = ⟨"e", none⟩ := by decide
  rcases h.mem_order.mp hname with rfl | hname
  · simp [right, hx]
  · simp [right, h.ne_operand hname, he, parse_of_bare (h.bare name hname)]

theorem Proper.levels_eq :
    (declarations levels order).filterMap Declaration.level? = levels := by
  have hlevels : levels.filterMap (Declaration.level? ∘ fun level =>
      Declaration.precedence level.1 level.2) = levels.map id := by
    rw [← List.filterMap_eq_map]
    refine List.filterMap_congr fun level hlevel => ?_
    have heffective : Declaration.effective level.2 = level.2 :=
      Declaration.effective_of_fresh fun name hname =>
        h.not_reserved (List.mem_flatMap.mpr ⟨level, hlevel, hname⟩)
    simp [Declaration.level?, heffective]
  have hrules : order.filterMap (Declaration.level? ∘ fun name =>
      Declaration.rule "e" (right name) none) = [] := List.filterMap_eq_nil_iff.mpr fun _ _ => rfl
  rw [declarations, List.filterMap_append, List.filterMap_map, List.filterMap_map, hlevels,
    hrules, List.append_nil, List.map_id]

theorem Proper.rules_eq :
    (declarations levels order).filterMap (·.rule? (.ok none)) = order.map ruleOf := by
  have hlevels : levels.filterMap ((·.rule? (.ok none)) ∘ fun level =>
      Declaration.precedence level.1 level.2) = [] := List.filterMap_eq_nil_iff.mpr fun _ _ => rfl
  have hrules : order.filterMap ((·.rule? (.ok none)) ∘ fun name =>
      Declaration.rule "e" (right name) none) = order.map ruleOf := by
    rw [← List.filterMap_eq_map]
    refine List.filterMap_congr fun name hname => ?_
    simp [Declaration.rule?, ruleOf, h.parse_right hname]
  rw [declarations, List.filterMap_append, List.filterMap_map, List.filterMap_map, hlevels,
    hrules, List.nil_append]

theorem Proper.ofDeclarations_eq
    (hok : ∀ answer ∈ Declaration.answers (declarations levels order) .empty,
      ∃ n, answer = .ok n) :
    Outline.ofDeclarations (declarations levels order)
      (Declaration.answers (declarations levels order) .empty) = outline levels order := by
  have hlength := Declaration.length_levels_le hok
  rw [h.levels_eq] at hlength
  have htokens : (declarations levels order).flatMap Declaration.tokenNames = [] := by
    refine List.flatMap_eq_nil_iff.mpr fun s hs => ?_
    rcases List.mem_append.mp hs with hs | hs <;> obtain ⟨_, -, rfl⟩ := List.mem_map.mp hs <;> rfl
  have hstart : (declarations levels order).filterMap Declaration.startName? = [] := by
    simp [declarations, Declaration.startName?]
  rw [Outline.ofDeclarations, outline, h.levels_eq, List.take_of_length_le hlength,
    Declaration.rules_of_answers (by simp) hok, h.rules_eq, htokens, hstart]
  rfl

end Outline

section Levels

variable {levels : Levels} {name : String} {k : Nat} {level : Assoc × List String}

theorem mem_assignments {r : Precedence} : (name, r) ∈ assignments levels ↔
    ∃ k level, levels[k]? = some level ∧ name ∈ level.2 ∧ r = ⟨k + 1, level.1⟩ := by
  simp only [assignments, List.mem_flatMap, List.mem_map, Prod.mk.injEq, Prod.exists,
    List.mem_zipIdx_iff_getElem?]
  constructor
  · rintro ⟨assoc, ops, k, hk, op, hop, rfl, rfl⟩
    exact ⟨k, assoc, ops, hk, hop, rfl⟩
  · rintro ⟨k, assoc, ops, hk, hop, rfl⟩
    exact ⟨assoc, ops, k, hk, name, hop, rfl, rfl⟩

theorem level_unique (h : (names levels).Nodup) {k' : Nat} {level' : Assoc × List String}
    (hk : levels[k]? = some level) (hk' : levels[k']? = some level') (hname : name ∈ level.2)
    (hname' : name ∈ level'.2) : k = k' := by
  obtain ⟨-, hdisjoint⟩ := List.nodup_flatMap.mp h
  obtain ⟨hlt, rfl⟩ := List.getElem?_eq_some_iff.mp hk
  obtain ⟨hlt', rfl⟩ := List.getElem?_eq_some_iff.mp hk'
  rw [List.pairwise_iff_getElem] at hdisjoint
  rcases Nat.lt_trichotomy k k' with hlt₁ | heq | hgt
  · exact absurd hname' (hdisjoint k k' hlt hlt' hlt₁ hname)
  · exact heq
  · exact absurd hname (hdisjoint k' k hlt' hlt hgt hname')

theorem rank_eq (h : (names levels).Nodup) (hk : levels[k]? = some level)
    (hname : name ∈ level.2) : rank levels name = ⟨k + 1, level.1⟩ := by
  rw [rank]
  split
  case h_1 level' k' hfind =>
    have hmem := List.mem_of_find?_eq_some hfind
    have hname' := List.find?_some hfind
    rw [List.mem_zipIdx_iff_getElem?] at hmem
    obtain rfl := level_unique h hk hmem hname (by simpa using hname')
    rw [hk] at hmem
    cases hmem
    rfl
  case h_2 hnone =>
    rw [List.find?_eq_none] at hnone
    exact absurd (by simpa using hname) (hnone (level, k) (List.mem_zipIdx_iff_getElem?.mpr hk))

theorem mem_assignments_iff_rank (h : (names levels).Nodup) {r : Precedence} :
    (name, r) ∈ assignments levels ↔ name ∈ names levels ∧ r = rank levels name := by
  rw [mem_assignments]
  constructor
  · rintro ⟨k, level, hk, hname, rfl⟩
    exact ⟨List.mem_flatMap.mpr ⟨level, List.mem_of_getElem? hk, hname⟩, (rank_eq h hk hname).symm⟩
  · rintro ⟨hname, rfl⟩
    obtain ⟨level, hlevel, hname⟩ := List.mem_flatMap.mp hname
    obtain ⟨k, hk⟩ := List.mem_iff_getElem?.mp hlevel
    exact ⟨k, level, hk, hname, rank_eq h hk hname⟩

theorem precedenceOf_eq_some_iff (h : (names levels).Nodup) (order : List String)
    {r : Precedence} : (outline levels order).precedenceOf name = some r ↔
      name ∈ names levels ∧ r = rank levels name := by
  rw [← mem_assignments_iff_rank h, Outline.precedenceOf]
  change ((assignments levels).reverse.find? (·.1 == name)).map (·.2) = some r ↔ _
  cases hfind : (assignments levels).reverse.find? (·.1 == name) with
  | none =>
    rw [List.find?_eq_none] at hfind
    simp only [Option.map_none, reduceCtorEq, false_iff]
    intro hmem
    exact hfind _ (List.mem_reverse.mpr hmem) (by simp)
  | some entry =>
    obtain ⟨name', r'⟩ := entry
    have hmem := List.mem_reverse.mp (List.mem_of_find?_eq_some hfind)
    obtain rfl : name' = name := by simpa using List.find?_some hfind
    rw [mem_assignments_iff_rank h] at hmem
    simp only [Option.map_some, Option.some.injEq, mem_assignments_iff_rank h, hmem, true_and]
    exact eq_comm

theorem assoc_eq_of_priority_eq (h : (names levels).Nodup) {name' : String}
    (hname : name ∈ names levels) (hname' : name' ∈ names levels)
    (heq : (rank levels name).priority = (rank levels name').priority) :
    (rank levels name).assoc = (rank levels name').assoc := by
  obtain ⟨k, level, hk, -, hr⟩ :=
    mem_assignments.mp ((mem_assignments_iff_rank h).mpr ⟨hname, rfl⟩)
  obtain ⟨k', level', hk', -, hr'⟩ :=
    mem_assignments.mp ((mem_assignments_iff_rank h).mpr ⟨hname', rfl⟩)
  rw [hr, hr'] at heq ⊢
  obtain rfl : k = k' := Nat.succ_injective heq
  rw [hk] at hk'
  cases hk'
  rfl

end Levels

section Grammar

variable {levels : Levels} {order : List String} {g : Grammar} (h : Proper levels order)
  (wf : g.WellFormed) (hg : (outline levels order).Realized g) {name : String}

theorem rightNames_ruleOf (name : String) : (ruleOf name).rightNames = right name := by
  simp [ruleOf, Rule.rightNames, Function.comp_def]

include h hg

theorem exists_terminal (hname : name ∈ order) :
    ∃ t, g.Proper (.terminal t) ∧ t ≠ Symbol.errorToken ∧ g.terminalName t = name := by
  have hne : name ≠ Symbol.endName ∧ name ≠ Symbol.errorName ∧ name ≠ "e" := by
    rcases h.mem_order.mp hname with rfl | hname
    · decide
    · have hfresh := h.fresh name hname
      simp only [List.mem_cons, List.not_mem_nil, or_false, not_or] at hfresh
      exact ⟨hfresh.2.2.1, hfresh.2.2.2.1, hfresh.2.2.2.2.1⟩
  have hmem : name ∈ (outline levels order).terminalNames := by
    rw [Outline.terminalNames, Finset.mem_filter, Finset.mem_union, List.mem_toFinset,
      List.mem_toFinset, List.mem_flatMap]
    refine ⟨Or.inr ⟨ruleOf name, List.mem_map_of_mem hname, ?_⟩, hne.2.1, ?_⟩
    · rw [rightNames_ruleOf, right]
      split <;> simp_all
    · intro r hr
      obtain ⟨_, -, rfl⟩ := List.mem_map.mp hr
      exact hne.2.2.symm
  obtain ⟨terminal, hterminal, hterm⟩ :=
    List.mem_map.mp ((hg.terminals name).mpr (Or.inr (Or.inr hmem)))
  obtain ⟨t, ht⟩ := Array.mem_iff_getElem?.mp (Array.mem_toList_iff.mp hterminal)
  have hsize := (Array.getElem?_eq_some_iff.mp ht).1
  have htname : g.terminalName t = name := by
    rw [Grammar.terminalName, Array.getD_eq_getD_getElem?, ht]
    exact hterm
  obtain ⟨hzero, hone⟩ := hg.first_terminals
  refine ⟨t, ⟨?_, hsize⟩, ?_, htname⟩
  · rintro rfl
    rw [Symbol.endOfInput, hzero] at ht
    cases ht
    exact hne.1 hterm.symm
  · rintro rfl
    rw [Symbol.errorToken, hone] at ht
    cases ht
    exact hne.2.1 hterm.symm

theorem ranked_iff {t : Nat} {r : Precedence} : g.terminalPrecedence t = some r ↔
    t < g.terminals.size ∧ g.terminalName t ∈ names levels ∧
      r = rank levels (g.terminalName t) := by
  -- a reserved terminal has no precedence, and its name is no operator
  have hreserved : ∀ name, g.terminals[t]? = some ⟨name, none⟩ → name ∉ names levels →
      (g.terminalPrecedence t = some r ↔ t < g.terminals.size ∧
        g.terminalName t ∈ names levels ∧ r = rank levels (g.terminalName t)) := by
    intro name hget hname
    rw [Grammar.terminalPrecedence, Grammar.terminalName, Array.getD_eq_getD_getElem?, hget]
    simp [hname]
  obtain ⟨hzero, hone⟩ := hg.first_terminals
  rcases t with _ | _ | t
  · exact hreserved _ hzero fun hmem => h.fresh _ hmem (by decide)
  · exact hreserved _ hone fun hmem => h.fresh _ hmem (by decide)
  · by_cases hlt : t + 2 < g.terminals.size
    · rw [hg.precedence (t + 2) (by omega) hlt, precedenceOf_eq_some_iff h.distinct order]
      simp [hlt]
    · have hnone : g.terminalPrecedence (t + 2) = none := by
        rw [Grammar.terminalPrecedence, Array.getD_eq_getD_getElem?,
          Array.getElem?_eq_none (by omega)]
        rfl
      simp [hlt, hnone]

omit h in
theorem production_named (hname : name ∈ order) :
    number order name < g.productions.size ∧
      g.nonterminalName (g.production (number order name)).left = "e" ∧
      (g.production (number order name)).right.toList.map g.symbolName = right name ∧
      (g.production (number order name)).precedence = none := by
  have hlt := List.idxOf_lt_length_of_mem hname
  have hrule : (outline levels order).rules[order.idxOf name]? = some (ruleOf name) := by
    change (order.map ruleOf)[_]? = _
    rw [List.getElem?_map, List.getElem?_eq_getElem hlt, List.getElem_idxOf]
    rfl
  obtain ⟨hleft, hright, hprecedence⟩ := hg.rule _ _ hrule
  refine ⟨?_, hleft, hright.trans (rightNames_ruleOf name), hprecedence⟩
  rw [hg.size_eq, number]
  simpa [outline] using hlt

include wf

omit h in
theorem production_eq (hname : name ∈ order) {t : Nat} (ht : g.Proper (.terminal t))
    (htname : g.terminalName t = name) :
    number order name < g.productions.size ∧
      (g.production (number order name)).left = g.start ∧
      (g.production (number order name)).right = (if name = "x" then #[.terminal t]
        else #[.nonterminal g.start, .terminal t, .nonterminal g.start]) ∧
      (g.production (number order name)).precedence = none := by
  obtain ⟨hlt, hleft, hright, hprecedence⟩ := production_named hg hname
  have hzero : number order name ≠ 0 := Nat.succ_ne_zero _
  have hstart : g.nonterminalName g.start = "e" := by
    have hfirst := hg.start
    obtain ⟨first, rest, horder⟩ := List.exists_cons_of_ne_nil (List.ne_nil_of_mem hname)
    simp only [outline, Outline.startName, horder, List.map_cons, List.head?_cons, Option.map_some,
      Option.none_or, Option.some.injEq] at hfirst
    exact hfirst.symm
  have hsymbol := hg.symbol_ext (wf.left_proper _ hzero hlt) wf.start_proper
    (hleft.trans hstart.symm)
  refine ⟨hlt, Symbol.nonterminal.inj hsymbol, ?_, hprecedence⟩
  rw [← Array.toList_inj]
  refine hg.symbols_ext (fun s hs => wf.right_proper _ hzero s (Array.mem_toList_iff.mp hs)) ?_ ?_
  · split <;> simp [ht, wf.start_proper]
  · rw [hright, right]
    by_cases hx : name = "x"
    · simp [hx, Grammar.symbolName, htname]
    · simp [hx, Grammar.symbolName, htname, hstart]

theorem operatorGrammar : ∃ x, g.Proper (.terminal x) ∧ g.terminalName x = "x" ∧
    OperatorGrammar g x fun t => number order (g.terminalName t) := by
  have hxorder := h.mem_order.mpr (Or.inl rfl)
  obtain ⟨x, hx, hxerror, hxname⟩ := exists_terminal h hg hxorder
  obtain ⟨hend, herror⟩ := hg.unranked_reserved
  have hproper : ∀ t r, g.terminalPrecedence t = some r →
      g.Proper (.terminal t) ∧ g.terminalName t ∈ names levels ∧
        r = rank levels (g.terminalName t) := by
    intro t r ht
    obtain ⟨hlt, hname, hr⟩ := (ranked_iff h hg).mp ht
    refine ⟨⟨?_, hlt⟩, hname, hr⟩
    rintro rfl
    rw [hend] at ht
    cases ht
  refine ⟨x, hx, hxname, wf, hxerror, ?_, herror, ?_, ?_, ?_, ?_⟩
  · rw [Option.eq_none_iff_forall_ne_some]
    intro r hr
    exact h.ne_operand (hproper x r hr).2.1 hxname
  · obtain ⟨hlt, hleft, hright, -⟩ := production_eq wf hg hxorder hx hxname
    rw [hxname]
    exact ⟨hlt, hleft, hright⟩
  · intro t r hr
    obtain ⟨ht, hname, -⟩ := hproper t r hr
    obtain ⟨hlt, hleft, hright, hprecedence⟩ :=
      production_eq wf hg (h.mem_order.mpr (Or.inr hname)) ht rfl
    rw [if_neg (h.ne_operand hname)] at hright
    exact ⟨hlt, hleft, hright, hprecedence⟩
  · intro p hp hlt
    obtain ⟨k, rfl⟩ := Nat.exists_eq_succ_of_ne_zero hp
    have hk : k < order.length := by
      rw [hg.size_eq] at hlt
      simpa [outline] using hlt
    have hnumber : number order order[k] = k + 1 := by
      rw [number, h.nodup_order.idxOf_getElem]
    obtain ⟨t, ht, -, htname⟩ := exists_terminal h hg (List.getElem_mem hk)
    rcases h.mem_order.mp (List.getElem_mem hk) with hname | hname
    · refine Or.inl ?_
      rw [hxname, ← hname, hnumber]
    · refine Or.inr ⟨t, _, (ranked_iff h hg).mpr ⟨ht.2, htname ▸ hname, rfl⟩, ?_⟩
      rw [htname, hnumber]
  · intro t u r s ht hu
    obtain ⟨-, hname, rfl⟩ := hproper t r ht
    obtain ⟨-, hname', rfl⟩ := hproper u s hu
    exact assoc_eq_of_priority_eq h.distinct hname hname'

end Grammar

/-- Comparisons cannot be chained, and subtraction binds tighter and groups to the left. -/
def comparison : Levels := [(.nonassoc, ["<"]), (.left, ["-"])]

end Operators

def Grammar.comparisonRules : Array Production :=
  #[⟨1, #[.nonterminal 1, .terminal 2, .nonterminal 1], none,
      [⟨"e", 1⟩, ⟨"e1", 1⟩, ⟨"<", 2⟩, ⟨"<1", 2⟩, ⟨"e2", 3⟩]⟩,
    ⟨1, #[.nonterminal 1, .terminal 3, .nonterminal 1], none,
      [⟨"e", 1⟩, ⟨"e1", 1⟩, ⟨"-", 2⟩, ⟨"-1", 2⟩, ⟨"e2", 3⟩]⟩,
    ⟨1, #[.terminal 4], none, [⟨"x", 1⟩, ⟨"x1", 1⟩]⟩]

def Grammar.comparison : Grammar :=
  .ofProductions #[⟨"$end", none⟩, ⟨"error", none⟩, ⟨"<", some ⟨1, .nonassoc⟩⟩,
    ⟨"-", some ⟨2, .left⟩⟩, ⟨"x", none⟩]
    #["$accept", "e"] (#[Definition.acceptProduction 1] ++ comparisonRules) 1

theorem define_comparison :
    (define false ((Operators.declarations Operators.comparison ["<", "-", "x"]).map ([·]))
      .empty).2 = .ok .comparison :=
  Definition.define_eq_ok (by cbv)

def LR0.comparison : Collection :=
  #[⟨[⟨0, 0⟩], [(.nonterminal 1, 1), (.terminal 4, 2)], [], false⟩,
    ⟨[⟨0, 1⟩, ⟨1, 1⟩, ⟨2, 1⟩], [(.terminal 2, 3), (.terminal 3, 4)], [], true⟩,
    ⟨[⟨3, 1⟩], [], [3], false⟩,
    ⟨[⟨1, 2⟩], [(.nonterminal 1, 5), (.terminal 4, 2)], [], false⟩,
    ⟨[⟨2, 2⟩], [(.nonterminal 1, 6), (.terminal 4, 2)], [], false⟩,
    ⟨[⟨1, 1⟩, ⟨1, 3⟩, ⟨2, 1⟩], [(.terminal 2, 3), (.terminal 3, 4)], [1], false⟩,
    ⟨[⟨1, 1⟩, ⟨2, 1⟩, ⟨2, 3⟩], [(.terminal 2, 3), (.terminal 3, 4)], [2], false⟩]

theorem LR0.build_comparison : build .comparison = .ok comparison := by
  simp only [build, Exploration.explore_eq]
  cbv

namespace Operators

theorem proper_comparison : Proper comparison ["<", "-", "x"] where
  distinct := by decide
  fresh := by decide
  bare := by decide
  order := by decide

def calculate : Nat → List Nat → Nat
  | 1, [left, _, right] => if left < right then 1 else 0
  | 2, [left, _, right] => left - right
  | _, values => values.headD 0

def valued (name : String) (value : Nat) : Token Nat := ⟨name, name, value, .zero⟩

def differences : List (Token Nat × Token Nat) :=
  [(valued "-" 0, valued "x" 3), (valued "-" 0, valued "x" 2), (valued "<" 0, valued "x" 5)]

def chain : List (Token Nat × Token Nat) :=
  [(valued "<" 0, valued "x" 3), (valued "-" 0, valued "x" 2), (valued "<" 0, valued "x" 5)]

open ShiftReduce

variable {V P : Type}

/-- A first token and the pairs after it are operands with operators between them. -/
def Alternates (levels : Levels) (token : Token V) (input : List (Token V × Token V)) : Prop :=
  token.name = "x" ∧ ∀ pair ∈ input, pair.1.name ∈ names levels ∧ pair.2.name = "x"

section Tokens

variable {levels : Levels} {order : List String} {g : Grammar} {a : Automaton} {x : Nat}

theorem terminal?_eq_iff (wf : g.WellFormed) {t : Nat} (ht : t < g.terminals.size)
    {name : String} : (Table.generate g a).terminal? name = some t ↔ name = g.terminalName t := by
  constructor
  · exact Table.eq_terminalName wf
  · rintro rfl
    exact Table.terminal?_terminalName wf ht

variable (h : Proper levels order) (wf : g.WellFormed) (hg : (outline levels order).Realized g)
  (hx : x < g.terminals.size) (hxname : g.terminalName x = "x")

include h wf hg hx hxname

theorem Alternates.operands {token : Token V} {input : List (Token V × Token V)}
    (hinput : Alternates levels token input) :
    IsOperand (Table.generate g a) x (fun t => number order (g.terminalName t))
      (fun token => number order token.name) token ∧
    Alternating (Table.generate g a) g x (fun t => number order (g.terminalName t))
      (fun token => rank levels token.name) (fun token => number order token.name) input := by
  have hoperand : ∀ token : Token V, token.name = "x" →
      IsOperand (Table.generate g a) x (fun t => number order (g.terminalName t))
        (fun token => number order token.name) token := by
    intro token htoken
    rw [← hxname] at htoken
    exact ⟨(terminal?_eq_iff wf hx).mpr htoken, congrArg (number order) htoken⟩
  refine ⟨hoperand token hinput.1, fun pair hpair => ⟨?_, hoperand pair.2 (hinput.2 pair hpair).2⟩⟩
  have hname := (hinput.2 pair hpair).1
  obtain ⟨t, ht, -, htname⟩ := exists_terminal h hg (h.mem_order.mpr (Or.inr hname))
  refine ⟨t, (terminal?_eq_iff wf ht.2).mpr htname.symm, ?_, congrArg (number order) htname.symm⟩
  rw [← htname] at hname ⊢
  exact (ranked_iff h hg).mpr ⟨ht.2, hname, rfl⟩

theorem alternates_of_terminals {token : Token V} {input : List (Token V × Token V)}
    (htoken : (Table.generate g a).terminal? token.name = some x)
    (hinput : ∀ pair ∈ input, (∃ u r, (Table.generate g a).terminal? pair.1.name = some u ∧
      g.terminalPrecedence u = some r) ∧ (Table.generate g a).terminal? pair.2.name = some x) :
    Alternates levels token input := by
  have hoperand : ∀ token : Token V, (Table.generate g a).terminal? token.name = some x →
      token.name = "x" := fun token htoken => ((terminal?_eq_iff wf hx).mp htoken).trans hxname
  refine ⟨hoperand token htoken, fun pair hpair => ?_⟩
  obtain ⟨⟨u, r, hu, hr⟩, hpair⟩ := hinput pair hpair
  obtain ⟨hlt, hname, -⟩ := (ranked_iff h hg).mp hr
  rw [(terminal?_eq_iff wf hlt).mp hu]
  exact ⟨hname, hoperand pair.2 hpair⟩

end Tokens

theorem realized_of_define {levels : Levels} {order : List String} (h : Proper levels order)
    {g : Grammar}
    (hg : (define false ((declarations levels order).map ([·])) .empty).2 = .ok g) :
    g.WellFormed ∧ (outline levels order).Realized g := by
  obtain ⟨hok, hcomplete⟩ := Declaration.define_strict hg
  have hchecked := Definition.checked_applied (declarations levels order)
  have houtlined := Declaration.outlined_applied (declarations levels order)
  rw [h.ofDeclarations_eq hok] at houtlined
  obtain ⟨-, ts, start, rules, hsize, c⟩ := Definition.complete_eq_ok_iff.mp hcomplete
  exact ⟨c.wellFormed hchecked.tokens, c.realized hchecked houtlined hsize⟩

/-- Operators are parsed by precedence and associativity. Operands with operators between them have
the value of the expression that precedence climbing groups them into, the only one that agrees
with the levels. They are refused with a syntax error if it cannot group them, which is the case if
and only if two operators of one nonassociative level meet. All other tokens are refused with a
syntax error. -/
theorem parse_climbs {levels : Levels} {order : List String} (h : Proper levels order)
    {g : Grammar}
    (hg : (define false ((declarations levels order).map ([·])) .empty).2 = .ok g)
    {d : LR0.Collection} (hd : LR0.build g = .ok d) (build : Nat → List V → V)
    (env : Environment V P) (params : P) :
    let rank := fun token : Token V => rank levels token.name
    let number := fun token : Token V => number order token.name
    ∃ a, Method.lalr.automaton g = .ok a ∧
      let parser : Parser V P :=
        ⟨.ofTable (Table.generate g a), building g.productions.size build⟩
      (∀ token input, Alternates levels token input →
        Ends parser env (start ((token :: flatten input).map .ok) params) fun r =>
          match Expr.group rank token input with
          | some e => r.outcome = .ok (some (exprValue build number e)) ∧ r.reported = []
          | none => Refused env r) ∧
      (∀ token input e, Expr.group rank token input = some e ↔
        e.first = token ∧ e.tail = input ∧ Expr.Grouped rank e) ∧
      (∀ token input, Alternates levels token input →
        (Expr.group rank token input = none ↔ Expr.Clashing rank input)) ∧
      ∀ tokens, (∀ token ∈ tokens, token.name ≠ Symbol.endName) →
        (∀ token input, tokens = token :: flatten input → ¬ Alternates levels token input) →
        Ends parser env (start (tokens.map .ok) params) (Refused env) := by
  intro rank number
  obtain ⟨wf, hrealized⟩ := realized_of_define h hg
  obtain ⟨x, hx, hxname, hoperator⟩ := operatorGrammar h wf hrealized
  obtain ⟨a, ha⟩ : ∃ a, Method.lalr.automaton g = .ok a := by
    rw [Method.automaton, hd]
    exact ⟨_, rfl⟩
  obtain ⟨hf, hcovers⟩ := Method.automaton_spec wf ha
  refine ⟨a, ha, fun token input hinput => ?_, fun token input e => Expr.group_eq_some_iff,
    fun token input hinput => Expr.group_eq_none_iff fun op hop next hnext => ?_,
    fun tokens hnames hform => ?_⟩
  · obtain ⟨htoken, hpairs⟩ := hinput.operands h wf hrealized hx.2 hxname
    exact group_ends hoperator hf hcovers build env htoken hpairs params
  · exact assoc_eq_of_priority_eq h.distinct (hinput.2 op hop).1 (hinput.2 next hnext).1
  · refine refused_ends hoperator hf build env hnames (fun token input htokens htoken hpairs => ?_)
      params
    exact hform token input htokens
      (alternates_of_terminals h wf hrealized hx.2 hxname htoken hpairs)

theorem parse_climbs_comparison : ∃ a, Method.lalr.automaton .comparison = .ok a ∧
    let parser : Parser Nat Unit :=
      ⟨.ofTable (Table.generate .comparison a), building 4 calculate⟩
    Ends parser silent (start ((valued "x" 9 :: flatten differences).map .ok) ()) (fun r =>
      r.outcome = .ok (some 1) ∧ r.reported = []) ∧
    Ends parser silent (start ((valued "x" 9 :: flatten chain).map .ok) ()) (Refused silent) ∧
    Ends parser silent (start ((tokensOf ["x", "x"]).map .ok) ()) (Refused silent) := by
  obtain ⟨a, ha, hends, hgroup, hnone, hother⟩ := parse_climbs proper_comparison
    define_comparison LR0.build_comparison
    calculate silent ()
  refine ⟨a, ha, ?_, ?_, ?_⟩
  · have hgrouped : Expr.group (fun token => rank comparison token.name) (valued "x" 9)
        differences = some (.binary (valued "<" 0)
          (.binary (valued "-" 0)
            (.binary (valued "-" 0) (.operand (valued "x" 9)) (.operand (valued "x" 3)))
            (.operand (valued "x" 2)))
          (.operand (valued "x" 5))) := by
      refine (hgroup _ _ _).mpr ⟨rfl, rfl, .binary (.binary
        (.binary (.operand _) (.operand _) ?_ ?_) (.operand _) ?_ ?_) (.operand _) ?_ ?_⟩ <;>
          simp [Expr.root?, Expr.GroupsLeft] <;> decide
    have h := hends (valued "x" 9) differences ⟨rfl, by decide⟩
    rw [hgrouped] at h
    exact h
  · have hnone := (hnone (valued "x" 9) chain ⟨rfl, by decide⟩).mpr
      ⟨[], _, [_], _, [], rfl, by decide, by decide, by decide⟩
    have h := hends (valued "x" 9) chain ⟨rfl, by decide⟩
    rw [hnone] at h
    exact h
  · refine hother _ (by decide) ?_
    rintro token (_ | ⟨pair, input⟩) heq
    · cases heq
    · simp [flatten, tokensOf] at heq

end Operators

end TableParsing
