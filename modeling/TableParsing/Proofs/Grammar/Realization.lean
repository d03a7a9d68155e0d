import TableParsing.Proofs.Grammar.Completion

/-! The grammar of a completed definition holds just what was declared: each symbol answers to its
name, and each rule to the number given out for it. -/

namespace TableParsing

def Outline.precedenceOf (o : Outline) (name : String) : Option Precedence :=
  (o.precedences.reverse.find? (·.1 == name)).map (·.2)

/-- A grammar with the declared symbols after the reserved ones, each at the index that its name
is found at, and with the declared rules after the production of the augmented start symbol. -/
structure Outline.Realized (o : Outline) (g : Grammar) : Prop where
  reserved_terminals : g.terminals.toList.take 2 =
    [⟨Symbol.endName, none⟩, ⟨Symbol.errorName, none⟩]
  reserved_nonterminal : g.nonterminals[0]? = some Symbol.acceptName
  accepting : g.production 0 = Definition.acceptProduction g.start
  start : o.startName = some (g.nonterminalName g.start)
  terminals : ∀ name, name ∈ g.terminals.toList.map (·.name) ↔
    name = Symbol.endName ∨ name = Symbol.errorName ∨ name ∈ o.terminalNames
  nonterminals : ∀ name, name ∈ g.nonterminals.toList ↔
    name = Symbol.acceptName ∨ o.Defines name
  names_nodup : (g.terminals.toList.map (·.name) ++ g.nonterminals.toList).Nodup
  terminal?_eq : ∀ t < g.terminals.size, g.terminal? (g.terminalName t) = some t
  nonterminal?_eq : ∀ n < g.nonterminals.size, g.nonterminal? (g.nonterminalName n) = some n
  precedence : ∀ t, 2 ≤ t → t < g.terminals.size →
    g.terminalPrecedence t = o.precedenceOf (g.terminalName t)
  size_eq : g.productions.size = o.rules.length + 1
  rule : ∀ (k : Nat) (r : Rule), o.rules[k]? = some r →
    g.nonterminalName (g.production (k + 1)).left = r.left ∧
      (g.production (k + 1)).right.toList.map g.symbolName = r.rightNames ∧
      (g.production (k + 1)).precedence = r.precedence.bind o.precedenceOf
  distinct : ∀ p < g.productions.size, ∀ q < g.productions.size,
    (g.production p).left = (g.production q).left →
      (g.production p).right = (g.production q).right → p = q
  terminal_lt : ∀ p t, .terminal t ∈ (g.production p).right → t < g.terminals.size
  nonterminal_lt : ∀ p n, .nonterminal n ∈ (g.production p).right → n < g.nonterminals.size
  end_mem : ∀ p, .terminal Symbol.endOfInput ∈ (g.production p).right → p = 0
  accept_notMem : ∀ p, .nonterminal Symbol.accept ∉ (g.production p).right
  bounded : g.terminals.size ≤ 65536 ∧ g.nonterminals.size ≤ 65536 ∧ g.productions.size ≤ 65536

theorem findIdx?_of_nodup {α : Type} {xs : Array α} {f : α → String}
    (h : (xs.toList.map f).Nodup) {i : Nat} {x : α} (hx : xs[i]? = some x) :
    xs.findIdx? (f · == f x) = some i := by
  obtain ⟨hi, rfl⟩ := Array.getElem?_eq_some_iff.mp hx
  rw [Array.findIdx?_eq_some_iff_getElem]
  refine ⟨hi, by simp, fun j hj heq => ?_⟩
  have hmap : (xs.toList.map f)[i]? = (xs.toList.map f)[j]? := by
    have hj' : j < xs.size := by omega
    simp only [List.getElem?_map, Array.getElem?_toList, Array.getElem?_eq_getElem hi,
      Array.getElem?_eq_getElem hj', Option.map_some, Option.some.injEq]
    exact (beq_iff_eq.mp heq).symm
  have hij := (List.getElem?_inj (by simpa using hi) h).mp hmap
  omega

theorem Definition.Outlined.precedenceOf {d : Definition} {o : Outline} (h : d.Outlined o)
    (name : String) : d.precedenceOf name = o.precedenceOf name := by
  rw [Definition.precedenceOf, h.precedences, Outline.precedenceOf]

theorem Definition.production_precedence {d : Definition} {nonterminals ts : Numbering String}
    {r : Rule} {p : Production} (h : d.production nonterminals ts r = .ok p) :
    p.precedence = r.precedence.bind d.precedenceOf := by
  rw [production] at h
  dsimp only at h
  split at h
  case h_1 hnone =>
    cases h
    rw [hnone]
    rfl
  case h_2 name hname =>
    split at h
    case h_1 level hlevel =>
      cases h
      rw [hname, Option.bind_some, hlevel]
    case h_2 => cases h

namespace Definition.Completed

variable {d : Definition} {g : Grammar} {ts : Numbering String} {start : Nat}
  {rules : Array Production} {o : Outline} (c : Completed d g ts start rules) (hd : d.Checked)
  (h : d.Outlined o)

include c

theorem terminals_eq : g.terminals.toList =
    ⟨Symbol.endName, none⟩ :: ⟨Symbol.errorName, none⟩ ::
      ts.keys.toList.map fun name => ⟨name, d.precedenceOf name⟩ := by
  rw [c.shape]
  simp [Grammar.ofProductions]

theorem terminalNames_eq : g.terminals.toList.map (·.name) =
    Symbol.endName :: Symbol.errorName :: ts.keys.toList := by
  rw [c.terminals_eq, List.map_cons, List.map_cons, List.map_map, Function.comp_def]
  simp

theorem nonterminals_eq : g.nonterminals.toList =
    Symbol.acceptName :: d.nonterminals.keys.toList := by
  rw [c.shape]
  simp [Grammar.ofProductions]

theorem nonterminalName_succ {i : Nat} {name : String} (hi : d.nonterminals.find? name = some i) :
    g.nonterminalName (i + 1) = name := by
  rw [Grammar.nonterminalName, Array.getD_eq_getD_getElem?, ← Array.getElem?_toList,
    c.nonterminals_eq, List.getElem?_cons_succ, Array.getElem?_toList,
    d.nonterminals.find?_eq_some_iff.mp hi]
  rfl

theorem terminalName_succ {i : Nat} {name : String} (hi : ts.find? name = some i) :
    g.terminalName (i + 2) = name := by
  rw [Grammar.terminalName, Array.getD_eq_getD_getElem?, ← Array.getElem?_toList,
    c.terminals_eq, List.getElem?_cons_succ, List.getElem?_cons_succ, List.getElem?_map,
    Array.getElem?_toList, ts.find?_eq_some_iff.mp hi]
  rfl

theorem symbolName_resolveUse {use : SymbolUse} (known : Known d.nonterminals ts use) :
    g.symbolName (resolveUse d.nonterminals ts use) = use.name := by
  rw [resolveUse]
  cases hn : d.nonterminals.find? use.name with
  | some i => exact c.nonterminalName_succ hn
  | none =>
    dsimp only
    split
    case isTrue herror =>
      have hname : g.terminalName 1 = Symbol.errorName := by
        rw [Grammar.terminalName, Array.getD_eq_getD_getElem?, ← Array.getElem?_toList,
          c.terminals_eq]
        rfl
      exact hname.trans (by simpa using (beq_iff_eq.mp herror).symm)
    case isFalse herror =>
      have hmem : use.name ∈ ts.keys := by
        rcases known with hk | hk | hk
        · exact absurd (by simpa using hk) herror
        · exact absurd hk (d.nonterminals.find?_eq_none_iff.mp hn)
        · exact hk
      obtain ⟨i, hi⟩ := ts.exists_find?_of_mem hmem
      rw [hi]
      exact c.terminalName_succ hi

theorem production_of_rule {k : Nat} {r : Rule} (hr : d.rules.toList[k]? = some r) :
    d.production d.nonterminals ts r = .ok (g.production (k + 1)) := by
  obtain ⟨hk, rfl⟩ := List.getElem?_eq_some_iff.mp hr
  have hpairs := c.rule_pairs
  have hk' : k < rules.toList.length := by
    rw [← hpairs.length_eq]
    exact hk
  rw [c.production_succ (by simpa using hk')]
  exact hpairs.get hk hk'

include hd h

theorem rule_named {k : Nat} {r : Rule} (hr : o.rules[k]? = some r) :
    g.nonterminalName (g.production (k + 1)).left = r.left ∧
      (g.production (k + 1)).right.toList.map g.symbolName = r.rightNames ∧
      (g.production (k + 1)).precedence = r.precedence.bind o.precedenceOf := by
  rw [← h.rules] at hr
  have hmem := List.mem_of_getElem? hr
  have hok := c.production_of_rule hr
  obtain ⟨hleft, hright⟩ := production_ok hok
  obtain ⟨-, known⟩ := terminals_ok hd.tokens c.collected
  refine ⟨?_, ?_, ?_⟩
  · obtain ⟨i, hi⟩ := d.nonterminals.exists_find?_of_mem
      ((mem_nonterminals h).mpr ⟨r, h.rules ▸ hmem, rfl⟩)
    rw [hleft, hi]
    exact c.nonterminalName_succ hi
  · rw [hright, List.map_map]
    refine List.map_congr_left fun use huse => ?_
    exact c.symbolName_resolveUse (known r (Array.mem_toList_iff.mp hmem) use huse)
  · rw [production_precedence hok]
    exact congrArg (r.precedence.bind ·) (funext h.precedenceOf)

theorem names_distinct : (g.terminals.toList.map (·.name) ++ g.nonterminals.toList).Nodup := by
  obtain ⟨permitted, -⟩ := terminals_ok hd.tokens c.collected
  have hlefts : ∀ name ∈ d.nonterminals.keys, isReserved name = false := by
    intro name hname
    obtain ⟨r, hr, rfl⟩ := (mem_nonterminals h).mp hname
    exact (hd.lefts r (h.rules ▸ hr)).1
  have hdisjoint := hd.disjoint c.collected h
  rw [List.nodup_append]
  refine ⟨(c.wellFormed hd.tokens).names_nodup, ?_, ?_⟩
  · rw [c.nonterminals_eq, List.nodup_cons]
    refine ⟨fun hmem => ?_, d.nonterminals.keys_nodup⟩
    exact absurd (hlefts _ (Array.mem_toList_iff.mp hmem)) (by decide)
  · rw [c.terminalNames_eq, c.nonterminals_eq]
    rintro name hname _ hname' rfl
    simp only [List.mem_cons, Array.mem_toList_iff] at hname hname'
    rcases hname with rfl | rfl | hname <;> rcases hname' with hname' | hname'
    · exact absurd hname' (by decide)
    · exact absurd (hlefts _ hname') (by decide)
    · exact absurd hname' (by decide)
    · exact (hdisjoint _ hname').1 rfl
    · subst hname'
      exact absurd (permitted _ hname).1 (by decide)
    · exact (hdisjoint _ hname').2 hname

theorem start_named : o.startName = some (g.nonterminalName g.start) := by
  obtain ⟨i, rfl, hi⟩ := (startIndex_eq_ok_iff (hd.disjoint c.collected h)).mp c.started
  have hne : d.rules.toList ≠ [] := by
    obtain ⟨r, hr, -⟩ := (mem_nonterminals h).mp (d.nonterminals.mem_of_find? hi)
    rw [h.rules]
    exact List.ne_nil_of_mem hr
  rw [startName_eq h hne, c.start_eq, c.nonterminalName_succ hi]

theorem productions_distinct {p q : Nat} (hp : p < g.productions.size)
    (hq : q < g.productions.size) (hleft : (g.production p).left = (g.production q).left)
    (hright : (g.production p).right = (g.production q).right) : p = q := by
  have wf := c.wellFormed hd.tokens
  have hsize := c.productionCount
  have hlength := c.rule_pairs.length_eq
  rw [Array.length_toList, Array.length_toList] at hlength
  have hzero : (g.production 0).left = Symbol.accept := by
    rw [wf.accepting]
    rfl
  cases p with
  | zero =>
    by_contra hne
    exact (wf.left_proper q (Ne.symm hne) hq).1 (hleft ▸ hzero)
  | succ k =>
    cases q with
    | zero => exact absurd (hleft.trans hzero) (wf.left_proper _ (Nat.succ_ne_zero k) hp).1
    | succ l =>
      have hk : k < d.rules.toList.length := by simp; omega
      have hl : l < d.rules.toList.length := by simp; omega
      have hnamed := c.rule_named hd h (k := k) (by rw [← h.rules, List.getElem?_eq_getElem hk])
      have hnamed' := c.rule_named hd h (k := l) (by rw [← h.rules, List.getElem?_eq_getElem hl])
      have hsame : d.rules.toList[k].left = d.rules.toList[l].left ∧
          d.rules.toList[k].rightNames = d.rules.toList[l].rightNames := by
        rw [← hnamed.1, ← hnamed.2.1, hleft, hright]
        exact ⟨hnamed'.1, hnamed'.2.1⟩
      have hdistinct := List.pairwise_iff_getElem.mp hd.distinct
      rcases Nat.lt_trichotomy k l with hlt | rfl | hgt
      · exact absurd hsame (hdistinct k l hk hl hlt)
      · rfl
      · exact absurd ⟨hsame.1.symm, hsame.2.symm⟩ (hdistinct l k hl hk hgt)

theorem realized (hsize : ts.size ≤ 65534) : o.Realized g := by
  have wf := c.wellFormed hd.tokens
  have hnames := c.names_distinct hd h
  have hlength : rules.size = o.rules.length := by
    rw [← h.rules, c.rule_pairs.length_eq, Array.length_toList]
  have hbounded := c.bounded hd.bounded
  refine
    { reserved_terminals := by rw [c.terminals_eq]; rfl
      reserved_nonterminal := by rw [← Array.getElem?_toList, c.nonterminals_eq]; rfl
      accepting := wf.accepting
      start := c.start_named hd h
      terminals := fun name => ?_
      nonterminals := fun name => ?_
      names_nodup := hnames
      terminal?_eq := fun t ht => ?_
      nonterminal?_eq := fun n hn => ?_
      precedence := fun t h2 ht => ?_
      size_eq := by rw [c.productionCount, hlength]
      rule := fun k r hr => c.rule_named hd h hr
      distinct := fun p hp q hq => c.productions_distinct hd h hp hq
      terminal_lt := fun p t => wf.terminal_lt
      nonterminal_lt := fun p n hn => (wf.nonterminal_proper hn).2
      end_mem := fun p => wf.eq_zero_of_end_mem
      accept_notMem := fun p hp => (wf.nonterminal_proper hp).1 rfl
      bounded := ⟨?_, hbounded.nonterminals, hbounded.productions⟩ }
  · rw [c.terminalNames_eq, List.mem_cons, List.mem_cons, ← (size_terminals hd c.collected h).1,
      List.mem_toFinset]
  · rw [c.nonterminals_eq, List.mem_cons, Array.mem_toList_iff, mem_nonterminals h]
  · have hget := Array.getElem?_eq_getElem ht
    rw [Grammar.terminal?, Grammar.terminalName, Array.getD_eq_getD_getElem?, hget]
    exact findIdx?_of_nodup (List.nodup_append.mp hnames).1 hget
  · have hget := Array.getElem?_eq_getElem hn
    rw [Grammar.nonterminal?, Grammar.nonterminalName, Array.getD_eq_getD_getElem?, hget]
    exact findIdx?_of_nodup (f := id) (by simpa using (List.nodup_append.mp hnames).2.1) hget
  · obtain ⟨i, rfl⟩ := Nat.exists_eq_add_of_le' h2
    have hcount := c.terminalCount
    have hi : i < ts.keys.size := by
      change i < ts.size
      omega
    have hget : g.terminals[i + 2]? = some ⟨ts.keys[i], d.precedenceOf ts.keys[i]⟩ := by
      rw [← Array.getElem?_toList, c.terminals_eq, List.getElem?_cons_succ,
        List.getElem?_cons_succ, List.getElem?_map, Array.getElem?_toList,
        Array.getElem?_eq_getElem hi]
      rfl
    rw [Grammar.terminalPrecedence, Grammar.terminalName, Array.getD_eq_getD_getElem?, hget]
    exact h.precedenceOf _
  · rw [c.terminalCount]
    omega

end Definition.Completed

namespace Outline.Realized

variable {o : Outline} {g : Grammar} (hg : o.Realized g)

include hg

theorem symbol_ext {s s' : Symbol} (hs : g.Proper s) (hs' : g.Proper s')
    (heq : g.symbolName s = g.symbolName s') : s = s' := by
  have hdisjoint : ∀ {t n : Nat}, t < g.terminals.size → n < g.nonterminals.size →
      g.terminalName t ≠ g.nonterminalName n := by
    intro t n ht hn hname
    refine (List.nodup_append.mp hg.names_nodup).2.2 (g.terminalName t) ?_
      (g.nonterminalName n) ?_ hname
    · refine List.mem_map.mpr ⟨g.terminals[t], Array.mem_toList_iff.mpr (Array.getElem_mem ht), ?_⟩
      simp [Grammar.terminalName, ht]
    · rw [Array.mem_toList_iff]
      simp [Grammar.nonterminalName, hn]
  cases s with
  | terminal t =>
    cases s' with
    | terminal t' =>
      have ht := hg.terminal?_eq t hs.2
      have ht' := hg.terminal?_eq t' hs'.2
      rw [show g.terminalName t = g.terminalName t' from heq, ht'] at ht
      rw [Option.some.inj ht]
    | nonterminal n' => exact absurd heq (hdisjoint hs.2 hs'.2)
  | nonterminal n =>
    cases s' with
    | terminal t' => exact absurd heq.symm (hdisjoint hs'.2 hs.2)
    | nonterminal n' =>
      have hn := hg.nonterminal?_eq n hs.2
      have hn' := hg.nonterminal?_eq n' hs'.2
      rw [show g.nonterminalName n = g.nonterminalName n' from heq, hn'] at hn
      rw [Option.some.inj hn]

theorem symbols_ext {l l' : List Symbol} (hl : ∀ s ∈ l, g.Proper s) (hl' : ∀ s ∈ l', g.Proper s)
    (heq : l.map g.symbolName = l'.map g.symbolName) : l = l' := by
  induction l generalizing l' with
  | nil => exact (List.map_eq_nil_iff.mp heq.symm).symm
  | cons s l ih =>
    cases l' with
    | nil => cases heq
    | cons s' l' =>
      rw [List.forall_mem_cons] at hl hl'
      obtain ⟨hname, hrest⟩ := List.cons.inj heq
      rw [hg.symbol_ext hl.1 hl'.1 hname, ih hl.2 hl'.2 hrest]

theorem first_terminals : g.terminals[0]? = some ⟨Symbol.endName, none⟩ ∧
    g.terminals[1]? = some ⟨Symbol.errorName, none⟩ := by
  have htake := hg.reserved_terminals
  have hzero := congrArg (·[0]?) htake
  have hone := congrArg (·[1]?) htake
  simp only [List.getElem?_take, Array.getElem?_toList] at hzero hone
  exact ⟨by simpa using hzero, by simpa using hone⟩

theorem unranked_reserved : g.terminalPrecedence Symbol.endOfInput = none ∧
    g.terminalPrecedence Symbol.errorToken = none := by
  obtain ⟨hzero, hone⟩ := hg.first_terminals
  simp [Grammar.terminalPrecedence, Symbol.endOfInput, Symbol.errorToken, hzero, hone]

end Outline.Realized

/-- Declarations define a grammar exactly if they are coherent, those that failed included as far
as they took effect, and the grammar holds what was declared. The number that answered a rule is
the index of a production with its two sides. -/
theorem define_coherent (calls : List Declaration) :
    let answers := (define true (calls.map ([·])) .empty).1
    let result := (define true (calls.map ([·])) .empty).2
    let o := Outline.ofDeclarations calls answers
    ((∃ g, result = .ok g) ↔ o.Coherent) ∧ ∀ g, result = .ok g → o.Realized g ∧
      ∀ (i : Nat) (left : String) (right : List String) (level : Option String)
        (answer : Option Nat), calls[i]? = some (.rule left right level) →
        answers[i]? = some (.ok answer) →
        ∃ p, answer = some p ∧ 0 < p ∧ p < g.productions.size ∧
          g.nonterminalName (g.production p).left = left ∧
          (g.production p).right.toList.map g.symbolName =
            right.map (fun text => (SymbolUse.parse text).name) ∧
          (g.production p).precedence = level.bind o.precedenceOf := by
  rw [Declaration.define_each]
  intro answers result o
  have hd := Definition.checked_applied calls
  have h : (Declaration.applied .empty calls).Outlined o := Declaration.outlined_applied calls
  refine ⟨Definition.exists_complete_iff hd h, fun g hg => ?_⟩
  obtain ⟨-, ts, start, rules, hsize, c⟩ := Definition.complete_eq_ok_iff.mp hg
  have hrealized := c.realized hd h hsize
  refine ⟨hrealized, fun i left right level answer hcall hanswer => ?_⟩
  obtain ⟨k, rfl, hrule⟩ := Declaration.rule_of_answer hcall hanswer
  rw [h.rules] at hrule
  obtain ⟨hleft, hright, hlevel⟩ := hrealized.rule k _ hrule
  have hk := (List.getElem?_eq_some_iff.mp hrule).1
  refine ⟨k + 1, rfl, Nat.succ_pos k, ?_, hleft, ?_, hlevel⟩
  · rw [hrealized.size_eq]
    omega
  · rw [hright, Rule.rightNames, List.map_map]
    rfl

def Declaration.mixed : List Declaration :=
  [.tokens ["x", "", "y"], .rule "S" ["x"] none, .rule "S" ["x"] none,
    .rule "S" ["error", "x"] none]

def Outline.mixed : Outline where
  tokens := ["x"]
  precedences := []
  rules := [⟨"S", [⟨"x", none⟩], none⟩, ⟨"S", [⟨"error", none⟩, ⟨"x", none⟩], none⟩]
  start := none

theorem Declaration.answers_mixed : answers mixed .empty =
    [.error (.reservedName ""), .ok (some 1), .error (.duplicateProduction "S"),
      .ok (some 2)] := by
  simp [mixed, answers, apply, Definition.declareTokens, Definition.declareRule,
    Definition.checkRule, isReserved, SymbolUse.parse, Rule.rightNames, Definition.addToken,
    Definition.empty, Symbol.acceptName, Symbol.endName, Symbol.errorName, maxIndex, Except.map]

theorem Outline.ofDeclarations_mixed :
    ofDeclarations Declaration.mixed (Declaration.answers Declaration.mixed .empty) = mixed := by
  rw [Declaration.answers_mixed]
  cbv

theorem Outline.coherent_mixed : mixed.Coherent := by
  refine ⟨by simp [mixed], ?_, ⟨"S", rfl, _, List.mem_cons_self, rfl⟩, ?_, ?_, ?_⟩
  · simp [mixed, Rule.rightNames, Defines, isReserved, Symbol.errorName, Symbol.acceptName,
      Symbol.endName]
  · simp [mixed]
  · rintro name ⟨⟩ r hr
    have hleft : r.left = "S" := by
      rcases List.mem_pair.mp hr with rfl | rfl <;> rfl
    rw [hleft]
  · decide

theorem define_coherent_mixed :
    (define true (Declaration.mixed.map ([·])) .empty).1[3]? = some (.ok (some 2)) ∧
      ∃ g, (define true (Declaration.mixed.map ([·])) .empty).2 = .ok g ∧
        g.productions.size = 3 ∧ g.nonterminalName (g.production 2).left = "S" ∧
        (g.production 2).right.toList.map g.symbolName = ["error", "x"] := by
  have hanswers : (define true (Declaration.mixed.map ([·])) .empty).1 =
      Declaration.answers Declaration.mixed .empty := by
    rw [Declaration.define_each]
  obtain ⟨hiff, hgrammar⟩ := define_coherent Declaration.mixed
  rw [hanswers, Outline.ofDeclarations_mixed] at hiff hgrammar
  rw [hanswers, Declaration.answers_mixed]
  obtain ⟨g, hg⟩ := hiff.mpr Outline.coherent_mixed
  obtain ⟨hrealized, hrule⟩ := hgrammar g hg
  rw [Declaration.answers_mixed] at hrule
  obtain ⟨p, hp, -, -, hleft, hright, -⟩ := hrule 3 "S" ["error", "x"] none (some 2) rfl rfl
  cases hp
  refine ⟨rfl, g, hg, hrealized.size_eq, hleft, ?_⟩
  rw [hright]
  cbv

end TableParsing
