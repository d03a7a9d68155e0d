import Mathlib
import TableParsing.Proofs.Grammar.Listed

/-! Defined grammars are well formed: production `0` is that of the augmented start symbol,
which occurs in no right side, the end of input occurs in no other production, every index is
in range, and every terminal has a name of its own. The limits that declarations are checked
against bound every index. -/

namespace TableParsing

namespace Grammar

def Defined (g : Grammar) : Prop :=
  ∃ (lenient : Bool) (steps : List (List Declaration)),
    (define lenient steps Definition.empty).2 = .ok g

def Proper (g : Grammar) : Symbol → Prop
  | .terminal t => t ≠ Symbol.endOfInput ∧ t < g.terminals.size
  | .nonterminal n => n ≠ Symbol.accept ∧ n < g.nonterminals.size

structure WellFormed (g : Grammar) : Prop where
  size_pos : 0 < g.productions.size
  accepting : g.production 0 = Definition.acceptProduction g.start
  left_proper : ∀ p, p ≠ 0 → p < g.productions.size →
    g.Proper (.nonterminal (g.production p).left)
  right_proper : ∀ p, p ≠ 0 → ∀ x ∈ (g.production p).right, g.Proper x
  start_proper : g.Proper (.nonterminal g.start)
  end_name : g.terminals[0]?.map (·.name) = some Symbol.endName
  names_nodup : (g.terminals.toList.map (·.name)).Nodup

theorem right_eq_empty {g : Grammar} {p : Nat} (h : g.productions.size ≤ p) :
    (g.production p).right = #[] := by
  rw [production, Array.getD_eq_getD_getElem?, Array.getElem?_eq_none h]
  rfl

theorem mem_productionsOf {g : Grammar} {p n : Nat} :
    p ∈ g.productionsOf n ↔ p < g.productions.size ∧ (g.production p).left = n := by
  simp [productionsOf]

namespace WellFormed

variable {g : Grammar} (wf : g.WellFormed)

include wf

theorem right_zero :
    (g.production 0).right = #[.nonterminal g.start, .terminal Symbol.endOfInput] := by
  rw [wf.accepting]
  rfl

theorem nonterminal_proper {p n : Nat} (h : .nonterminal n ∈ (g.production p).right) :
    n ≠ Symbol.accept ∧ n < g.nonterminals.size := by
  by_cases hp : p = 0
  · rw [hp, wf.right_zero] at h
    obtain rfl : n = g.start := by simpa using h
    exact wf.start_proper
  · exact wf.right_proper p hp _ h

theorem eq_zero_of_end_mem {p : Nat}
    (h : .terminal Symbol.endOfInput ∈ (g.production p).right) : p = 0 := by
  by_contra hp
  exact (wf.right_proper p hp _ h).1 rfl

theorem terminals_pos : 0 < g.terminals.size := by
  by_contra h
  have hend := wf.end_name
  rw [Array.getElem?_eq_none (by omega)] at hend
  cases hend

theorem terminal_lt {p t : Nat} (h : .terminal t ∈ (g.production p).right) :
    t < g.terminals.size := by
  by_cases hp : p = 0
  · rw [hp, wf.right_zero] at h
    obtain rfl : t = Symbol.endOfInput := by simpa using h
    exact wf.terminals_pos
  · exact (wf.right_proper p hp _ h).2

theorem left_lt {p : Nat} (hp : p < g.productions.size) :
    (g.production p).left < g.nonterminals.size := by
  by_cases h : p = 0
  · have hstart := wf.start_proper.2
    rw [h, wf.accepting]
    simp only [Definition.acceptProduction, Symbol.accept]
    omega
  · exact (wf.left_proper p h hp).2

end WellFormed

end Grammar

theorem bind_eq_ok {α β ε : Type} {x : Except ε α} {f : α → Except ε β} {b : β}
    (h : x >>= f = .ok b) : ∃ a, x = .ok a ∧ f a = .ok b := by
  cases x with
  | error e => cases h
  | ok a => exact ⟨a, rfl, h⟩

/-- What every step leaves grows along a fold, and what a step establishes about its element
stays true of everything larger. -/
theorem foldlM_ok {α β ε : Type} {f : β → α → Except ε β} {R : β → β → Prop}
    {Q : α → β → Prop} (refl : ∀ b, R b b) (trans : ∀ a b c, R a b → R b c → R a c)
    (mono : ∀ a b c, R b c → Q a b → Q a c)
    (step : ∀ b a c, f b a = .ok c → R b c ∧ Q a c) {l : List α} {b c : β}
    (h : l.foldlM f b = .ok c) : R b c ∧ ∀ a ∈ l, Q a c := by
  induction l generalizing b with
  | nil =>
    cases h
    exact ⟨refl _, fun a ha => absurd ha List.not_mem_nil⟩
  | cons a l ih =>
    rw [List.foldlM_cons] at h
    obtain ⟨d, ha, hl⟩ := bind_eq_ok h
    obtain ⟨hR, hQ⟩ := step _ _ _ ha
    obtain ⟨hR', hQ'⟩ := ih hl
    refine ⟨trans _ _ _ hR hR', ?_⟩
    intro x hx
    rcases List.mem_cons.mp hx with rfl | hx
    · exact mono _ _ _ hR' hQ
    · exact hQ' x hx

theorem forM_eq_ok {α ε : Type} {f : α → Except ε Unit} {l : List α} :
    l.forM f = .ok () ↔ ∀ a ∈ l, f a = .ok () := by
  induction l with
  | nil => simp [List.forM, pure, Except.pure]
  | cons a l ih =>
    rw [List.forall_mem_cons, ← ih, List.forM]
    constructor
    · intro h
      obtain ⟨_, ha, hrest⟩ := bind_eq_ok h
      exact ⟨ha, hrest⟩
    · rintro ⟨ha, hrest⟩
      rw [ha]
      exact hrest

theorem mapM_ok {α β ε : Type} {f : α → Except ε β} {l : List α} {l' : List β}
    (h : l.mapM f = .ok l') : List.Forall₂ (fun a b => f a = .ok b) l l' := by
  induction l generalizing l' with
  | nil =>
    cases h
    exact .nil
  | cons a l ih =>
    rw [List.mapM_cons] at h
    obtain ⟨b, ha, h⟩ := bind_eq_ok h
    obtain ⟨bs, hl, h⟩ := bind_eq_ok h
    cases h
    exact .cons ha (ih hl)

namespace Definition

def Permitted (name : String) : Prop := isReserved name = false ∧ name ≠ Symbol.errorName

def TokensPermitted (d : Definition) : Prop := ∀ name ∈ d.tokens.keys, Permitted name

theorem TokensPermitted.addToken {d : Definition} (h : d.TokensPermitted) {name : String}
    (free : isReserved name = false) : (d.addToken name).TokensPermitted := by
  rw [Definition.addToken]
  split
  case isTrue => exact h
  case isFalse hne =>
    intro a ha
    rcases d.tokens.mem_keys_insert.mp ha with ha | rfl
    · exact h a ha
    · exact ⟨free, by simpa using hne⟩

theorem TokensPermitted.declareTokens {names : List String} {d : Definition}
    (h : d.TokensPermitted) : (declareTokens names d).1.TokensPermitted := by
  induction names generalizing d with
  | nil => exact h
  | cons name rest ih =>
    rw [Definition.declareTokens]
    split
    case isTrue => exact h
    case isFalse free => exact ih (h.addToken (by simpa using free))

theorem assignPrecedence_tokens (level : Precedence) (names : List String) (d : Definition) :
    (assignPrecedence level names d).1.tokens = d.tokens := by
  induction names generalizing d with
  | nil => rfl
  | cons name rest ih =>
    rw [assignPrecedence]
    split
    · rfl
    · rw [ih]

theorem declarePrecedence_tokens (assoc : Assoc) (names : List String) (d : Definition) :
    (declarePrecedence assoc names d).1.tokens = d.tokens := by
  rw [declarePrecedence]
  split
  · rw [assignPrecedence_tokens]
  · rfl

theorem declareRule_tokens (r : Rule) (d : Definition) :
    (declareRule r d).1.tokens = d.tokens := by
  rw [declareRule]
  split <;> rfl

theorem TokensPermitted.apply {d : Definition} (h : d.TokensPermitted) (s : Declaration) :
    (s.apply d).1.TokensPermitted := by
  cases s with
  | token name =>
    have after : (Definition.declareTokens [name] d).1.TokensPermitted := h.declareTokens
    exact after
  | tokens names =>
    have after : (Definition.declareTokens names d).1.TokensPermitted := h.declareTokens
    exact after
  | precedence assoc names =>
    have same := declarePrecedence_tokens assoc names d
    exact fun name hn => h name (same ▸ hn)
  | start name => exact h
  | rule left right level =>
    have same := declareRule_tokens ⟨left, right.map SymbolUse.parse, level⟩ d
    exact fun name hn => h name (same ▸ hn)

section Invariant

variable {I : Definition → Prop}
  (keep : ∀ (s : Declaration) (d : Definition), I d → I (s.apply d).1)

include keep

theorem applyAll_keeps {steps : List Declaration} {d : Definition} (h : I d) :
    I (Declaration.applyAll steps d).1 := by
  induction steps generalizing d with
  | nil => exact h
  | cons s rest ih =>
    cases rest with
    | nil => exact keep s d h
    | cons t rest =>
      have first := keep s d h
      simp only [Declaration.applyAll]
      generalize s.apply d = after at first
      obtain ⟨d', answer⟩ := after
      cases answer with
      | error e => exact first
      | ok a => exact ih first

theorem exists_complete_of_define {lenient : Bool} {steps : List (List Declaration)}
    {d : Definition} {g : Grammar} (hd : I d) (h : (define lenient steps d).2 = .ok g) :
    ∃ d' : Definition, I d' ∧ d'.complete = .ok g := by
  induction steps generalizing d with
  | nil => exact ⟨d, hd, h⟩
  | cons step rest ih =>
    have after : I (Declaration.applyAll step d).1 := applyAll_keeps keep hd
    rw [define] at h
    generalize Declaration.applyAll step d = result at h after
    obtain ⟨d', answer⟩ := result
    cases answer with
    | ok a => exact ih after h
    | error e =>
      cases lenient with
      | true => exact ih after h
      | false => cases h

end Invariant

def Known (nonterminals terminals : Numbering String) (use : SymbolUse) : Prop :=
  use.name = Symbol.errorName ∨ use.name ∈ nonterminals.keys ∨ use.name ∈ terminals.keys

structure Grows (before after : Numbering String) : Prop where
  keep : ∀ name ∈ before.keys, name ∈ after.keys
  permitted : (∀ name ∈ before.keys, Permitted name) → ∀ name ∈ after.keys, Permitted name

theorem Grows.refl (n : Numbering String) : Grows n n := ⟨fun _ h => h, fun h => h⟩

theorem Grows.trans (a b c : Numbering String) (h : Grows a b) (h' : Grows b c) : Grows a c :=
  ⟨fun name hn => h'.keep name (h.keep name hn), fun ha => h'.permitted (h.permitted ha)⟩

theorem Known.mono {nonterminals : Numbering String} (use : SymbolUse) (a b : Numbering String)
    (h : Grows a b) (hk : Known nonterminals a use) : Known nonterminals b use := by
  rcases hk with hk | hk | hk
  · exact Or.inl hk
  · exact Or.inr (Or.inl hk)
  · exact Or.inr (Or.inr (h.keep _ hk))

theorem collectUse_ok {explicit : Bool} {nonterminals : Numbering String} {left : String}
    {before after : Numbering String} {use : SymbolUse}
    (h : collectUse explicit nonterminals left before use = .ok after) :
    Grows before after ∧ Known nonterminals after use := by
  rw [collectUse] at h
  split at h
  case isTrue hname =>
    cases h
    simp only [Bool.or_eq_true, beq_iff_eq, nonterminals.contains_iff] at hname
    exact ⟨.refl _, hname.imp id Or.inl⟩
  case isFalse hname =>
    have notError : use.name ≠ Symbol.errorName := by
      rintro heq
      simp [heq] at hname
    split at h
    case isTrue => cases h
    case isFalse free =>
      have permitted : Permitted use.name := ⟨by simpa using free, notError⟩
      split at h
      · split at h
        case isTrue declared =>
          cases h
          exact ⟨.refl _, Or.inr (Or.inr (Numbering.contains_iff _ |>.mp declared))⟩
        case isFalse => cases h
      · cases h
        refine ⟨⟨fun name hn => before.mem_keys_insert.mpr (Or.inl hn), ?_⟩,
          Or.inr (Or.inr (before.mem_keys_insert.mpr (Or.inr rfl)))⟩
        intro hb name hn
        rcases before.mem_keys_insert.mp hn with hn | rfl
        · exact hb name hn
        · exact permitted

theorem terminals_ok {d : Definition} {nonterminals ts : Numbering String}
    (hd : d.TokensPermitted) (h : d.terminals nonterminals = .ok ts) :
    (∀ name ∈ ts.keys, Permitted name) ∧
      ∀ r ∈ d.rules, ∀ use ∈ r.right, Known nonterminals ts use := by
  rw [terminals] at h
  rw [← Array.foldlM_toList] at h
  have rule : ∀ before (r : Rule) after,
      r.right.foldlM (collectUse (d.tokens.size != 0) nonterminals r.left) before = .ok after →
      Grows before after ∧ ∀ use ∈ r.right, Known nonterminals after use := by
    intro before r after hr
    exact foldlM_ok Grows.refl Grows.trans Known.mono (fun _ _ _ hu => collectUse_ok hu) hr
  obtain ⟨grows, known⟩ := foldlM_ok Grows.refl Grows.trans
    (fun r _ _ grown hk use hu => (hk use hu).mono _ _ _ grown) rule h
  refine ⟨grows.permitted ?_, fun r hr => known r (by simpa using hr)⟩
  intro name hn
  have hn := Numbering.mem_keys_ofList.mp hn
  exact hd name (Array.mem_toList_iff.mp (List.mem_filter.mp hn).1)

theorem resolveUse_proper {g : Grammar} {nonterminals ts : Numbering String} {use : SymbolUse}
    (known : Known nonterminals ts use) (terminalCount : g.terminals.size = ts.size + 2)
    (nonterminalCount : g.nonterminals.size = nonterminals.size + 1) :
    g.Proper (resolveUse nonterminals ts use) := by
  rw [resolveUse]
  cases hn : nonterminals.find? use.name with
  | some i =>
    have hi := nonterminals.find?_lt hn
    exact ⟨Nat.succ_ne_zero i, by omega⟩
  | none =>
    have notNonterminal := nonterminals.find?_eq_none_iff.mp hn
    dsimp only
    split
    case isTrue => exact ⟨by decide, by simp only [Symbol.errorToken]; omega⟩
    case isFalse notError =>
      have mem : use.name ∈ ts.keys := by
        rcases known with h | h | h
        · exact absurd (by simpa using h) notError
        · exact absurd h notNonterminal
        · exact h
      obtain ⟨i, hi⟩ := ts.exists_find?_of_mem mem
      have hlt := ts.find?_lt hi
      rw [hi]
      exact ⟨Nat.succ_ne_zero _, by simp only [Option.getD_some]; omega⟩

theorem production_ok {d : Definition} {nonterminals ts : Numbering String} {r : Rule}
    {p : Production} (h : d.production nonterminals ts r = .ok p) :
    p.left = (nonterminals.find? r.left).getD 0 + 1 ∧
      p.right = (r.right.map (resolveUse nonterminals ts)).toArray := by
  rw [production] at h
  dsimp only at h
  split at h
  · cases h
    exact ⟨rfl, rfl⟩
  · split at h
    · cases h
      exact ⟨rfl, rfl⟩
    · cases h

/-- What a completed definition consists of. -/
structure Completed (d : Definition) (g : Grammar) (ts : Numbering String) (start : Nat)
    (rules : Array Production) : Prop where
  collected : d.terminals d.nonterminals = .ok ts
  started : d.startIndex d.nonterminals ts = .ok start
  built : d.rules.mapM (d.production d.nonterminals ts) = .ok rules
  shape : g = Grammar.ofProductions
    (#[⟨Symbol.endName, none⟩, ⟨Symbol.errorName, none⟩] ++
      ts.keys.map fun name => ⟨name, d.precedenceOf name⟩)
    (#[Symbol.acceptName] ++ d.nonterminals.keys) (#[acceptProduction start] ++ rules) start
  reached : unreachable? g.nonterminals.size g.productions g.start = none

theorem complete_eq_ok_iff {d : Definition} {g : Grammar} : d.complete = .ok g ↔
    d.rules.toList ≠ [] ∧ ∃ ts start rules, ts.size ≤ 65534 ∧ Completed d g ts start rules := by
  constructor
  · intro h
    rw [complete] at h
    dsimp only at h
    split at h
    · cases h
    case isFalse hempty =>
    obtain ⟨-, -, h⟩ := bind_eq_ok h
    obtain ⟨ts, hts, h⟩ := bind_eq_ok h
    obtain ⟨start, hstart, h⟩ := bind_eq_ok h
    split at h
    · cases h
    case isFalse hsize =>
    obtain ⟨-, -, h⟩ := bind_eq_ok h
    obtain ⟨rules, hrules, h⟩ := bind_eq_ok h
    split at h
    · cases h
    case h_2 hreached =>
      cases h
      refine ⟨?_, ts, start, rules, ?_, hts, hstart, hrules, rfl, hreached⟩
      · simpa [Array.isEmpty_iff] using hempty
      · simp only [maxIndex] at hsize
        omega
  · rintro ⟨hempty, ts, start, rules, hsize, hts, hstart, hrules, rfl, hreached⟩
    have hnonempty : d.rules.isEmpty = false := by
      simpa [← Bool.not_eq_true, Array.isEmpty_iff] using hempty
    have hroom : ¬ ts.size + 2 > maxIndex + 1 := by
      simp only [maxIndex]
      omega
    have hreached' : unreachable? (#[Symbol.acceptName] ++ d.nonterminals.keys).size
      (#[acceptProduction start] ++ rules) start = none := hreached
    simp only [complete, hnonempty, Bool.false_eq_true, if_false, hts, hstart, hroom, hrules,
      hreached', bind, Except.bind, pure, Except.pure]

theorem complete_ok {d : Definition} {g : Grammar} (h : d.complete = .ok g) :
    ∃ ts start rules, Completed d g ts start rules := by
  obtain ⟨-, ts, start, rules, -, hcompleted⟩ := complete_eq_ok_iff.mp h
  exact ⟨ts, start, rules, hcompleted⟩

theorem startIndex_ok {d : Definition} {nonterminals ts : Numbering String} {start : Nat}
    (h : d.startIndex nonterminals ts = .ok start) :
    start ≠ 0 ∧ start < nonterminals.size + 1 := by
  unfold startIndex at h
  dsimp only at h
  -- the name is declared or the first left side; it is looked up in the same way
  split at h
  all_goals
    split at h
    · cases h
    · split at h
      case h_1 i hi =>
        cases h
        have hlt := nonterminals.find?_lt hi
        exact ⟨Nat.succ_ne_zero i, by omega⟩
      case h_2 => cases h

namespace Completed

variable {d : Definition} {g : Grammar} {ts : Numbering String} {start : Nat}
  {rules : Array Production} (c : Completed d g ts start rules)

include c

theorem terminalCount : g.terminals.size = ts.size + 2 := by
  rw [c.shape]
  simp [Grammar.ofProductions, Numbering.size]
  omega

theorem nonterminalCount : g.nonterminals.size = d.nonterminals.size + 1 := by
  rw [c.shape]
  simp [Grammar.ofProductions, Numbering.size]
  omega

theorem start_eq : g.start = start := by rw [c.shape]; rfl

theorem production_zero : g.production 0 = acceptProduction start := by
  have hfirst : (#[acceptProduction start] ++ rules)[0]? = some (acceptProduction start) :=
    Array.getElem?_append_left Nat.zero_lt_one
  rw [c.shape, Grammar.production, Array.getD_eq_getD_getElem?]
  exact congrArg (·.getD default) hfirst

theorem production_succ {k : Nat} (hk : k < rules.size) : g.production (k + 1) = rules[k] := by
  have hrest : (#[acceptProduction start] ++ rules)[k + 1]? = rules[k]? := by
    rw [Array.getElem?_append_right (Nat.le_add_left 1 k)]
    rfl
  rw [c.shape, Grammar.production, Array.getD_eq_getD_getElem?]
  exact congrArg (·.getD default) (hrest.trans (Array.getElem?_eq_getElem hk))

theorem productionCount : g.productions.size = rules.size + 1 := by
  rw [c.shape]
  simp [Grammar.ofProductions]
  omega

theorem rule_pairs : List.Forall₂ (fun r p => d.production d.nonterminals ts r = .ok p)
    d.rules.toList rules.toList := by
  have built := c.built
  rw [Array.mapM_eq_mapM_toList] at built
  cases hm : d.rules.toList.mapM (d.production d.nonterminals ts) with
  | error e =>
    rw [hm] at built
    cases built
  | ok list =>
    rw [hm] at built
    cases built
    exact mapM_ok hm

theorem exists_rule {p : Nat} (hp : p ≠ 0) (hlt : p < g.productions.size) :
    ∃ r ∈ d.rules, d.production d.nonterminals ts r = .ok (g.production p) := by
  obtain ⟨k, rfl⟩ := Nat.exists_eq_succ_of_ne_zero hp
  have hsize := c.productionCount
  have hk : k < rules.size := by omega
  have pairs := c.rule_pairs
  have hlen := pairs.length_eq
  have hk' : k < rules.toList.length := by simpa using hk
  have hr : k < d.rules.toList.length := by omega
  refine ⟨d.rules.toList[k], Array.mem_toList_iff.mp (List.getElem_mem hr), ?_⟩
  rw [c.production_succ hk]
  exact pairs.get hr hk'

theorem rule_proper (hd : d.TokensPermitted) {p : Nat} (hp : p ≠ 0)
    (hlt : p < g.productions.size) : g.Proper (.nonterminal (g.production p).left) ∧
      ∀ x ∈ (g.production p).right, g.Proper x := by
  obtain ⟨-, known⟩ := terminals_ok hd c.collected
  obtain ⟨r, hr, hok⟩ := c.exists_rule hp hlt
  obtain ⟨hleft, hright⟩ := production_ok hok
  have hmem : r.left ∈ d.nonterminals.keys :=
    Numbering.mem_keys_ofList.mpr (List.mem_map.mpr ⟨r, by simpa using hr, rfl⟩)
  obtain ⟨i, hi⟩ := d.nonterminals.exists_find?_of_mem hmem
  have hlt := d.nonterminals.find?_lt hi
  have hcount := c.nonterminalCount
  refine ⟨?_, ?_⟩
  · rw [hleft, hi]
    exact ⟨Nat.succ_ne_zero i, by simp only [Option.getD_some]; omega⟩
  · intro x hx
    rw [hright] at hx
    obtain ⟨use, hu, rfl⟩ := List.mem_map.mp (by simpa using hx)
    exact resolveUse_proper (known r hr use hu) c.terminalCount c.nonterminalCount

theorem wellFormed (hd : d.TokensPermitted) : g.WellFormed := by
  obtain ⟨permitted, -⟩ := terminals_ok hd c.collected
  have hstart := startIndex_ok c.started
  have names : g.terminals.toList.map (·.name) =
      Symbol.endName :: Symbol.errorName :: ts.keys.toList := by
    rw [c.shape]
    simp [Grammar.ofProductions, Function.comp_def]
  refine ⟨?_, ?_, fun p hp hlt => (c.rule_proper hd hp hlt).1, ?_, ?_, ?_, ?_⟩
  · rw [c.shape]
    change 0 < (#[acceptProduction start] ++ rules).size
    rw [Array.size_append, Array.size_singleton]
    omega
  · rw [c.production_zero, c.start_eq]
  · intro p hp x hx
    by_cases hlt : p < g.productions.size
    · exact (c.rule_proper hd hp hlt).2 x hx
    · rw [Grammar.right_eq_empty (by omega)] at hx
      simp at hx
  · have hcount := c.nonterminalCount
    rw [c.start_eq]
    exact ⟨hstart.1, by omega⟩
  · rw [c.shape]
    exact congrArg (Option.map Terminal.name) (Array.getElem?_append_left Nat.zero_lt_two)
  · rw [names]
    have notEnd : Symbol.endName ∉ ts.keys.toList := by
      intro h
      exact absurd (permitted _ (by simpa using h)).1 (by decide)
    have notError : Symbol.errorName ∉ ts.keys.toList := by
      intro h
      exact (permitted _ (by simpa using h)).2 rfl
    have distinct : Symbol.endName ≠ Symbol.errorName := by decide
    simp [notEnd, notError, distinct, ts.keys_nodup]

end Completed

end Definition

theorem Grammar.Defined.wellFormed {g : Grammar} (h : g.Defined) : g.WellFormed := by
  obtain ⟨lenient, steps, h⟩ := h
  have none : Definition.empty.TokensPermitted := by
    intro name hn
    simp [Definition.empty, Numbering.empty] at hn
  obtain ⟨d, hd, hc⟩ := Definition.exists_complete_of_define (fun s d hd => hd.apply s) none h
  obtain ⟨ts, start, rules, completed⟩ := Definition.complete_ok hc
  exact completed.wellFormed hd

namespace Definition

structure RulesBounded (d : Definition) : Prop where
  size_le : d.rules.size ≤ maxIndex
  length_le : ∀ r ∈ d.rules, r.right.length ≤ maxIndex

theorem declareTokens_rules (names : List String) (d : Definition) :
    (declareTokens names d).1.rules = d.rules := by
  induction names generalizing d with
  | nil => rfl
  | cons name rest ih =>
    rw [declareTokens]
    split
    · rfl
    · rw [ih, addToken]
      split <;> rfl

theorem assignPrecedence_rules (level : Precedence) (names : List String) (d : Definition) :
    (assignPrecedence level names d).1.rules = d.rules := by
  induction names generalizing d with
  | nil => rfl
  | cons name rest ih =>
    rw [assignPrecedence]
    split
    · rfl
    · rw [ih]

theorem declarePrecedence_rules (assoc : Assoc) (names : List String) (d : Definition) :
    (declarePrecedence assoc names d).1.rules = d.rules := by
  rw [declarePrecedence]
  split
  · rw [assignPrecedence_rules]
  · rfl

theorem checkRule_ok {d : Definition} {r : Rule} (h : d.checkRule r = .ok ()) :
    r.right.length ≤ maxIndex ∧ d.rules.size < maxIndex := by
  rw [checkRule] at h
  split at h
  · cases h
  · split at h
    · cases h
    · split at h
      · cases h
      · constructor <;> omega

theorem RulesBounded.declareRule {d : Definition} (h : d.RulesBounded) (r : Rule) :
    (declareRule r d).1.RulesBounded := by
  rw [Definition.declareRule]
  split
  · exact h
  case h_2 hcheck =>
    obtain ⟨hlength, hsize⟩ := checkRule_ok hcheck
    refine ⟨?_, ?_⟩
    · rw [Array.size_push]
      omega
    · intro s hs
      rcases Array.mem_push.mp hs with hs | rfl
      · exact h.length_le s hs
      · exact hlength

theorem RulesBounded.apply {d : Definition} (h : d.RulesBounded) (s : Declaration) :
    (s.apply d).1.RulesBounded := by
  have same : ∀ d' : Definition, d'.rules = d.rules → d'.RulesBounded :=
    fun d' heq => ⟨heq ▸ h.size_le, heq ▸ h.length_le⟩
  cases s with
  | token name => exact same _ (declareTokens_rules [name] d)
  | tokens names => exact same _ (declareTokens_rules names d)
  | precedence assoc names => exact same _ (declarePrecedence_rules assoc names d)
  | start name => exact same _ rfl
  | rule left right level => exact h.declareRule ⟨left, right.map SymbolUse.parse, level⟩

end Definition

namespace Grammar

/-- Every index of a grammar fits a word of 16 bits, and the two reserved terminals are there. -/
structure Bounded (g : Grammar) : Prop where
  terminals : 2 ≤ g.terminals.size
  nonterminals : g.nonterminals.size ≤ maxIndex + 1
  productions : g.productions.size ≤ maxIndex + 1
  length : ∀ p, (g.production p).right.size ≤ maxIndex

end Grammar

theorem Definition.Completed.bounded {d : Definition} {g : Grammar} {ts : Numbering String}
    {start : Nat} {rules : Array Production} (c : d.Completed g ts start rules)
    (hd : d.RulesBounded) : g.Bounded := by
  have hsize := hd.size_le
  have hlength := c.rule_pairs.length_eq
  rw [Array.length_toList, Array.length_toList] at hlength
  refine ⟨?_, ?_, ?_, ?_⟩
  · have hcount := c.terminalCount
    omega
  · have hcount := c.nonterminalCount
    have hle : d.nonterminals.size ≤ d.rules.size := by
      simpa [nonterminals] using Numbering.size_ofList_le (d.rules.toList.map (·.left))
    omega
  · have hcount := c.productionCount
    omega
  · intro p
    by_cases hp : p = 0
    · rw [hp, c.production_zero]
      exact (by decide : 2 ≤ maxIndex)
    by_cases hlt : p < g.productions.size
    · obtain ⟨r, hr, hok⟩ := c.exists_rule hp hlt
      rw [(production_ok hok).2, List.size_toArray, List.length_map]
      exact hd.length_le r hr
    · rw [Grammar.right_eq_empty (by omega)]
      decide

theorem Grammar.Defined.bounded {g : Grammar} (h : g.Defined) : g.Bounded := by
  obtain ⟨lenient, steps, h⟩ := h
  have none : Definition.empty.RulesBounded := ⟨Nat.zero_le _, by simp [Definition.empty]⟩
  obtain ⟨d, hd, hc⟩ := Definition.exists_complete_of_define (fun s d hd => hd.apply s) none h
  obtain ⟨ts, start, rules, completed⟩ := Definition.complete_ok hc
  exact completed.bounded hd

def Grammar.parenthesesRules : Array Production :=
  #[⟨1, #[.terminal 2, .nonterminal 1, .terminal 3], none,
      [⟨"(", 1⟩, ⟨"(1", 1⟩, ⟨"S", 2⟩, ⟨"S1", 2⟩, ⟨")", 3⟩, ⟨")1", 3⟩]⟩,
    ⟨1, #[], none, []⟩]

def Grammar.parentheses : Grammar :=
  .ofProductions #[⟨"$end", none⟩, ⟨"error", none⟩, ⟨"(", none⟩, ⟨")", none⟩] #["$accept", "S"]
    (#[Definition.acceptProduction 1] ++ parenthesesRules) 1

theorem Grammar.parentheses_defined : Grammar.parentheses.Defined :=
  ⟨false, [[.rule "S" ["(", "S", ")"] none, .rule "S" [] none]], Definition.define_eq_ok (by cbv)⟩

def Grammar.tolerantRules : Array Production :=
  #[⟨1, #[.nonterminal 1, .terminal 1], none,
      [⟨"L", 1⟩, ⟨"L1", 1⟩, ⟨"error", 2⟩, ⟨"error1", 2⟩]⟩,
    ⟨1, #[.terminal 2], none, [⟨"x", 1⟩, ⟨"x1", 1⟩]⟩,
    ⟨1, #[.terminal 3], none, [⟨"y", 1⟩, ⟨"y1", 1⟩]⟩]

def Grammar.tolerant : Grammar :=
  .ofProductions #[⟨"$end", none⟩, ⟨"error", none⟩, ⟨"x", none⟩, ⟨"y", none⟩] #["$accept", "L"]
    (#[Definition.acceptProduction 1] ++ tolerantRules) 1

theorem Grammar.tolerant_defined : Grammar.tolerant.Defined :=
  ⟨false, [[.rule "L" ["L", "error"] none, .rule "L" ["x"] none, .rule "L" ["y"] none]],
    Definition.define_eq_ok (by cbv)⟩

def Grammar.lenientRules : Array Production :=
  #[⟨1, #[.terminal 2], none, [⟨"y", 1⟩, ⟨"y1", 1⟩]⟩,
    ⟨1, #[.terminal 1], none, [⟨"error", 1⟩, ⟨"error1", 1⟩]⟩,
    ⟨1, #[.terminal 3, .nonterminal 2], none, [⟨"z", 1⟩, ⟨"z1", 1⟩, ⟨"C", 2⟩, ⟨"C1", 2⟩]⟩,
    ⟨2, #[.nonterminal 3, .nonterminal 2], none, [⟨"A", 1⟩, ⟨"A1", 1⟩, ⟨"C", 2⟩, ⟨"C1", 2⟩]⟩,
    ⟨3, #[], none, []⟩]

/-- A `y`, or errors in its place. A `z` begins forms without end. -/
def Grammar.lenient : Grammar :=
  .ofProductions #[⟨"$end", none⟩, ⟨"error", none⟩, ⟨"y", none⟩, ⟨"z", none⟩]
    #["$accept", "S", "C", "A"] (#[Definition.acceptProduction 1] ++ lenientRules) 1

theorem Grammar.lenient_defined : Grammar.lenient.Defined :=
  ⟨false, [[.rule "S" ["y"] none, .rule "S" ["error"] none, .rule "S" ["z", "C"] none,
    .rule "C" ["A", "C"] none, .rule "A" [] none]], Definition.define_eq_ok (by cbv)⟩

def Grammar.crossedRules : Array Production :=
  #[⟨1, #[.nonterminal 2, .terminal 2], none, [⟨"A", 1⟩, ⟨"A1", 1⟩, ⟨"x", 2⟩, ⟨"x1", 2⟩]⟩,
    ⟨1, #[.nonterminal 3, .terminal 3], none, [⟨"B", 1⟩, ⟨"B1", 1⟩, ⟨"y", 2⟩, ⟨"y1", 2⟩]⟩,
    ⟨1, #[.terminal 4, .nonterminal 2, .terminal 3], none,
      [⟨"z", 1⟩, ⟨"z1", 1⟩, ⟨"A", 2⟩, ⟨"A1", 2⟩, ⟨"y", 3⟩, ⟨"y1", 3⟩]⟩,
    ⟨1, #[.terminal 4, .nonterminal 3, .terminal 2], none,
      [⟨"z", 1⟩, ⟨"z1", 1⟩, ⟨"B", 2⟩, ⟨"B1", 2⟩, ⟨"x", 3⟩, ⟨"x1", 3⟩]⟩,
    ⟨2, #[.terminal 5], none, [⟨"w", 1⟩, ⟨"w1", 1⟩]⟩,
    ⟨3, #[.terminal 5], none, [⟨"w", 1⟩, ⟨"w1", 1⟩]⟩]

/-- A `w` stands for either of two nonterminals. The next terminal tells which, the one way at the
beginning and the other way after a `z`. -/
def Grammar.crossed : Grammar :=
  .ofProductions
    #[⟨"$end", none⟩, ⟨"error", none⟩, ⟨"x", none⟩, ⟨"y", none⟩, ⟨"z", none⟩, ⟨"w", none⟩]
    #["$accept", "S", "A", "B"] (#[Definition.acceptProduction 1] ++ crossedRules) 1

theorem Grammar.crossed_defined : Grammar.crossed.Defined :=
  ⟨false, [[.rule "S" ["A", "x"] none, .rule "S" ["B", "y"] none,
    .rule "S" ["z", "A", "y"] none, .rule "S" ["z", "B", "x"] none, .rule "A" ["w"] none,
    .rule "B" ["w"] none]], Definition.define_eq_ok (by cbv)⟩

end TableParsing
