import TableParsing.Proofs.Grammar.Declaration
import TableParsing.Proofs.Reachability

/-! A definition can be completed exactly if what it declares is coherent: it has a rule, its start
symbol is defined, every name is known, and every nonterminal can be reached. -/

namespace TableParsing

namespace Outline

variable (o : Outline)

def Defines (name : String) : Prop := ∃ r ∈ o.rules, r.left = name

def startName : Option String := o.start.or (o.rules.head?.map (·.left))

/-- A rule for the one name has the other on its right side. -/
def Mentions (a b : String) : Prop := ∃ r ∈ o.rules, r.left = a ∧ b ∈ r.rightNames

def terminalNames : Finset String :=
  (o.tokens.toFinset ∪ (o.rules.flatMap Rule.rightNames).toFinset).filter fun name =>
    name ≠ Symbol.errorName ∧ ∀ r ∈ o.rules, r.left ≠ name

structure Coherent : Prop where
  nonempty : o.rules ≠ []
  known : ∀ r ∈ o.rules, ∀ name ∈ r.rightNames, name = Symbol.errorName ∨ o.Defines name ∨
    isReserved name = false ∧ (name ∈ o.tokens ∨ o.tokens = [])
  started : ∃ name, o.startName = some name ∧ o.Defines name
  ranked : ∀ r ∈ o.rules, ∀ name, r.precedence = some name → name ∈ o.precedences.map (·.1)
  reachable : ∀ name, o.startName = some name →
    ∀ r ∈ o.rules, Relation.ReflTransGen o.Mentions name r.left
  bounded : o.terminalNames.card ≤ 65534

end Outline

theorem exists_foldlM_eq_ok_iff {α β ε : Type} {f : β → α → Except ε β} {I : β → Prop}
    {P : α → Prop} (succeeds : ∀ b a, I b → ((∃ c, f b a = .ok c) ↔ P a))
    (keep : ∀ b a c, I b → f b a = .ok c → I c) {l : List α} {b : β} (hb : I b) :
    (∃ c, l.foldlM f b = .ok c) ↔ ∀ a ∈ l, P a := by
  induction l generalizing b with
  | nil => simp [pure, Except.pure]
  | cons a l ih =>
    rw [List.forall_mem_cons]
    constructor
    · rintro ⟨c, h⟩
      obtain ⟨d, ha, hl⟩ := bind_eq_ok (by rwa [List.foldlM_cons] at h)
      exact ⟨(succeeds b a hb).mp ⟨d, ha⟩, (ih (keep _ _ _ hb ha)).mp ⟨c, hl⟩⟩
    · rintro ⟨ha, hl⟩
      obtain ⟨d, ha⟩ := (succeeds b a hb).mpr ha
      obtain ⟨c, hc⟩ := (ih (keep _ _ _ hb ha)).mpr hl
      exact ⟨c, by rw [List.foldlM_cons, ha]; exact hc⟩

theorem exists_mapM_eq_ok_iff {α β ε : Type} {f : α → Except ε β} {l : List α} :
    (∃ l', l.mapM f = .ok l') ↔ ∀ a ∈ l, ∃ b, f a = .ok b := by
  induction l with
  | nil => simp [pure, Except.pure]
  | cons a l ih =>
    rw [List.forall_mem_cons, ← ih]
    constructor
    · rintro ⟨l', h⟩
      rw [List.mapM_cons] at h
      obtain ⟨b, ha, h⟩ := bind_eq_ok h
      obtain ⟨bs, hl, -⟩ := bind_eq_ok h
      exact ⟨⟨b, ha⟩, bs, hl⟩
    · rintro ⟨⟨b, ha⟩, bs, hl⟩
      refine ⟨b :: bs, ?_⟩
      rw [List.mapM_cons, ha, hl]
      rfl

theorem mem_mapM {α β ε : Type} {f : α → Except ε β} {l : List α} {l' : List β}
    (h : l.mapM f = .ok l') {b : β} : b ∈ l' ↔ ∃ a ∈ l, f a = .ok b := by
  have hpairs := mapM_ok h
  clear h
  induction hpairs with
  | nil => simp
  | @cons a c l l' hac _ ih =>
    simp only [List.mem_cons, ih, exists_eq_or_imp, hac, Except.ok.injEq]
    exact or_congr_left eq_comm

theorem array_mapM_eq_ok_iff {α β ε : Type} {f : α → Except ε β} {l : Array α} {l' : Array β} :
    l.mapM f = .ok l' ↔ l.toList.mapM f = .ok l'.toList := by
  rw [Array.mapM_eq_mapM_toList]
  cases l.toList.mapM f with
  | error e => simp [Functor.map, Except.map]
  | ok list =>
    simp only [Functor.map, Except.map, Except.ok.injEq]
    constructor
    · rintro rfl
      rfl
    · rintro rfl
      rfl

theorem foldlM_mem_iff {α β γ ε : Type} {f : β → α → Except ε β} (mem : γ → β → Prop)
    {Q : α → γ → Prop} (step : ∀ b a c, f b a = .ok c → ∀ x, mem x c ↔ mem x b ∨ Q a x)
    {l : List α} {b c : β} (h : l.foldlM f b = .ok c) (x : γ) :
    mem x c ↔ mem x b ∨ ∃ a ∈ l, Q a x := by
  induction l generalizing b with
  | nil =>
    cases h
    simp
  | cons a l ih =>
    rw [List.foldlM_cons] at h
    obtain ⟨d, ha, hl⟩ := bind_eq_ok h
    rw [ih hl, step _ _ _ ha, or_assoc]
    simp

namespace Definition

variable {d : Definition}

theorem collectUse_mem {explicit : Bool} {nonterminals : Numbering String} {left : String}
    {before after : Numbering String} {use : SymbolUse}
    (h : collectUse explicit nonterminals left before use = .ok after) (name : String) :
    name ∈ after.keys ↔ name ∈ before.keys ∨
      use.name = name ∧ name ≠ Symbol.errorName ∧ name ∉ nonterminals.keys := by
  rw [collectUse] at h
  split at h
  case isTrue hother =>
    cases h
    simp only [Bool.or_eq_true, beq_iff_eq, nonterminals.contains_iff] at hother
    constructor
    · exact Or.inl
    · rintro (h | ⟨rfl, herror, hnonterminal⟩)
      · exact h
      · exact absurd hother (by simp [herror, hnonterminal])
  case isFalse hnew =>
    simp only [Bool.or_eq_true, beq_iff_eq, nonterminals.contains_iff, not_or] at hnew
    split at h
    · cases h
    · split at h
      · split at h
        case isTrue hdeclared =>
          cases h
          rw [Numbering.contains_iff] at hdeclared
          constructor
          · exact Or.inl
          · rintro (h | ⟨rfl, -⟩)
            · exact h
            · exact hdeclared
        case isFalse => cases h
      · cases h
        rw [before.mem_keys_insert]
        refine or_congr_right ⟨?_, fun h => h.1.symm⟩
        rintro rfl
        exact ⟨rfl, hnew⟩

theorem exists_collectUse_iff {explicit : Bool} {nonterminals : Numbering String} {left : String}
    {before : Numbering String} {use : SymbolUse} :
    (∃ after, collectUse explicit nonterminals left before use = .ok after) ↔
      use.name = Symbol.errorName ∨ use.name ∈ nonterminals.keys ∨
        isReserved use.name = false ∧ (explicit = true → use.name ∈ before.keys) := by
  rw [collectUse]
  split
  case isTrue hother =>
    simp only [Bool.or_eq_true, beq_iff_eq, nonterminals.contains_iff] at hother
    rcases hother with h | h <;> simp [h]
  case isFalse hnew =>
    simp only [Bool.or_eq_true, beq_iff_eq, nonterminals.contains_iff, not_or] at hnew
    cases hreserved : isReserved use.name with
    | true => simp [hnew]
    | false =>
      cases explicit with
      | false => simp
      | true =>
        by_cases hmem : use.name ∈ before.keys
        · simp [before.contains_iff.mpr hmem, hmem]
        · have hnot : before.contains use.name = false := by
            rw [← Bool.not_eq_true, before.contains_iff]
            exact hmem
          simp [hnot, hnew, hmem]

theorem mem_declaredTerminals {nonterminals : Numbering String} {name : String} :
    name ∈ (d.declaredTerminals nonterminals).keys ↔
      name ∈ d.tokens.keys ∧ name ∉ nonterminals.keys := by
  rw [declaredTerminals, Numbering.mem_keys_ofList, List.mem_filter, Numbering.toList,
    Array.mem_toList_iff, Bool.not_eq_true', ← Bool.not_eq_true, Numbering.contains_iff]

theorem terminals_mem {nonterminals ts : Numbering String} (h : d.terminals nonterminals = .ok ts)
    (name : String) : name ∈ ts.keys ↔ name ∈ d.tokens.keys ∧ name ∉ nonterminals.keys ∨
      ∃ r ∈ d.rules.toList, name ∈ r.rightNames ∧ name ≠ Symbol.errorName ∧
        name ∉ nonterminals.keys := by
  rw [terminals, ← Array.foldlM_toList] at h
  have hrule : ∀ before (r : Rule) after,
      r.right.foldlM (collectUse (d.tokens.size != 0) nonterminals r.left) before = .ok after →
      ∀ name, name ∈ after.keys ↔ name ∈ before.keys ∨ name ∈ r.rightNames ∧
        name ≠ Symbol.errorName ∧ name ∉ nonterminals.keys := by
    intro before r after hr name
    rw [foldlM_mem_iff (f := collectUse (d.tokens.size != 0) nonterminals r.left)
      (fun name ts => name ∈ ts.keys) (fun _ _ _ => collectUse_mem) hr, Rule.rightNames,
      List.mem_map]
    refine or_congr_right ⟨?_, ?_⟩
    · rintro ⟨use, huse, rfl, h⟩
      exact ⟨⟨use, huse, rfl⟩, h⟩
    · rintro ⟨⟨use, huse, rfl⟩, h⟩
      exact ⟨use, huse, rfl, h⟩
  rw [foldlM_mem_iff (fun name (ts : Numbering String) => name ∈ ts.keys) hrule h,
    mem_declaredTerminals]

/-- A name that may stand on a right side. -/
def Acceptable (d : Definition) (nonterminals : Numbering String) (name : String) : Prop :=
  name = Symbol.errorName ∨ name ∈ nonterminals.keys ∨
    isReserved name = false ∧ (name ∈ d.tokens.keys ∨ d.tokens.size = 0)

/-- Where tokens are declared, right sides add no terminals. -/
def Settled (d : Definition) (nonterminals ts : Numbering String) : Prop :=
  d.tokens.size ≠ 0 → ts = d.declaredTerminals nonterminals

section Settled

variable {nonterminals before after : Numbering String} {left : String} {use : SymbolUse}

theorem Settled.collectUse (h : d.Settled nonterminals before)
    (hok : collectUse (d.tokens.size != 0) nonterminals left before use = .ok after) :
    d.Settled nonterminals after := by
  intro hsize
  rw [← h hsize]
  have hexplicit : (d.tokens.size != 0) = true := by simpa using hsize
  rw [Definition.collectUse, hexplicit] at hok
  split at hok
  · cases hok
    rfl
  · split at hok
    · cases hok
    · simp only [if_true] at hok
      split at hok
      · cases hok
        rfl
      · cases hok

theorem Settled.exists_collectUse_iff (h : d.Settled nonterminals before) :
    (∃ after, Definition.collectUse (d.tokens.size != 0) nonterminals left before use =
      .ok after) ↔ d.Acceptable nonterminals use.name := by
  rw [Definition.exists_collectUse_iff, Acceptable]
  by_cases hnon : use.name ∈ nonterminals.keys
  · simp [hnon]
  · simp only [hnon, false_or]
    refine or_congr_right (and_congr_right fun _ => ?_)
    by_cases hsize : d.tokens.size = 0
    · simp [hsize]
    · simp [h hsize, mem_declaredTerminals, hsize, hnon]

theorem Settled.foldlM {uses : List SymbolUse} (h : d.Settled nonterminals before)
    (hok : uses.foldlM (Definition.collectUse (d.tokens.size != 0) nonterminals left) before =
      .ok after) : d.Settled nonterminals after :=
  (foldlM_ok (R := fun b c => d.Settled nonterminals b → d.Settled nonterminals c)
    (Q := fun _ _ => True) (fun _ => id) (fun _ _ _ h h' => h' ∘ h) (fun _ _ _ _ => id)
    (fun _ _ _ hu => ⟨fun h => h.collectUse hu, trivial⟩) hok).1 h

end Settled

theorem exists_terminals_iff {nonterminals : Numbering String} :
    (∃ ts, d.terminals nonterminals = .ok ts) ↔
      ∀ r ∈ d.rules.toList, ∀ name ∈ r.rightNames, d.Acceptable nonterminals name := by
  have hrule : ∀ before (r : Rule), d.Settled nonterminals before →
      ((∃ after, r.right.foldlM (collectUse (d.tokens.size != 0) nonterminals r.left) before =
        .ok after) ↔ ∀ name ∈ r.rightNames, d.Acceptable nonterminals name) := by
    intro before r h
    rw [exists_foldlM_eq_ok_iff (f := collectUse (d.tokens.size != 0) nonterminals r.left)
      (fun _ _ h => h.exists_collectUse_iff) (fun _ _ _ h hu => h.collectUse hu) h]
    simp [Rule.rightNames]
  rw [terminals, ← Array.foldlM_toList]
  exact exists_foldlM_eq_ok_iff hrule (fun _ _ _ h hr => h.foldlM hr) fun _ => rfl

theorem startIndex_eq_ok_iff {nonterminals ts : Numbering String} {start : Nat}
    (hts : ∀ name ∈ nonterminals.keys, name ≠ Symbol.errorName ∧ name ∉ ts.keys) :
    d.startIndex nonterminals ts = .ok start ↔ ∃ i, start = i + 1 ∧
      nonterminals.find? (d.start.getD (nonterminals.keys.getD 0 "")) = some i := by
  have hname : d.startIndex nonterminals ts =
      { d with start := d.start.getD (nonterminals.keys.getD 0 "") }.startIndex nonterminals ts := by
    rw [startIndex, startIndex]
    cases d.start <;> rfl
  rw [hname]
  generalize d.start.getD (nonterminals.keys.getD 0 "") = name
  rw [startIndex]
  dsimp only
  cases hfind : nonterminals.find? name with
  | none => split <;> simp
  | some i =>
    obtain ⟨herror, hterminal⟩ := hts name (nonterminals.mem_of_find? hfind)
    have hnot : (name == Symbol.errorName || ts.contains name) = false := by
      rw [← Bool.not_eq_true, Bool.or_eq_true, beq_iff_eq, ts.contains_iff]
      simp [herror, hterminal]
    rw [hnot]
    simp [eq_comm]

theorem precedenceOf_isSome_iff {name : String} :
    (d.precedenceOf name).isSome = true ↔ name ∈ d.precedences.map (·.1) := by
  simp only [precedenceOf, Option.isSome_map, List.find?_isSome, beq_iff_eq, List.mem_map]

theorem exists_production_iff {nonterminals ts : Numbering String} {r : Rule} :
    (∃ p, d.production nonterminals ts r = .ok p) ↔
      ∀ name, r.precedence = some name → name ∈ d.precedences.map (·.1) := by
  simp only [← precedenceOf_isSome_iff, production]
  cases r.precedence with
  | none => simp [bind, Except.bind, pure, Except.pure]
  | some name =>
    cases hlevel : d.precedenceOf name <;>
      simp [hlevel, bind, Except.bind, pure, Except.pure]

theorem mem_nonterminals {o : Outline} (h : d.Outlined o) {name : String} :
    name ∈ d.nonterminals.keys ↔ o.Defines name := by
  rw [nonterminals, Numbering.mem_keys_ofList, h.rules, List.mem_map]
  rfl

theorem resolveUse_eq_nonterminal {nonterminals ts : Numbering String} {use : SymbolUse}
    {m : Nat} : resolveUse nonterminals ts use = .nonterminal m ↔
      ∃ j, m = j + 1 ∧ nonterminals.find? use.name = some j := by
  rw [resolveUse]
  cases nonterminals.find? use.name with
  | some j => simp [eq_comm]
  | none =>
    dsimp only
    split <;> simp

section Reachability

variable {o : Outline} {ts : Numbering String} {start : Nat} {rules : Array Production}

theorem mem_neighbours_rules (h : d.Outlined o)
    (hrules : d.rules.toList.mapM (d.production d.nonterminals ts) = .ok rules.toList)
    {i m : Nat} {a : String} (ha : d.nonterminals.find? a = some i) :
    m ∈ neighbours (#[acceptProduction start] ++ rules) (i + 1) ↔
      ∃ j b, m = j + 1 ∧ d.nonterminals.find? b = some j ∧ o.Mentions a b := by
  have hleft : ∀ r ∈ d.rules.toList, ((d.nonterminals.find? r.left).getD 0 + 1 = i + 1 ↔
      r.left = a) := by
    intro r hr
    have hmem := (mem_nonterminals h).mpr ⟨r, h.rules ▸ hr, rfl⟩
    obtain ⟨j, hj⟩ := d.nonterminals.exists_find?_of_mem hmem
    rw [hj, Option.getD_some, Nat.add_right_cancel_iff]
    constructor
    · rintro rfl
      exact d.nonterminals.eq_of_find? hj ha
    · rintro rfl
      exact Option.some.inj (hj.symm.trans ha)
  simp only [neighbours, List.mem_flatMap, List.mem_filter, List.mem_filterMap, beq_iff_eq]
  constructor
  · rintro ⟨p, ⟨hp, hpleft⟩, x, hx, hm⟩
    obtain rfl : x = .nonterminal m := by
      cases x with
      | terminal t => cases hm
      | nonterminal n => exact congrArg _ (Option.some.inj hm)
    have hrule : p ∈ rules.toList := by
      rcases Array.mem_append.mp (Array.mem_toList_iff.mp hp) with hp | hp
      · obtain rfl : p = acceptProduction start := by simpa using hp
        exact absurd hpleft (Nat.succ_ne_zero i).symm
      · exact Array.mem_toList_iff.mpr hp
    obtain ⟨r, hr, hok⟩ := (mem_mapM hrules).mp hrule
    obtain ⟨hl, hright⟩ := production_ok hok
    rw [hl, hleft r hr] at hpleft
    rw [hright] at hx
    obtain ⟨use, huse, hresolve⟩ := List.mem_map.mp (by simpa using hx)
    obtain ⟨j, rfl, hj⟩ := resolveUse_eq_nonterminal.mp hresolve
    exact ⟨j, use.name, rfl, hj, r, h.rules ▸ hr, hpleft, List.mem_map_of_mem huse⟩
  · rintro ⟨j, b, rfl, hj, r, hr, hra, hb⟩
    rw [← h.rules] at hr
    obtain ⟨use, huse, rfl⟩ := List.mem_map.mp hb
    obtain ⟨p, hok⟩ := exists_mapM_eq_ok_iff.mp ⟨_, hrules⟩ r hr
    obtain ⟨hl, hright⟩ := production_ok hok
    refine ⟨p, ⟨?_, ?_⟩, .nonterminal (j + 1), ?_, rfl⟩
    · rw [Array.mem_toList_iff, Array.mem_append]
      exact Or.inr (Array.mem_toList_iff.mp ((mem_mapM hrules).mpr ⟨r, hr, hok⟩))
    · rw [hl, hleft r hr, hra]
    · rw [hright]
      exact List.mem_map.mpr ⟨use, huse, resolveUse_eq_nonterminal.mpr ⟨j, rfl, hj⟩⟩

theorem eq_start_of_mem_neighbours
    (hrules : d.rules.toList.mapM (d.production d.nonterminals ts) = .ok rules.toList) {m : Nat}
    (hm : m ∈ neighbours (#[acceptProduction start] ++ rules) 0) : m = start := by
  simp only [neighbours, List.mem_flatMap, List.mem_filter, List.mem_filterMap, beq_iff_eq] at hm
  obtain ⟨p, ⟨hp, hleft⟩, x, hx, hm⟩ := hm
  rcases Array.mem_append.mp (Array.mem_toList_iff.mp hp) with hp | hp
  · obtain rfl : p = acceptProduction start := by simpa using hp
    have hx' : x = .nonterminal start ∨ x = .terminal Symbol.endOfInput := by
      simpa [acceptProduction] using hx
    rcases hx' with rfl | rfl
    · exact (Option.some.inj hm).symm
    · cases hm
  · obtain ⟨r, -, hok⟩ := (mem_mapM hrules).mp (Array.mem_toList_iff.mpr hp)
    rw [(production_ok hok).1] at hleft
    cases hleft

theorem reaches_iff (start : Nat) (h : d.Outlined o)
    (hrules : d.rules.toList.mapM (d.production d.nonterminals ts) = .ok rules.toList)
    {i n : Nat} {a : String} (ha : d.nonterminals.find? a = some i) :
    Reachability.Reaches (neighbours (#[acceptProduction start] ++ rules)) (i + 1) n ↔
      ∃ j b, n = j + 1 ∧ d.nonterminals.find? b = some j ∧
        Relation.ReflTransGen o.Mentions a b := by
  constructor
  · intro hreaches
    induction hreaches with
    | refl => exact ⟨i, a, rfl, ha, .refl⟩
    | tail _ hstep ih =>
      obtain ⟨j, b, rfl, hb, hpath⟩ := ih
      obtain ⟨k, c, rfl, hc, hmentions⟩ := (mem_neighbours_rules h hrules hb).mp hstep
      exact ⟨k, c, rfl, hc, hpath.tail hmentions⟩
  · rintro ⟨j, b, rfl, hb, hpath⟩
    induction hpath generalizing j with
    | refl =>
      rw [ha] at hb
      cases hb
      exact .refl
    | @tail b c _ hmentions ih =>
      have hdefined : o.Defines b := by
        obtain ⟨r, hr, hleft, -⟩ := hmentions
        exact ⟨r, hr, hleft⟩
      obtain ⟨k, hk⟩ := d.nonterminals.exists_find?_of_mem ((mem_nonterminals h).mpr hdefined)
      exact (ih k hk).tail
        ((mem_neighbours_rules h hrules hk).mpr ⟨j, c, rfl, hb, hmentions⟩)

theorem unreachable?_eq_none_iff (h : d.Outlined o)
    (hrules : d.rules.toList.mapM (d.production d.nonterminals ts) = .ok rules.toList)
    {i : Nat} {a : String} (ha : d.nonterminals.find? a = some i) :
    unreachable? (d.nonterminals.size + 1) (#[acceptProduction (i + 1)] ++ rules) (i + 1) = none ↔
      ∀ r ∈ o.rules, Relation.ReflTransGen o.Mentions a r.left := by
  have hfind : ∀ n, n < d.nonterminals.size → ∃ b, d.nonterminals.find? b = some n := by
    intro n hn
    exact ⟨_, d.nonterminals.find?_eq_some_iff.mpr (Array.getElem?_eq_getElem hn)⟩
  have hroots : ∀ r ∈ [i + 1], r < d.nonterminals.size + 1 := by
    simpa using d.nonterminals.find?_lt ha
  have hnext : ∀ n < d.nonterminals.size + 1,
      ∀ m ∈ neighbours (#[acceptProduction (i + 1)] ++ rules) n, m < d.nonterminals.size + 1 := by
    intro n hn m hm
    cases n with
    | zero =>
      obtain rfl := eq_start_of_mem_neighbours hrules hm
      exact hroots _ (List.mem_singleton.mpr rfl)
    | succ n =>
      obtain ⟨b, hb⟩ := hfind n (by omega)
      obtain ⟨j, c, rfl, hc, -⟩ := (mem_neighbours_rules h hrules hb).mp hm
      have hlt := d.nonterminals.find?_lt hc
      omega
  have hmem : ∀ n, n ∈ Reachability.reach (d.nonterminals.size + 1)
      (neighbours (#[acceptProduction (i + 1)] ++ rules)) [i + 1] ↔
      ∃ j b, n = j + 1 ∧ d.nonterminals.find? b = some j ∧
        Relation.ReflTransGen o.Mentions a b := by
    intro n
    rw [Reachability.mem_reach hroots hnext, ← reaches_iff (i + 1) h hrules ha]
    simp
  rw [unreachable?, List.find?_eq_none]
  constructor
  · intro hall r hr
    obtain ⟨j, hj⟩ := d.nonterminals.exists_find?_of_mem ((mem_nonterminals h).mpr ⟨r, hr, rfl⟩)
    have hlt := d.nonterminals.find?_lt hj
    have hreached := hall (j + 1) (List.mem_range.mpr (by omega))
    obtain ⟨k, b, hk, hb, hpath⟩ := (hmem (j + 1)).mp (by
      simpa [Symbol.accept] using hreached)
    obtain rfl : j = k := by omega
    rwa [← d.nonterminals.eq_of_find? hb hj]
  · intro hall n hn
    cases n with
    | zero => simp [Symbol.accept]
    | succ n =>
      obtain ⟨b, hb⟩ := hfind n (by simpa using hn)
      obtain ⟨r, hr, rfl⟩ := (mem_nonterminals h).mp (d.nonterminals.mem_of_find? hb)
      have hreached := (hmem (n + 1)).mpr ⟨n, r.left, rfl, hb, hall r hr⟩
      simpa [Symbol.accept] using hreached

end Reachability

theorem startName_eq {o : Outline} (h : d.Outlined o) (hne : d.rules.toList ≠ []) :
    o.startName = some (d.start.getD (d.nonterminals.keys.getD 0 "")) := by
  rw [Outline.startName, ← h.start]
  cases d.start with
  | some name => rfl
  | none =>
    obtain ⟨r, rest, hrules⟩ := List.exists_cons_of_ne_nil hne
    have hfirst : d.nonterminals.keys[0]? = some r.left := by
      rw [nonterminals, hrules, List.map_cons, Numbering.ofList, List.foldl_cons]
      exact Numbering.getElem?_foldl_insert (by simp [Numbering.keys_insert, Numbering.empty])
    rw [← h.rules, hrules, Array.getD_eq_getD_getElem?, hfirst]
    rfl

theorem Checked.disjoint {o : Outline} {ts : Numbering String} (hd : d.Checked)
    (hts : d.terminals d.nonterminals = .ok ts) (h : d.Outlined o) :
    ∀ name ∈ d.nonterminals.keys, name ≠ Symbol.errorName ∧ name ∉ ts.keys := by
  intro name hname
  obtain ⟨r, hr, rfl⟩ := (mem_nonterminals h).mp hname
  refine ⟨(hd.lefts r (h.rules ▸ hr)).2, fun hmem => ?_⟩
  rcases (terminals_mem hts _).mp hmem with ⟨-, hnot⟩ | ⟨-, -, -, -, hnot⟩
  · exact hnot hname
  · exact hnot hname

theorem size_terminals {o : Outline} {ts : Numbering String} (hd : d.Checked)
    (hts : d.terminals d.nonterminals = .ok ts) (h : d.Outlined o) :
    ts.keys.toList.toFinset = o.terminalNames ∧ ts.size = o.terminalNames.card := by
  have hkeys : ts.keys.toList.toFinset = o.terminalNames := by
    ext name
    have hleft : (∀ r ∈ o.rules, r.left ≠ name) ↔ name ∉ d.nonterminals.keys := by
      rw [mem_nonterminals h]
      simp [Outline.Defines]
    rw [List.mem_toFinset, Array.mem_toList_iff, terminals_mem hts, Outline.terminalNames,
      Finset.mem_filter, hleft, Finset.mem_union, List.mem_toFinset, List.mem_toFinset,
      List.mem_flatMap, h.rules, ← h.tokens]
    constructor
    · rintro (⟨htoken, hnot⟩ | ⟨r, hr, hname, herror, hnot⟩)
      · exact ⟨Or.inl htoken, (hd.tokens name htoken).2, hnot⟩
      · exact ⟨Or.inr ⟨r, hr, hname⟩, herror, hnot⟩
    · rintro ⟨htoken | ⟨r, hr, hname⟩, herror, hnot⟩
      · exact Or.inl ⟨htoken, hnot⟩
      · exact Or.inr ⟨r, hr, hname, herror, hnot⟩
  refine ⟨hkeys, ?_⟩
  rw [← hkeys, List.toFinset_card_of_nodup ts.keys_nodup, Array.length_toList]
  rfl

section Coherence

variable {o : Outline} (hd : d.Checked) (h : d.Outlined o)

include h

theorem acceptable_iff {name : String} : d.Acceptable d.nonterminals name ↔
    name = Symbol.errorName ∨ o.Defines name ∨
      isReserved name = false ∧ (name ∈ o.tokens ∨ o.tokens = []) := by
  have htokens : o.tokens = [] ↔ d.tokens.size = 0 := by
    rw [Numbering.size, Array.size_eq_zero_iff, List.eq_nil_iff_forall_not_mem,
      Array.eq_empty_iff_forall_not_mem]
    exact forall_congr' fun name => not_congr (h.tokens name).symm
  rw [Acceptable, mem_nonterminals h, h.tokens, htokens]

theorem mem_precedences {name : String} :
    name ∈ d.precedences.map (·.1) ↔ name ∈ o.precedences.map (·.1) := by
  rw [h.precedences, List.map_reverse, List.mem_reverse]

include hd

theorem coherent_of_complete {g : Grammar} (hg : d.complete = .ok g) : o.Coherent := by
  obtain ⟨hne, ts, start, rules, hsize, hcompleted⟩ := complete_eq_ok_iff.mp hg
  have hts := hcompleted.collected
  obtain ⟨i, rfl, hi⟩ := (startIndex_eq_ok_iff (hd.disjoint hts h)).mp hcompleted.started
  have hname := startName_eq h hne
  have hrules := array_mapM_eq_ok_iff.mp hcompleted.built
  have hreached : unreachable? (d.nonterminals.size + 1) (#[acceptProduction (i + 1)] ++ rules)
      (i + 1) = none := by
    have hreached := hcompleted.reached
    rw [hcompleted.nonterminalCount, hcompleted.shape] at hreached
    exact hreached
  refine ⟨h.rules ▸ hne, ?_, ?_, ?_, ?_, ?_⟩
  · intro r hr name hmem
    rw [← acceptable_iff h]
    exact exists_terminals_iff.mp ⟨ts, hts⟩ r (h.rules ▸ hr) name hmem
  · exact ⟨_, hname, (mem_nonterminals h).mp (d.nonterminals.mem_of_find? hi)⟩
  · intro r hr name hprec
    rw [← mem_precedences h]
    exact exists_production_iff.mp (exists_mapM_eq_ok_iff.mp ⟨_, hrules⟩ r (h.rules ▸ hr)) name
      hprec
  · intro name hstart
    rw [hname] at hstart
    cases hstart
    exact (unreachable?_eq_none_iff h hrules hi).mp hreached
  · rwa [← (size_terminals hd hts h).2]

theorem exists_complete_of_coherent (hcoherent : o.Coherent) : ∃ g, d.complete = .ok g := by
  have hne : d.rules.toList ≠ [] := h.rules ▸ hcoherent.nonempty
  have hname := startName_eq h hne
  obtain ⟨ts, hts⟩ : ∃ ts, d.terminals d.nonterminals = .ok ts := by
    refine exists_terminals_iff.mpr fun r hr name hmem => (acceptable_iff h).mpr ?_
    exact hcoherent.known r (h.rules ▸ hr) name hmem
  obtain ⟨name, hstart, hdefined⟩ := hcoherent.started
  rw [hname] at hstart
  cases hstart
  obtain ⟨i, hi⟩ := d.nonterminals.exists_find?_of_mem ((mem_nonterminals h).mpr hdefined)
  obtain ⟨rules, hrules⟩ :
      ∃ rules, d.rules.toList.mapM (d.production d.nonterminals ts) = .ok rules := by
    refine exists_mapM_eq_ok_iff.mpr fun r hr => exists_production_iff.mpr fun name hprec => ?_
    exact (mem_precedences h).mpr (hcoherent.ranked r (h.rules ▸ hr) name hprec)
  have hreached : unreachable? (d.nonterminals.size + 1)
      (#[acceptProduction (i + 1)] ++ rules.toArray) (i + 1) = none :=
    (unreachable?_eq_none_iff h hrules hi).mpr (hcoherent.reachable _ hname)
  refine ⟨_, complete_eq_ok_iff.mpr ⟨hne, ts, i + 1, rules.toArray, ?_, hts,
    (startIndex_eq_ok_iff (hd.disjoint hts h)).mpr ⟨i, rfl, hi⟩,
    array_mapM_eq_ok_iff.mpr hrules, rfl, ?_⟩⟩
  · rw [(size_terminals hd hts h).2]
    exact hcoherent.bounded
  · change unreachable? (#[Symbol.acceptName] ++ d.nonterminals.keys).size _ _ = none
    rw [Array.size_append, Nat.add_comm]
    exact hreached

theorem exists_complete_iff : (∃ g, d.complete = .ok g) ↔ o.Coherent :=
  ⟨fun ⟨_, hg⟩ => coherent_of_complete hd h hg, exists_complete_of_coherent hd h⟩

end Coherence

end Definition

end TableParsing
