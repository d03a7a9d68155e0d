import TableParsing.Proofs.Grammar.Naming
import TableParsing.Proofs.Numbering

/-! Completion by listings of names. The grammar that a definition is completed into depends on
its numberings through their keys alone. With every name looked up in a list and every alias
bound by counting in one, the same grammar comes out, and it comes out by evaluation. -/

namespace TableParsing

theorem foldlM_map {α β γ ε : Type} {φ : β → γ} {f : β → α → Except ε β}
    {g : γ → α → Except ε γ} (step : ∀ b a, (f b a).map φ = g (φ b) a) (l : List α) (b : β) :
    (l.foldlM f b).map φ = l.foldlM g (φ b) := by
  induction l generalizing b with
  | nil => rfl
  | cons a l ih =>
    rw [List.foldlM_cons, List.foldlM_cons, ← step]
    cases f b a with
    | error e => rfl
    | ok c => exact ih c

namespace Definition

def addName (names : Array String) (name : String) : Array String :=
  if names.contains name then names else names.push name

def collectName (explicit : Bool) (nonterminals : Array String) (left : String)
    (terminals : Array String) (use : SymbolUse) : Except GrammarError (Array String) :=
  if use.name == Symbol.errorName || nonterminals.contains use.name then .ok terminals
  else if isReserved use.name then .error (.reservedName use.name)
  else if explicit then
    if terminals.contains use.name then .ok terminals
    else .error (.undefinedSymbol use.name left)
  else .ok (addName terminals use.name)

theorem collectUse_keys (explicit : Bool) (nonterminals : Numbering String) (left : String)
    (terminals : Numbering String) (use : SymbolUse) :
    (collectUse explicit nonterminals left terminals use).map (·.keys) =
      collectName explicit nonterminals.keys left terminals.keys use := by
  simp only [collectUse, collectName, Numbering.contains_eq]
  split
  · rfl
  · split
    · rfl
    · split
      · split <;> rfl
      · exact congrArg Except.ok (terminals.keys_insert use.name)

variable (d : Definition)

def leftNames : Array String := (d.rules.toList.map (·.left)).foldl addName #[]

theorem nonterminals_keys : d.nonterminals.keys = d.leftNames := Numbering.keys_ofList_eq _

def terminalNames (tokens nonterminals : Array String) : Except GrammarError (Array String) :=
  d.rules.toList.foldlM (fun known r =>
    r.right.foldlM (collectName (tokens.size != 0) nonterminals r.left) known)
    ((tokens.toList.filter fun name => !nonterminals.contains name).foldl addName #[])

theorem terminals_keys (nonterminals : Numbering String) :
    (d.terminals nonterminals).map (·.keys) = d.terminalNames d.tokens.keys nonterminals.keys := by
  have hdeclared : (d.declaredTerminals nonterminals).keys =
      (d.tokens.keys.toList.filter fun name => !nonterminals.keys.contains name).foldl addName
        #[] := by
    simp only [declaredTerminals, Numbering.contains_eq]
    exact Numbering.keys_ofList_eq _
  rw [terminals, terminalNames, ← hdeclared, ← Array.foldlM_toList]
  exact foldlM_map (fun known r => foldlM_map (collectUse_keys _ _ _) r.right known) _ _

def startNumber (nonterminals terminals : Array String) : Except GrammarError Nat :=
  let name := d.start.getD (nonterminals.getD 0 "")
  if name == Symbol.errorName || terminals.contains name then .error (.terminalAsStart name)
  else
    match nonterminals.findIdx? (· == name) with
    | some i => .ok (i + 1)
    | none => .error (.unknownStartSymbol name)

theorem startIndex_eq (nonterminals terminals : Numbering String) :
    d.startIndex nonterminals terminals = d.startNumber nonterminals.keys terminals.keys := by
  simp only [startIndex, startNumber, Numbering.contains_eq, Numbering.find?_eq_findIdx?]
  cases d.start <;> rfl

def symbolOf (nonterminals terminals : Array String) (use : SymbolUse) : Symbol :=
  ((nonterminals.findIdx? (· == use.name)).map fun i => Symbol.nonterminal (i + 1)).getD
    (if use.name == Symbol.errorName then .terminal Symbol.errorToken
    else .terminal ((terminals.findIdx? (· == use.name)).getD 0 + 2))

theorem resolveUse_eq (nonterminals terminals : Numbering String) :
    resolveUse nonterminals terminals = symbolOf nonterminals.keys terminals.keys := by
  funext use
  rw [resolveUse, symbolOf, nonterminals.find?_eq_findIdx?, terminals.find?_eq_findIdx?]
  cases nonterminals.keys.findIdx? (· == use.name) <;> rfl

def bindingsFrom : List String → List String → List Alias
  | _, [] => []
  | before, called :: rest => bindings before called ++ bindingsFrom (before ++ [called]) rest

theorem bindingsFrom_concat (before names : List String) (called : String) :
    bindingsFrom before (names ++ [called]) =
      bindingsFrom before names ++ bindings (before ++ names) called := by
  induction names generalizing before with
  | nil => simp [bindingsFrom]
  | cons name names ih => simp [bindingsFrom, ih]

theorem aliases_eq (right : List SymbolUse) : aliases right = bindingsFrom [] (calledNames right) := by
  induction right using List.reverseRecOn with
  | nil => rfl
  | append_singleton right use ih =>
    rw [aliases_concat, ih, calledNames, calledNames, List.map_append, List.map_singleton,
      bindingsFrom_concat, List.nil_append]

def rankOf (r : Rule) : Except GrammarError (Option Precedence) :=
  match r.precedence with
  | none => .ok none
  | some name => ((d.precedenceOf name).map fun level => Except.ok (some level)).getD
      (.error (.unknownPrecedence name))

def productionOf (nonterminals terminals : Array String) (r : Rule) :
    Except GrammarError Production :=
  (d.rankOf r).map fun level =>
    ⟨(nonterminals.findIdx? (· == r.left)).getD 0 + 1,
      (r.right.map (symbolOf nonterminals terminals)).toArray, level,
      bindingsFrom [] (calledNames r.right)⟩

theorem production_eq (nonterminals terminals : Numbering String) :
    d.production nonterminals terminals = d.productionOf nonterminals.keys terminals.keys := by
  funext r
  rw [production, productionOf, rankOf, resolveUse_eq, aliases_eq, nonterminals.find?_eq_findIdx?]
  cases r.precedence with
  | none => rfl
  | some name =>
    dsimp only
    cases d.precedenceOf name <;> rfl

/-- What a grammar is made of before the sets of its symbols are computed. -/
structure Parts where
  terminals : Array Terminal
  nonterminals : Array String
  productions : Array Production
  start : Nat

def Parts.grammar (p : Parts) : Grammar :=
  .ofProductions p.terminals p.nonterminals p.productions p.start

def parts (tokens : Array String) : Except GrammarError Parts :=
  if d.rules.isEmpty then .error .emptyGrammar
  else (d.terminalNames tokens d.leftNames).bind fun terminals =>
    (d.startNumber d.leftNames terminals).bind fun start =>
      if terminals.size + 2 > maxIndex + 1 then .error .tooManySymbols
      else (d.rules.toList.mapM (d.productionOf d.leftNames terminals)).bind fun rules =>
        let nonterminals := #[Symbol.acceptName] ++ d.leftNames
        let productions := #[acceptProduction start] ++ rules.toArray
        match unreachable? nonterminals.size productions start with
        | some n => .error (.unreachableNonterminal (nonterminals.getD n ""))
        | none => .ok ⟨#[⟨Symbol.endName, none⟩, ⟨Symbol.errorName, none⟩] ++
            terminals.map fun name => ⟨name, d.precedenceOf name⟩, nonterminals, productions, start⟩

theorem complete_eq : d.complete = (d.parts d.tokens.keys).map Parts.grammar := by
  have hterminals := d.terminals_keys d.nonterminals
  rw [nonterminals_keys] at hterminals
  simp only [complete, parts, ← hterminals, startIndex_eq, production_eq, nonterminals_keys,
    Array.mapM_eq_mapM_toList]
  by_cases hempty : d.rules.isEmpty = true
  · rw [if_pos hempty, if_pos hempty]
    rfl
  rw [if_neg hempty, if_neg hempty]
  cases d.terminals d.nonterminals with
  | error e => rfl
  | ok ts =>
    simp only [bind, Except.bind, Except.map]
    cases d.startNumber d.leftNames ts.keys with
    | error e => rfl
    | ok start =>
      dsimp only
      by_cases hsize : ts.size + 2 > maxIndex + 1
      · rw [if_pos hsize, if_pos (show ts.keys.size + 2 > maxIndex + 1 from hsize)]
        rfl
      rw [if_neg hsize, if_neg (show ¬ ts.keys.size + 2 > maxIndex + 1 from hsize)]
      cases d.rules.toList.mapM (d.productionOf d.leftNames ts.keys) with
      | error e => rfl
      | ok rules =>
        dsimp only [Functor.map, Except.map]
        cases unreachable? (#[Symbol.acceptName] ++ d.leftNames).size
          (#[acceptProduction start] ++ rules.toArray) start <;> rfl

def declared (lenient : Bool) : List (List Declaration) → Definition → Except GrammarError Definition
  | [], d => .ok d
  | step :: rest, d =>
    match Declaration.applyAll step d with
    | (d, .ok _) => declared lenient rest d
    | (d, .error e) => if lenient then declared lenient rest d else .error e

theorem define_eq (lenient : Bool) (steps : List (List Declaration)) :
    (define lenient steps d).2 =
      (declared lenient steps d).bind fun d => (d.parts d.tokens.keys).map Parts.grammar := by
  induction steps generalizing d with
  | nil => exact d.complete_eq
  | cons step rest ih =>
    rw [define, declared]
    rcases Declaration.applyAll step d with ⟨d', _ | _⟩
    · cases lenient with
      | true => exact ih d'
      | false => rfl
    · exact ih d'

section Parts

variable {d} {terminals : Array Terminal} {nonterminals : Array String}
  {productions : Array Production} {start : Nat}

theorem complete_eq_ok
    (h : d.parts d.tokens.keys = .ok ⟨terminals, nonterminals, productions, start⟩) :
    d.complete = .ok (.ofProductions terminals nonterminals productions start) := by
  rw [complete_eq, h]
  rfl

theorem define_eq_ok {lenient : Bool} {steps : List (List Declaration)}
    (h : (declared lenient steps d).bind (fun d => d.parts d.tokens.keys) =
      .ok ⟨terminals, nonterminals, productions, start⟩) :
    (define lenient steps d).2 = .ok (.ofProductions terminals nonterminals productions start) := by
  rw [define_eq]
  cases hd : declared lenient steps d with
  | error e =>
    rw [hd] at h
    cases h
  | ok d' =>
    rw [hd] at h
    exact congrArg (Except.map Parts.grammar) h

end Parts

end Definition

end TableParsing
