import Mathlib.Data.List.Induction
import TableParsing.Proofs.Grammar.WellFormed

/-! What a sequence of declarations leaves behind, told by the declarations and the answers to
them alone. A declaration that fails may have taken effect in part: of a list of names those
before the first reserved one count, and a level is used up even if none of its names does. -/

namespace TableParsing

namespace Declaration

def applied (d : Definition) (calls : List Declaration) : Definition :=
  calls.foldl (fun d s => (s.apply d).1) d

def answers : List Declaration → Definition → List (Except GrammarError (Option Nat))
  | [], _ => []
  | s :: rest, d => (s.apply d).2 :: answers rest (s.apply d).1

theorem define_each (calls : List Declaration) (d : Definition) :
    define true (calls.map ([·])) d = (answers calls d, (applied d calls).complete) := by
  induction calls generalizing d with
  | nil => rfl
  | cons s rest ih =>
    have hrest := ih (s.apply d).1
    simp only [List.map_cons, define, applyAll, answers, applied, List.foldl_cons]
    generalize s.apply d = after at hrest
    obtain ⟨d', answer⟩ := after
    cases answer <;> simp only [hrest, if_true, applied]

theorem applied_snoc (d : Definition) (calls : List Declaration) (s : Declaration) :
    applied d (calls ++ [s]) = (s.apply (applied d calls)).1 := by
  rw [applied, List.foldl_append]
  rfl

theorem answers_snoc (d : Definition) (calls : List Declaration) (s : Declaration) :
    answers (calls ++ [s]) d = answers calls d ++ [(s.apply (applied d calls)).2] := by
  induction calls generalizing d with
  | nil => rfl
  | cons r rest ih =>
    rw [List.cons_append, answers, ih, answers]
    rfl

@[simp] theorem length_answers (calls : List Declaration) (d : Definition) :
    (answers calls d).length = calls.length := by
  induction calls generalizing d with
  | nil => rfl
  | cons s rest ih => rw [answers, List.length_cons, ih, List.length_cons]

theorem define_strict {calls : List Declaration} {d : Definition} {g : Grammar}
    (h : (define false (calls.map ([·])) d).2 = .ok g) :
    (∀ answer ∈ answers calls d, ∃ n, answer = .ok n) ∧ (applied d calls).complete = .ok g := by
  induction calls generalizing d with
  | nil => exact ⟨by simp [answers], h⟩
  | cons s rest ih =>
    simp only [List.map_cons, define, applyAll] at h
    rw [answers, List.forall_mem_cons, applied, List.foldl_cons]
    generalize s.apply d = after at h ⊢
    obtain ⟨d', answer⟩ := after
    cases answer with
    | error e => cases h
    | ok n =>
      obtain ⟨hanswers, hcomplete⟩ := ih h
      exact ⟨⟨⟨n, rfl⟩, hanswers⟩, hcomplete⟩

/-- The names of a list that take effect. -/
def effective (names : List String) : List String := names.takeWhile fun name => !isReserved name

def tokenNames : Declaration → List String
  | token name => (effective [name]).filter (· ≠ Symbol.errorName)
  | tokens names => (effective names).filter (· ≠ Symbol.errorName)
  | _ => []

def level? : Declaration → Option (Assoc × List String)
  | precedence assoc names => some (assoc, effective names)
  | _ => none

def startName? : Declaration → Option String
  | start name => some name
  | _ => none

def rule? : Declaration → Except GrammarError (Option Nat) → Option Rule
  | rule left right level, .ok _ => some ⟨left, right.map SymbolUse.parse, level⟩
  | _, _ => none

theorem effective_cons (name : String) (rest : List String) : effective (name :: rest) =
    if isReserved name then [] else name :: effective rest := by
  rw [effective, List.takeWhile_cons]
  cases isReserved name <;> rfl

theorem effective_of_fresh {names : List String} (h : ∀ name ∈ names, isReserved name = false) :
    effective names = names := by
  induction names with
  | nil => rfl
  | cons name rest ih =>
    rw [List.forall_mem_cons] at h
    rw [effective_cons, h.1, ih h.2]
    rfl

end Declaration

open Declaration

namespace Definition

theorem mem_addToken {d : Definition} {a name : String} :
    a ∈ (d.addToken name).tokens.keys ↔ a ∈ d.tokens.keys ∨ a = name ∧ a ≠ Symbol.errorName := by
  rw [addToken]
  split
  case isTrue herror =>
    have herror : name = Symbol.errorName := by simpa using herror
    constructor
    · exact Or.inl
    · rintro (h | ⟨rfl, hne⟩)
      · exact h
      · exact absurd herror hne
  case isFalse hne =>
    rw [d.tokens.mem_keys_insert]
    refine or_congr_right ⟨?_, And.left⟩
    rintro rfl
    exact ⟨rfl, by simpa using hne⟩

theorem mem_declareTokens (names : List String) (d : Definition) {a : String} :
    a ∈ (declareTokens names d).1.tokens.keys ↔
      a ∈ d.tokens.keys ∨ a ∈ (effective names).filter (· ≠ Symbol.errorName) := by
  induction names generalizing d with
  | nil => simp [declareTokens, effective]
  | cons name rest ih =>
    rw [declareTokens, effective_cons]
    split
    · simp
    · rw [ih, mem_addToken, or_assoc, List.filter_cons]
      split
      case isTrue hne =>
        have hne : name ≠ Symbol.errorName := by simpa using hne
        rw [List.mem_cons]
        refine or_congr_right (or_congr_left ⟨And.left, ?_⟩)
        rintro rfl
        exact ⟨rfl, hne⟩
      case isFalse heq =>
        have heq : name = Symbol.errorName := by simpa using heq
        refine or_congr_right ⟨?_, Or.inr⟩
        rintro (⟨rfl, hne⟩ | h)
        · exact absurd heq hne
        · exact h

theorem declareTokens_fst (names : List String) (d : Definition) :
    ∃ tokens, (declareTokens names d).1 = { d with tokens } := by
  induction names generalizing d with
  | nil => exact ⟨d.tokens, rfl⟩
  | cons name rest ih =>
    rw [declareTokens]
    split
    · exact ⟨d.tokens, rfl⟩
    · obtain ⟨tokens, h⟩ := ih (d.addToken name)
      refine ⟨tokens, ?_⟩
      rw [h, addToken]
      split <;> rfl

theorem assignPrecedence_fst (level : Precedence) (names : List String) (d : Definition) :
    (assignPrecedence level names d).1 = { d with
      precedences := ((effective names).map (·, level)).reverse ++ d.precedences } := by
  induction names generalizing d with
  | nil => rfl
  | cons name rest ih =>
    rw [assignPrecedence, effective_cons]
    split
    · rfl
    · rw [ih]
      simp

end Definition

namespace Declaration

variable (s : Declaration) (d : Definition)

theorem mem_apply_tokens {a : String} :
    a ∈ (s.apply d).1.tokens.keys ↔ a ∈ d.tokens.keys ∨ a ∈ s.tokenNames := by
  cases s with
  | token name => exact Definition.mem_declareTokens [name] d
  | tokens names => exact Definition.mem_declareTokens names d
  | precedence assoc names =>
    have same := Definition.declarePrecedence_tokens assoc names d
    change a ∈ (d.declarePrecedence assoc names).1.tokens.keys ↔ _
    rw [same]
    simp [tokenNames]
  | start name => simp [apply, tokenNames]
  | rule left right level =>
    have same := Definition.declareRule_tokens ⟨left, right.map SymbolUse.parse, level⟩ d
    change a ∈ (d.declareRule _).1.tokens.keys ↔ _
    rw [same]
    simp [tokenNames]

theorem apply_start : (s.apply d).1.start = s.startName?.or d.start := by
  cases s with
  | token name =>
    obtain ⟨tokens, h⟩ := Definition.declareTokens_fst [name] d
    simp [apply, h, startName?]
  | tokens names =>
    obtain ⟨tokens, h⟩ := Definition.declareTokens_fst names d
    simp [apply, h, startName?]
  | precedence assoc names =>
    change (d.declarePrecedence assoc names).1.start = d.start
    rw [Definition.declarePrecedence]
    split
    · rw [Definition.assignPrecedence_fst]
    · rfl
  | start name => rfl
  | rule left right level =>
    change (d.declareRule _).1.start = d.start
    rw [Definition.declareRule]
    split <;> rfl

theorem apply_rules : (s.apply d).1.rules.toList =
    d.rules.toList ++ (s.rule? (s.apply d).2).toList := by
  have same : ∀ d' : Definition, d'.rules = d.rules →
      d'.rules.toList = d.rules.toList ++ (none : Option Rule).toList := by
    intro d' h
    rw [h]
    simp
  cases s with
  | token name => exact same _ (Definition.declareTokens_rules [name] d)
  | tokens names => exact same _ (Definition.declareTokens_rules names d)
  | precedence assoc names => exact same _ (Definition.declarePrecedence_rules assoc names d)
  | start name => exact same _ rfl
  | rule left right level =>
    simp only [apply, Definition.declareRule]
    cases d.checkRule ⟨left, right.map SymbolUse.parse, level⟩ with
    | error e => simp [rule?, Except.map]
    | ok u => simp [rule?, Except.map]

theorem apply_answer {left : String} {right : List String} {level : Option String}
    {answer : Option Nat} (h : ((rule left right level).apply d).2 = .ok answer) :
    answer = some (d.rules.size + 1) := by
  simp only [apply, Definition.declareRule] at h
  cases hcheck : d.checkRule ⟨left, right.map SymbolUse.parse, level⟩ with
  | error e =>
    rw [hcheck] at h
    cases h
  | ok u =>
    rw [hcheck] at h
    cases h
    rfl

theorem apply_levels : (s.apply d).1.levels = d.levels + (if d.levels < maxIndex then
      s.level?.toList.length else 0) ∧
    (s.apply d).1.precedences = (if d.levels < maxIndex then s.level?.toList.flatMap fun level =>
      (level.2.map (·, ⟨d.levels + 1, level.1⟩)).reverse else []) ++ d.precedences := by
  cases s with
  | precedence assoc names =>
    change (d.declarePrecedence assoc names).1.levels = _ ∧
      (d.declarePrecedence assoc names).1.precedences = _
    rw [Definition.declarePrecedence]
    split
    · rw [Definition.assignPrecedence_fst]
      simp [level?]
    · simp
  | token name =>
    obtain ⟨tokens, h⟩ := Definition.declareTokens_fst [name] d
    simp [apply, h, level?]
  | tokens names =>
    obtain ⟨tokens, h⟩ := Definition.declareTokens_fst names d
    simp [apply, h, level?]
  | start name => simp [apply, level?]
  | rule left right level =>
    change (d.declareRule _).1.levels = _ ∧ (d.declareRule _).1.precedences = _
    rw [Definition.declareRule]
    split <;> simp [level?]

end Declaration

/-- What declarations ask for: the tokens, the precedences in the order of their assignment, the
rules and the start symbol. -/
structure Outline where
  tokens : List String
  precedences : List (String × Precedence)
  rules : List Rule
  start : Option String

namespace Outline

/-- The first levels, as many as have a number, are those that count, and so is the last start
symbol. -/
def ofDeclarations (calls : List Declaration)
    (answers : List (Except GrammarError (Option Nat))) : Outline where
  tokens := calls.flatMap tokenNames
  precedences := ((calls.filterMap level?).take maxIndex).zipIdx.flatMap fun (level, k) =>
    level.2.map (·, ⟨k + 1, level.1⟩)
  rules := (calls.zip answers).filterMap fun (s, answer) => s.rule? answer
  start := (calls.filterMap startName?).getLast?

end Outline

structure Definition.Outlined (d : Definition) (o : Outline) : Prop where
  tokens : ∀ name, name ∈ d.tokens.keys ↔ name ∈ o.tokens
  precedences : d.precedences = o.precedences.reverse
  rules : d.rules.toList = o.rules
  start : d.start = o.start

namespace Declaration

theorem levels_applied (calls : List Declaration) :
    (applied .empty calls).levels = min maxIndex (calls.filterMap level?).length := by
  induction calls using List.reverseRecOn with
  | nil => rfl
  | append_singleton calls s ih =>
    rw [applied_snoc, (apply_levels s _).1, ih, List.filterMap_append, List.length_append,
      List.filterMap_cons]
    cases s.level? with
    | none => simp
    | some level =>
      simp only [Option.toList_some, List.length_singleton, List.filterMap_nil]
      split <;> omega

theorem rules_of_answers {calls : List Declaration}
    {answers : List (Except GrammarError (Option Nat))} (hlength : answers.length = calls.length)
    (h : ∀ answer ∈ answers, ∃ n, answer = .ok n) :
    (calls.zip answers).filterMap (fun (s, answer) => s.rule? answer) =
      calls.filterMap (·.rule? (.ok none)) := by
  induction calls generalizing answers with
  | nil => rfl
  | cons s calls ih =>
    cases answers with
    | nil => cases hlength
    | cons answer answers =>
      rw [List.forall_mem_cons] at h
      obtain ⟨⟨n, rfl⟩, h⟩ := h
      have hs : s.rule? (.ok n) = s.rule? (.ok none) := by cases s <;> rfl
      rw [List.zip_cons_cons, List.filterMap_cons, List.filterMap_cons,
        ih (by simpa using hlength) h]
      dsimp only
      rw [hs]

theorem length_levels_le {calls : List Declaration}
    (h : ∀ answer ∈ answers calls .empty, ∃ n, answer = .ok n) :
    (calls.filterMap level?).length ≤ maxIndex := by
  induction calls using List.reverseRecOn with
  | nil => exact Nat.zero_le _
  | append_singleton calls s ih =>
    rw [answers_snoc, List.forall_mem_append, List.forall_mem_singleton] at h
    obtain ⟨hcalls, n, hs⟩ := h
    have hle := ih hcalls
    rw [List.filterMap_append, List.length_append]
    cases s with
    | precedence assoc names =>
      have hlevels := levels_applied calls
      simp only [apply, Definition.declarePrecedence] at hs
      split at hs
      case isTrue hroom =>
        rw [hlevels] at hroom
        simp only [level?, List.filterMap_cons, List.filterMap_nil, List.length_singleton]
        omega
      case isFalse => cases hs
    | _ => exact hle

theorem outlined_applied (calls : List Declaration) :
    (applied .empty calls).Outlined (.ofDeclarations calls (answers calls .empty)) := by
  induction calls using List.reverseRecOn with
  | nil =>
    refine ⟨?_, rfl, rfl, rfl⟩
    simp [applied, Definition.empty, Numbering.empty, Outline.ofDeclarations]
  | append_singleton calls s ih =>
    obtain ⟨htokens, hprecedences, hrules, hstart⟩ := ih
    refine ⟨fun name => ?_, ?_, ?_, ?_⟩
    · rw [applied_snoc, mem_apply_tokens, htokens]
      simp [Outline.ofDeclarations]
    · rw [applied_snoc, (apply_levels s _).2, hprecedences, levels_applied]
      simp only [Outline.ofDeclarations, List.filterMap_append, List.filterMap_cons,
        List.filterMap_nil]
      generalize calls.filterMap level? = levels
      cases s.level? with
      | none => simp
      | some level =>
        by_cases hroom : levels.length < maxIndex
        · have hmin : min maxIndex levels.length = levels.length := by omega
          have hall : levels.take maxIndex = levels := List.take_of_length_le (by omega)
          have hall' : (levels ++ [level]).take maxIndex = levels ++ [level] :=
            List.take_of_length_le (by simp; omega)
          simp [hmin, hroom, hall, hall', List.zipIdx_append]
        · have hmin : min maxIndex levels.length = maxIndex := by omega
          simp only [hmin, Nat.lt_irrefl, if_false, List.nil_append]
          rw [List.take_append_of_le_length (by omega)]
    · rw [applied_snoc, apply_rules, hrules, answers_snoc]
      simp only [Outline.ofDeclarations]
      rw [List.zip_append (by simp), List.filterMap_append]
      congr 1
    · rw [applied_snoc, apply_start, hstart]
      simp only [Outline.ofDeclarations, List.filterMap_append]
      cases hs : s.startName? <;> simp [hs]

theorem rules_extend (calls : List Declaration) (d : Definition) :
    d.rules.toList <+: (applied d calls).rules.toList := by
  induction calls generalizing d with
  | nil => exact List.prefix_refl _
  | cons s rest ih =>
    refine List.IsPrefix.trans ?_ (ih (s.apply d).1)
    rw [apply_rules]
    exact List.prefix_append _ _

theorem rule_of_answer {calls : List Declaration} {d : Definition} {i : Nat} {left : String}
    {right : List String} {level : Option String} {answer : Option Nat}
    (hcall : calls[i]? = some (.rule left right level))
    (hanswer : (answers calls d)[i]? = some (.ok answer)) :
    ∃ k, answer = some (k + 1) ∧
      (applied d calls).rules.toList[k]? = some ⟨left, right.map SymbolUse.parse, level⟩ := by
  induction calls generalizing d i with
  | nil => cases hcall
  | cons s rest ih =>
    cases i with
    | succ i => exact ih hcall hanswer
    | zero =>
      cases hcall
      have hok : ((rule left right level).apply d).2 = .ok answer := Option.some.inj hanswer
      obtain rfl := apply_answer d hok
      refine ⟨d.rules.size, rfl, ?_⟩
      have hrules := apply_rules (rule left right level) d
      rw [hok, rule?, Option.toList_some] at hrules
      obtain ⟨later, hlater⟩ := rules_extend rest ((rule left right level).apply d).1
      change (applied ((rule left right level).apply d).1 rest).rules.toList[_]? = _
      rw [← hlater, hrules]
      simp

end Declaration

namespace Definition

structure Checked (d : Definition) : Prop where
  tokens : d.TokensPermitted
  bounded : d.RulesBounded
  lefts : ∀ r ∈ d.rules.toList, Permitted r.left
  distinct : d.rules.toList.Pairwise fun r s => ¬ (r.left = s.left ∧ r.rightNames = s.rightNames)

theorem checkRule_ok_fresh {d : Definition} {r : Rule} (h : d.checkRule r = .ok ()) :
    Permitted r.left ∧ ∀ s ∈ d.rules.toList, ¬ (s.left = r.left ∧ s.rightNames = r.rightNames) := by
  rw [checkRule] at h
  split at h
  · cases h
  case isFalse hleft =>
    simp only [Bool.or_eq_true, beq_iff_eq, not_or, Bool.not_eq_true] at hleft
    split at h
    · cases h
    · split at h
      · cases h
      · dsimp only at h
        split at h
        · cases h
        case isFalse hfresh =>
          refine ⟨hleft, fun s hs heq => hfresh ?_⟩
          rw [Array.any_eq_true']
          exact ⟨s, Array.mem_toList_iff.mp hs, by simp [heq.1, heq.2]⟩

theorem Checked.apply {d : Definition} (h : d.Checked) (s : Declaration) :
    (s.apply d).1.Checked := by
  have hrules := Declaration.apply_rules s d
  have hnew : ∀ r ∈ s.rule? (s.apply d).2, Permitted r.left ∧
      ∀ s ∈ d.rules.toList, ¬ (s.left = r.left ∧ s.rightNames = r.rightNames) := by
    intro r hr
    cases s with
    | rule left right level =>
      simp only [Declaration.apply, declareRule] at hr
      cases hcheck : d.checkRule ⟨left, right.map SymbolUse.parse, level⟩ with
      | error e =>
        rw [hcheck] at hr
        cases hr
      | ok u =>
        rw [hcheck] at hr
        cases hr
        exact checkRule_ok_fresh hcheck
    | _ => cases hr
  refine ⟨h.tokens.apply s, h.bounded.apply s, ?_, ?_⟩
  · intro r hr
    rw [hrules, List.mem_append, Option.mem_toList] at hr
    rcases hr with hr | hr
    · exact h.lefts r hr
    · exact (hnew r hr).1
  · rw [hrules, List.pairwise_append]
    refine ⟨h.distinct, ?_, ?_⟩
    · cases s.rule? (s.apply d).2 <;> simp
    · intro r hr r' hr'
      exact (hnew r' (Option.mem_toList.mp hr')).2 r hr

theorem checked_empty : Definition.empty.Checked := by
  refine ⟨?_, ⟨Nat.zero_le _, ?_⟩, ?_, ?_⟩
  · intro name hn
    simp [empty, Numbering.empty] at hn
  all_goals simp [empty]

theorem checked_applied (calls : List Declaration) : (applied .empty calls).Checked := by
  induction calls using List.reverseRecOn with
  | nil => exact checked_empty
  | append_singleton calls s ih =>
    rw [applied_snoc]
    exact ih.apply s

end Definition

end TableParsing
