import TableParsing.Proofs.Calculator.Parsing
import TableParsing.Proofs.Engine.Repair

/-! What the calculator answers. Whatever the text and the method, a parse ends with an expression,
at a character that begins no word, or where a recovery finds nothing to go on with. The expression
has no value exactly if errors were recovered from; without errors it is the one that precedence
climbing reads the words as. -/

namespace TableParsing

namespace Calculator

open ShiftReduce

def Lexeme.word? : Lexeme → Option Word
  | word w => some w
  | unknown _ => none

def words (text : String) : List Word := (lexemes 0 text.toList).filterMap (·.2.word?)

theorem standsFor_tokens (text : String) :
    List.Forall₂ Word.StandsFor (words text) (Source.tokens (tokens text)) := by
  rw [words, tokens]
  generalize lineStarts text.toList = starts
  induction lexemes 0 text.toList with
  | nil => exact .nil
  | cons item items ih =>
    obtain ⟨offset, l⟩ := item
    cases l with
    | word w => exact .cons ⟨rfl, rfl⟩ ih
    | unknown c => exact ih

def tacit : Environment Value Unit :=
  ⟨fun _ params => (.error .unfinished, params), fun _ _ => none⟩

theorem steady_start (a : Automaton) (text : String) : Steady a (start (tokens text) ()) :=
  ⟨reading_start _ _, overcome_start _ _, fun _ h => by cases h⟩

theorem standing_start (a : Automaton) (text : String) :
    Standing a (words text) (start (tokens text) ()) [] (some []) (words text) where
  stacked := .base
  carried := .base _
  sound := by simp [start]
  unread := standsFor_tokens text
  read := by simp

theorem Carries.eval_eq_none_iff {e : Expr} {r : Option (List Word)}
    (h : Carries (.nonterminal 1) (some (.expr e)) r) : e.eval = none ↔ r = none := by
  cases h with
  | spelled he =>
    have hsome := he.isSome_eval
    simp [Option.isSome_iff_ne_none.mp hsome]
  | flawed he => simp [he]

/-- What the calculator makes of the result of a run. -/
def answer (result : Result Value Unit) : Except Failure Parsed :=
  match result.outcome with
  | .error e => .error (.parse e)
  | .ok none => .error .emptyResult
  | .ok (some v) =>
    match v.expr? with
    | some e => .ok ⟨e, result.reported⟩
    | none => .error .unexpectedItem

theorem parse_eq (a : Automaton) (fuel : Nat) (text : String) :
    parse ⟨.calculator, .generate .calculator a⟩ fuel text =
      answer (((engine a).run tacit fuel (start (tokens text) ())).getD (.unfinished ())) := rfl

theorem parse_of_run {a : Automaton} {fuel : Nat} {text : String} {result : Result Value Unit}
    (h : (engine a).run tacit fuel (start (tokens text) ()) = some result) :
    parse ⟨.calculator, .generate .calculator a⟩ fuel text = answer result := by
  rw [parse_eq, h, Option.getD_some]

theorem exists_run_of_parse {a : Automaton} {fuel : Nat} {text : String} {p : Parsed}
    (h : parse ⟨.calculator, .generate .calculator a⟩ fuel text = .ok p) :
    ∃ result, (engine a).run tacit fuel (start (tokens text) ()) = some result ∧
      answer result = .ok p := by
  cases hrun : (engine a).run tacit fuel (start (tokens text) ()) with
  | none =>
    rw [parse_eq, hrun] at h
    cases h
  | some result => exact ⟨result, rfl, by rwa [parse_of_run hrun] at h⟩

section Outcomes

variable {a : Automaton} (hf : a.Faithful .calculator)

include hf

theorem exists_standing {fuel : Nat} {text : String} {result : Result Value Unit}
    (h : (engine a).run tacit fuel (start (tokens text) ()) = some result) :
    ∃ hist d outcome d' γ r rest, Steps (engine a) tacit (start (tokens text) ()) hist d ∧
      (engine a).step tacit d = .stop outcome d' ∧
      result = ⟨outcome, d'.params, d'.reported.reverse⟩ ∧ Steady a d ∧
      Standing a (words text) d γ r rest := by
  obtain ⟨hist, d, outcome, d', hsteps, hstop, -, hresult⟩ := exists_steps_of_run h
  obtain ⟨hd, γ, r, rest, hstanding⟩ :=
    (standing_start a text).steps hf hsteps (steady_start a text)
  exact ⟨hist, d, outcome, d', γ, r, rest, hsteps, hstop, hresult, hd, hstanding⟩

omit hf in
theorem exists_chain_bound (γ : List Symbol) :
    ∃ bound, ∀ ps, Chain .calculator γ ps → ps.length ≤ bound := by
  refine ⟨_, fun ps hchain => hchain.length_le fun hp => ?_⟩
  obtain ⟨f, -, rfl, -⟩ := completed_cases hp
  rw [f.right_rule]
  cases f <;> simp [Form.right, Symbol.terminal?]

theorem exists_result (text : String) : ∃ n result, ∀ fuel, n ≤ fuel →
    (engine a).run tacit fuel (start (tokens text) ()) = some result := by
  obtain ⟨hist, d, outcome, d', hsteps, hstop⟩ := exists_stop wellFormed hf (realizes a) tacit
    (fun _ => exists_chain_bound _) (reading_start (tokens text) ())
  exact ⟨hist.length + 1, _, fun fuel hfuel => (hsteps.run hstop hfuel).1⟩

theorem spells_of_parse {fuel : Nat} {text : String} {e : Expr}
    (hlexical : ∀ e, .error e ∉ tokens text)
    (h : parse ⟨.calculator, .generate .calculator a⟩ fuel text = .ok ⟨e, []⟩) :
    Spells e (words text) := by
  obtain ⟨result, hrun, hanswer⟩ := exists_run_of_parse h
  obtain ⟨hist, d, outcome, d', γ, r, rest, hsteps, hstop, rfl, hd, hstanding⟩ :=
    exists_standing hf hrun
  rcases hstanding.stop hf (fun _ _ => rfl) hd hstop with ⟨_, rfl⟩ | ⟨_, rfl⟩ |
    ⟨e', la, input, hlook, htoken, rfl, hreported, he⟩
  · cases hanswer
  · cases hanswer
  · have hparsed : (⟨e', d'.reported.reverse⟩ : Parsed) = ⟨e, []⟩ := Except.ok.inj hanswer
    obtain ⟨rfl, hnone⟩ := Parsed.mk.inj hparsed
    have hclean : d.reported = [] := by rw [← hreported, List.reverse_eq_nil_iff.mp hnone]
    cases he with
    | flawed => exact absurd hclean (hstanding.sound.mp rfl)
    | @spelled _ ws he =>
      -- nothing is left to be read where the run accepts
      have hpending := pending_start (engine a).tables (Source.tokens (tokens text)) ()
      rw [← Source.eq_map_ok hlexical] at hpending
      obtain ⟨rest', hrest'⟩ := hsteps.pending hpending
      obtain ⟨la', input', hlook', hreads⟩ := hrest'.look
      rw [hlook] at hlook'
      cases hlook'
      have hunread := hstanding.unread
      rw [hrest'.unread_eq] at hunread
      cases hreads with
      | token => cases htoken
      | ending =>
        obtain _ | _ := hunread
        rwa [hstanding.read ws rfl, List.append_nil]

end Outcomes

/-- Every parse ends: with an expression, at a character that begins no word, or where a recovery
finds nothing to go on with. -/
theorem parse_outcome_cases (m : Method) : ∃ c, build m = .ok c ∧ ∀ text, ∃ n r,
    (∀ fuel, n ≤ fuel → c.parse fuel text = r) ∧
    ((∃ p, r = .ok p) ∨ (∃ e, r = .error (.parse (.lexical e))) ∨
      ∃ e, r = .error (.parse (.recoveryHalted e))) := by
  obtain ⟨a, hbuild, hf, -⟩ := exists_build m
  refine ⟨_, hbuild, fun text => ?_⟩
  obtain ⟨n, result, hrun⟩ := exists_result hf text
  refine ⟨n, answer result, fun fuel hfuel => parse_of_run (hrun fuel hfuel), ?_⟩
  obtain ⟨_, d, outcome, d', γ, r, rest, -, hstop, rfl, hd, hstanding⟩ :=
    exists_standing hf (hrun n (Nat.le_refl n))
  rcases hstanding.stop hf (fun _ _ => rfl) hd hstop with ⟨e, rfl⟩ | ⟨e, rfl⟩ |
    ⟨e, _, _, -, -, rfl, -, -⟩
  · exact Or.inr (Or.inl ⟨e, rfl⟩)
  · exact Or.inr (Or.inr ⟨e, rfl⟩)
  · exact Or.inl ⟨_, rfl⟩

theorem tokens_unclosed : tokens "(" = [.ok ⟨"(", "(", .token "(", ⟨1, 0, 1, 1⟩⟩] := by
  cbv

theorem parse_outcome_unclosed : ∃ c n e, build .lr0 = .ok c ∧
    ∀ fuel, n ≤ fuel → c.parse fuel "(" = .error (.parse (.recoveryHalted e)) := by
  have hbuild := build_of_automaton Method.lr0_calculator
  obtain ⟨c, hc, hcases⟩ := parse_outcome_cases .lr0
  obtain rfl := Except.ok.inj (hbuild.symm.trans hc)
  obtain ⟨n, r, hparse, houtcome⟩ := hcases "("
  have hhalted : ((engine .calculator).run tacit 20 (start (tokens "(") ())).map
      (fun result => (result.outcome.map fun _ => ()).mapError ParseError.kind) =
        some (.error "RecoveryHalted") := by
    rw [tokens_unclosed]
    decide +kernel
  cases hrun : (engine .calculator).run tacit 20 (start (tokens "(") ()) with
  | none =>
    rw [hrun] at hhalted
    cases hhalted
  | some result =>
    rw [hrun] at hhalted
    have hr := hparse (max n 20) (Nat.le_max_left _ _)
    rw [parse_of_run (run_of_le (Nat.le_max_right _ _) hrun)] at hr
    obtain ⟨outcome, params, reported⟩ := result
    cases outcome with
    | ok => cases Option.some.inj hhalted
    | error err =>
      have hkind : err.kind = "RecoveryHalted" := Except.error.inj (Option.some.inj hhalted)
      obtain ⟨p, rfl⟩ | ⟨e, rfl⟩ | ⟨e, rfl⟩ := houtcome
      · cases hr
      · cases hr
        simp [ParseError.kind] at hkind
      · exact ⟨_, n, e, hbuild, hparse⟩

/-- The expression that a parse returns has no value exactly if errors were recovered from. -/
theorem eval_eq_none_iff_recovered (m : Method) : ∃ c, build m = .ok c ∧ ∀ fuel text p,
    c.parse fuel text = .ok p → (p.expr.eval = none ↔ p.errors ≠ []) := by
  obtain ⟨a, hbuild, hf, -⟩ := exists_build m
  refine ⟨_, hbuild, fun fuel text p hp => ?_⟩
  obtain ⟨result, hrun, hanswer⟩ := exists_run_of_parse hp
  obtain ⟨_, d, outcome, d', γ, r, rest, -, hstop, rfl, hd, hstanding⟩ := exists_standing hf hrun
  rcases hstanding.stop hf (fun _ _ => rfl) hd hstop with ⟨e, rfl⟩ | ⟨e, rfl⟩ |
    ⟨e, _, _, -, -, rfl, hreported, he⟩
  · cases hanswer
  · cases hanswer
  · cases hanswer
    rw [he.eval_eq_none_iff, hstanding.sound, hreported]
    simp

theorem tokens_operands : tokens "(+)" =
    [.ok ⟨"(", "(", .token "(", ⟨1, 0, 1, 1⟩⟩, .ok ⟨"+", "+", .token "+", ⟨1, 1, 1, 2⟩⟩,
      .ok ⟨")", ")", .token ")", ⟨1, 2, 1, 3⟩⟩] := by
  cbv

theorem recovered_operands : ∃ c p, build .lr0 = .ok c ∧ c.parse 20 "(+)" = .ok p ∧
    p.expr.eval = none ∧ p.errors.length = 1 := by
  have hbuild := build_of_automaton Method.lr0_calculator
  obtain ⟨c, hc, hrecovered⟩ := eval_eq_none_iff_recovered .lr0
  obtain rfl := Except.ok.inj (hbuild.symm.trans hc)
  have hone : (parse ⟨.calculator, .generate .calculator .calculator⟩ 20 "(+)").toOption.map
      (·.errors.length) = some 1 := by
    rw [parse_eq, tokens_operands]
    decide +kernel
  cases hparse : parse ⟨.calculator, .generate .calculator .calculator⟩ 20 "(+)" with
  | error e =>
    rw [hparse] at hone
    cases hone
  | ok p =>
    rw [hparse] at hone
    have hlength : p.errors.length = 1 := Option.some.inj hone
    refine ⟨_, p, hbuild, hparse, (hrecovered _ _ _ hparse).mpr ?_, hlength⟩
    rw [← List.length_pos_iff_ne_nil, hlength]
    exact Nat.one_pos

/-- Without a character that begins no word, a parse returns an expression and no errors exactly if
the words spell an expression, and it is then the one that climbing reads them as, whatever the
method. -/
theorem parse_clean_iff_group (text : String) (hlexical : ∀ e, .error e ∉ tokens text) :
    ((∃ e, group (words text) = some e) ↔ ∃ e, Spells e (words text)) ∧
    (∀ e, group (words text) = some e → Spells e (words text)) ∧
    ∀ m, ∃ c, build m = .ok c ∧ ∃ n, ∀ fuel, n ≤ fuel → ∀ e,
      c.parse fuel text = .ok ⟨e, []⟩ ↔ group (words text) = some e := by
  refine ⟨exists_group_iff, fun e => spells_of_group, fun m => ?_⟩
  obtain ⟨a, hbuild, hf, hcovers⟩ := exists_build m
  refine ⟨_, hbuild, ?_⟩
  cases hgroup : group (words text) with
  | none =>
    refine ⟨0, fun fuel _ e => ⟨fun hparse => ?_, fun h => by cases h⟩⟩
    obtain ⟨e', he'⟩ := exists_group_iff.mpr ⟨e, spells_of_parse hf hlexical hparse⟩
    rw [hgroup] at he'
    cases he'
  | some e' =>
    obtain ⟨n, result, hrun, houtcome, hreported⟩ :=
      run_of_group hf hcovers tacit hgroup (standsFor_tokens text)
    rw [← Source.eq_map_ok hlexical] at hrun
    refine ⟨n, fun fuel hfuel e => ?_⟩
    have hparse : parse ⟨.calculator, .generate .calculator a⟩ fuel text = .ok ⟨e', []⟩ := by
      rw [parse_of_run (hrun fuel hfuel), answer, houtcome, hreported]
      rfl
    rw [hparse]
    simp

def digit (c : Char) : Numeral := ⟨[c], []⟩

theorem lexemes_powers : lexemes 0 "2^-3*4".toList =
    [(0, .word (.number (digit '2'))), (1, .word (.operator .power)),
      (2, .word (.operator .subtract)), (3, .word (.number (digit '3'))),
      (4, .word (.operator .multiply)), (5, .word (.number (digit '4')))] := by
  cbv

def digitExpr (c : Char) : Expr := .number (readFloat [c] [])

theorem parse_powers : (∀ e, .error e ∉ tokens "2^-3*4") ∧
    ∃ c, build .lalr = .ok c ∧ ∃ n, ∀ fuel, n ≤ fuel → c.parse fuel "2^-3*4" =
      .ok ⟨.binary .multiply (.binary .power (digitExpr '2') (.negate (digitExpr '3')))
        (digitExpr '4'), []⟩ := by
  have hlexical : ∀ e, .error e ∉ tokens "2^-3*4" := by
    simp only [tokens, lexemes_powers]
    simp [Lexeme.read]
  have hwords : words "2^-3*4" = [.number (digit '2'), .operator .power, .operator .subtract,
      .number (digit '3'), .operator .multiply, .number (digit '4')] := by
    rw [words, lexemes_powers]
    rfl
  have hgroup : group (words "2^-3*4") = some (.binary .multiply
      (.binary .power (digitExpr '2') (.negate (digitExpr '3'))) (digitExpr '4')) := by
    rw [hwords, group_eq_some_iff]
    have hnegation : Climbs 4 none [.operator .subtract, .number (digit '3'),
        .operator .multiply, .number (digit '4')] (.negate (digitExpr '3'))
        [.operator .multiply, .number (digit '4')] :=
      .negate (.number (.stop (.cons (by decide) _))) (.stop (.cons (by decide) _))
    exact .number (.binary (by decide) hnegation
      (.binary (by decide) (.number (.stop (.nil _))) (.stop (.nil _))))
  obtain ⟨-, -, hmethods⟩ := parse_clean_iff_group "2^-3*4" hlexical
  obtain ⟨c, hc, n, hparse⟩ := hmethods .lalr
  exact ⟨hlexical, c, hc, n, fun fuel hfuel => (hparse fuel hfuel _).mpr hgroup⟩

end Calculator

end TableParsing
