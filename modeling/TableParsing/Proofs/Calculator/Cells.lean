import TableParsing.Proofs.Calculator.Climbing
import TableParsing.Proofs.Operators.Cells

/-! The cells of the calculator's tables that parsing comes to. What waits on the stack for an
operand is a pile of open parentheses, negations, and operators after their left operands. Where an
operand is complete, the topmost of them decides with the levels what is done on the next terminal.
A minus sign after an expression is never that of a negation, as no two expressions stand side by
side. Whatever the method, its table agrees. -/

namespace TableParsing

namespace Table

variable {g : Grammar} {a : Automaton} {γ : List Symbol} {s u : Nat} {i : Item}

theorem action_of_incomplete (hf : a.Faithful g) (hs : stateAfter a.step γ = some s)
    (hnone : ∀ p, ¬ Viable g γ (.completed g p)) (hi : Viable g γ i)
    (hnext : i.next g = some (.terminal u)) (hu : u ≠ Symbol.endOfInput)
    (hlt : u < g.terminals.size) : ∃ next, (generate g a).action s u = .shift next := by
  obtain ⟨st, hst, -, hd⟩ := hf.state _ s hs
  obtain ⟨next, hshift⟩ := shiftOn_of_next hd hi hnext hu
  refine ⟨next, ?_⟩
  rw [action_generate hst, if_pos hlt, entry_of_incomplete hd hnone, hshift]
  rfl

theorem action_of_completed (hf : a.Faithful g) (hcovers : a.Covers g)
    (hs : stateAfter a.step γ = some s) {p : Nat}
    (honly : ∀ q, Viable g γ (.completed g q) → q = p) (hahead : Ahead g γ (.completed g p) u)
    (hshift : ∀ i, Viable g γ i → i.next g ≠ some (.terminal u)) (hlt : u < g.terminals.size) :
    (generate g a).action s u = .reduce p := by
  obtain ⟨st, hst, -, hd⟩ := hf.state _ s hs
  rw [action_generate hst, if_pos hlt, entry_of_completed hcovers hs hst hd honly hahead,
    resolve_singleton, shiftOn_eq_none hd hshift]
  rfl

/-- The only completed production gives way to a shift that the levels prefer. -/
theorem action_of_levels (hf : a.Faithful g) (hcovers : a.Covers g)
    (hs : stateAfter a.step γ = some s) {p : Nat}
    (honly : ∀ q, Viable g γ (.completed g q) → q = p) (hahead : Ahead g γ (.completed g p) u)
    (hi : Viable g γ i) (hnext : i.next g = some (.terminal u)) (hu : u ≠ Symbol.endOfInput)
    (hlt : u < g.terminals.size) {r r' : Precedence} (hr : g.productionPrecedence p = some r)
    (hr' : g.terminalPrecedence u = some r')
    (hassoc : r'.priority = r.priority → r'.assoc = r.assoc) (hnonassoc : r.assoc ≠ .nonassoc) :
    ∃ next, (generate g a).action s u =
      if r.rightBound ≤ r'.priority then .shift next else .reduce p := by
  obtain ⟨st, hst, -, hd⟩ := hf.state _ s hs
  obtain ⟨next, hshift⟩ := shiftOn_of_next hd hi hnext hu
  refine ⟨next, ?_⟩
  rw [action_generate hst, if_pos hlt, entry_of_completed hcovers hs hst hd honly hahead,
    resolve_singleton, hshift]
  simp only [shiftPrecedence, hr, hr', Option.getD_some]
  rw [compareLevels_resolution hassoc]
  simp [hnonassoc]

end Table

namespace Calculator

theorem wellFormed : Grammar.calculator.WellFormed := Grammar.calculator_defined.wellFormed

section Items

variable {γ : List Symbol} {i : Item} {n m p t u : Nat}

theorem Form.next (f : Form) (k : Nat) :
    (⟨f.rule, k⟩ : Item).next .calculator = f.right[k]? := by
  rw [Item.next_eq, Item.right, f.right_rule]

theorem Form.completed (f : Form) :
    Item.completed .calculator f.rule = ⟨f.rule, f.right.length⟩ := by
  rw [Item.completed, ← Array.length_toList, f.right_rule]

theorem Form.viable (f : Form) {k : Nat} (hk : k ≤ f.right.length)
    (h : Needed .calculator γ 1) :
    Viable .calculator ((f.right.take k).reverse ++ γ) ⟨f.rule, k⟩ := by
  have hend := wellFormed.end_notMem_right f.rule_ne_zero
  have htake := (h.viable f.mem_productionsOf).take (k := k) (by rwa [f.right_rule])
    fun hmem => hend (List.mem_of_mem_take hmem)
  rwa [f.right_rule] at htake

theorem Form.ahead (f : Form) {k : Nat} (hk : k ≤ f.right.length)
    (h : Follows .calculator γ 1 u) :
    Ahead .calculator ((f.right.take k).reverse ++ γ) ⟨f.rule, k⟩ u := by
  have hend := wellFormed.end_notMem_right f.rule_ne_zero
  have htake := (h.ahead f.mem_productionsOf).take (k := k) (by rwa [f.right_rule])
    fun hmem => hend (List.mem_of_mem_take hmem)
  rwa [f.right_rule] at htake

theorem Form.terminal_lt (f : Form) (h : .terminal u ∈ f.right) :
    u < Grammar.calculator.terminals.size ∧ u ≠ Symbol.endOfInput := by
  rw [← f.right_rule] at h
  refine ⟨wellFormed.terminal_lt (Array.mem_toList_iff.mp h), ?_⟩
  rintro rfl
  exact wellFormed.end_notMem_right f.rule_ne_zero h

theorem right_cases (hi : Viable .calculator γ i) :
    i.right .calculator = [.nonterminal 1, .terminal Symbol.endOfInput] ∨
      ∃ f : Form, i.production = f.rule ∧ i.right .calculator = f.right := by
  by_cases hzero : i.production = 0
  · exact Or.inl (by rw [Item.right, hzero]; rfl)
  · obtain ⟨f, hf⟩ := Form.exists_rule hzero (wellFormed.viable_lt hi)
    exact Or.inr ⟨f, hf.symm, by rw [Item.right, ← hf, f.right_rule]⟩

theorem completed_cases (h : Viable .calculator γ (.completed .calculator p)) :
    ∃ (f : Form) (δ : List Symbol), p = f.rule ∧ γ = f.right.reverse ++ δ ∧
      Needed .calculator δ 1 := by
  obtain ⟨hzero, δ, rfl, hδ⟩ := wellFormed.completed h
  obtain ⟨f, rfl⟩ := Form.exists_rule hzero (wellFormed.viable_lt h)
  refine ⟨f, δ, rfl, by rw [f.right_rule], ?_⟩
  rwa [f.left_rule] at hδ

theorem not_needed_after : ¬ Needed .calculator (.nonterminal n :: γ) m := by
  intro h
  obtain ⟨_, k, ⟨j, hj, hn, -, rfl⟩, hk, -⟩ := needed_iff.mp h
  rw [Item.next_eq] at hn hk
  change (j.right _)[j.index + 1]? = _ at hk
  generalize j.index = index at hn hk
  rcases right_cases hj with hright | ⟨f, -, hright⟩
  · rw [hright] at hn hk
    rcases index with _ | _ | index <;> simp at hn hk
  · rw [hright] at hn hk
    rcases index with _ | _ | _ | index <;> cases f <;> simp [Form.right] at hn hk

theorem next_eq_none (ht : t = 9 ∨ t = 3) (h : Viable .calculator (.terminal t :: γ) i) :
    i.next .calculator = none := by
  have hlast : ∀ j, Viable .calculator γ j → j.next .calculator = some (.terminal t) →
      j.advance.next .calculator = none := by
    intro j hj hnext
    rw [Item.next_eq] at hnext ⊢
    change (j.right _)[j.index + 1]? = _
    generalize j.index = index at hnext
    rcases right_cases hj with hright | ⟨f, -, hright⟩
    · rw [hright] at hnext ⊢
      rcases index with _ | _ | index <;> simp [Symbol.endOfInput] at hnext
      omega
    · rw [hright] at hnext ⊢
      cases f with
      | operation op =>
        have hbounds := op.terminal_bounds
        rcases index with _ | _ | _ | index <;> simp [Form.right] at hnext
        omega
      | negation =>
        rcases index with _ | _ | index <;> simp [Form.right] at hnext
        omega
      | parenthesis =>
        rcases index with _ | _ | _ | index <;> simp [Form.right] at hnext ⊢
        omega
      | number => rcases index with _ | index <;> simp [Form.right] at hnext ⊢
      | failure => rcases index with _ | index <;> simp [Form.right] at hnext ⊢
  rcases viable_iff.mp h with ⟨j, hj, hnext, -, rfl⟩ | ⟨k, p, hneeded, -, -⟩
  · exact hlast j hj hnext
  · obtain ⟨_, k, ⟨j, hj, hnext, -, rfl⟩, hk, -⟩ := needed_iff.mp hneeded
    rw [hlast j hj hnext] at hk
    cases hk

theorem next_after (hi : Viable .calculator (.nonterminal n :: γ) i)
    (hnext : i.next .calculator = some (.terminal u)) :
    (∃ op : Operator, u = op.terminal) ∨ (∃ δ, γ = .terminal 2 :: δ) ∨ γ = [] := by
  obtain ⟨δ, hδ, hstart⟩ := hi.origin
  rw [Item.next_eq] at hnext
  rcases hindex : i.index with _ | index
  · -- an item that begins here would need an expression after one
    rw [hindex, List.take_zero, List.reverse_nil, List.nil_append] at hδ
    rw [← hδ] at hstart
    by_cases hzero : i.production = 0
    · rw [hzero] at hstart
      cases wellFormed.eq_nil_of_viable_zero hstart
    · exact absurd (hstart.needed hzero) not_needed_after
  · rcases right_cases hi with hright | ⟨f, -, hright⟩
    · rw [hright, hindex] at hnext
      rcases index with _ | index <;> simp at hnext
      cases hnext
      have hend : i.next .calculator = some (.terminal Symbol.endOfInput) := by
        rw [Item.next_eq, hright, hindex]
        rfl
      exact Or.inr (Or.inr (List.cons.inj (wellFormed.accepting_prefix hi hend)).2)
    · rw [hright, hindex] at hnext hδ
      cases f with
      | operation op =>
        rcases index with _ | _ | index <;> simp [Form.right] at hnext
        exact Or.inl ⟨op, hnext.symm⟩
      | parenthesis =>
        rcases index with _ | _ | index <;> simp [Form.right] at hnext
        exact Or.inr (Or.inl ⟨δ, (List.cons.inj hδ).2⟩)
      | negation => rcases index with _ | index <;> simp [Form.right] at hnext
      | number => simp [Form.right] at hnext
      | failure => simp [Form.right] at hnext

end Items

inductive Frame
  | paren
  | negation
  | operation (op : Operator)

namespace Frame

def form : Frame → Form
  | paren => .parenthesis
  | negation => .negation
  | operation op => .operation op

def index : Frame → Nat
  | paren => 1
  | negation => 1
  | operation _ => 2

def symbols : Frame → List Symbol
  | paren => [.terminal 2]
  | negation => [.terminal 5]
  | operation op => [.terminal op.terminal, .nonterminal 1]

def rank? : Frame → Option Precedence
  | paren => none
  | negation => some negationRank
  | operation op => some op.rank

theorem index_lt (f : Frame) : f.index < f.form.right.length := by
  cases f <;> simp [index, form, Form.right]

theorem take_index (f : Frame) : (f.form.right.take f.index).reverse = f.symbols := by
  cases f <;> rfl

theorem operand (f : Frame) : f.form.right[f.index]? = some (.nonterminal 1) := by
  cases f <;> rfl

theorem productionPrecedence (f : Frame) {r : Precedence} (hr : f.rank? = some r) :
    Grammar.calculator.productionPrecedence f.form.rule = some r := by
  cases f with
  | paren => cases hr
  | negation =>
    cases hr
    rfl
  | operation op =>
    cases hr
    cases op <;> rfl

end Frame

def spine (fs : List Frame) : List Symbol := fs.flatMap Frame.symbols

@[simp] theorem spine_cons (f : Frame) (fs : List Frame) :
    spine (f :: fs) = f.symbols ++ spine fs := List.flatMap_cons

def leastAfter : List Frame → Nat
  | [] => 0
  | f :: _ => (f.rank?.map Precedence.rightBound).getD 0

theorem leastAfter_cons {f : Frame} {r : Precedence} (hr : f.rank? = some r) (fs : List Frame) :
    leastAfter (f :: fs) = r.rightBound := by
  rw [leastAfter, hr]
  rfl

/-- The terminals that can come after an operand. Only what an enclosing pair of parentheses, or
the whole expression, leaves open can be closed. -/
inductive Closes : List Frame → Nat → Prop
  | operator (fs : List Frame) (op : Operator) : Closes fs op.terminal
  | closing (fs : List Frame) : Closes (.paren :: fs) 3
  | ending : Closes [] Symbol.endOfInput
  | inner {f : Frame} {fs : List Frame} {u : Nat} : f ≠ .paren → Closes fs u → Closes (f :: fs) u

theorem exists_of_spine_eq_cons {fs : List Frame} {x : Symbol} {δ : List Symbol}
    (h : spine fs = x :: δ) : ∃ t, x = .terminal t ∧ t ≠ 1 ∧ t ≠ 3 ∧ t ≠ 9 := by
  cases fs with
  | nil => cases h
  | cons f fs =>
    cases f with
    | paren =>
      cases h
      exact ⟨2, rfl, by decide⟩
    | negation =>
      cases h
      exact ⟨5, rfl, by decide⟩
    | operation op =>
      cases h
      have hbounds := op.terminal_bounds
      exact ⟨op.terminal, rfl, by omega, by omega, by omega⟩

theorem needed_spine (fs : List Frame) : Needed .calculator (spine fs) 1 := by
  induction fs with
  | nil => exact ⟨.start 0, .start, rfl⟩
  | cons f fs ih =>
    have hi := f.form.viable (Nat.le_of_lt f.index_lt) ih
    rw [f.take_index] at hi
    exact ⟨_, hi, by rw [f.form.next, f.operand]⟩

theorem Closes.follows {fs : List Frame} {u : Nat} (h : Closes fs u) :
    Follows .calculator (spine fs) 1 u := by
  have hfirst : ∀ (i : Item) (β : List Symbol) (t : Nat),
      (i.right .calculator).drop (i.index + 1) = .terminal t :: β →
        t ∈ (Grammar.calculator.tail i.production (i.index + 1)).first := by
    intro i β t hdrop
    rw [Item.tail_eq, hdrop, wellFormed.mem_prefixes]
    exact ⟨[], .terminal t, β, rfl, by simp, .terminal t⟩
  induction h with
  | operator fs op =>
    have hi := (Form.operation op).viable (Nat.zero_le _) (needed_spine fs)
    refine ⟨_, hi, by rw [Form.next]; rfl, Or.inl (hfirst _ [.nonterminal 1] _ ?_)⟩
    rw [Item.right, Form.right_rule]
    rfl
  | closing fs =>
    have hi := Form.parenthesis.viable (k := 1) (by decide) (needed_spine fs)
    refine ⟨_, hi, by rw [Form.next]; rfl, Or.inl (hfirst _ [] _ ?_)⟩
    rw [Item.right, Form.right_rule]
    rfl
  | ending => exact ⟨.start 0, .start, rfl, Or.inl (hfirst _ [] _ rfl)⟩
  | @inner f fs u hf _ ih =>
    -- what comes after the operand comes after all of the frame
    have hahead := f.form.ahead (Nat.le_of_lt f.index_lt) ih
    rw [f.take_index] at hahead
    refine ⟨_, hahead.viable, by rw [f.form.next, f.operand], Or.inr ⟨?_, hahead⟩⟩
    rw [Item.tail_eq, Item.right, Form.right_rule, Grammar.nullable_prefixes]
    cases f with
    | paren => exact absurd rfl hf
    | negation => simp [Frame.form, Frame.index, Form.right]
    | operation op => simp [Frame.form, Frame.index, Form.right]

theorem not_completed_spine {fs : List Frame} {p : Nat} :
    ¬ Viable .calculator (spine fs) (.completed .calculator p) := by
  intro h
  obtain ⟨f, δ, -, hδ, -⟩ := completed_cases h
  obtain ⟨x, β, hright⟩ : ∃ x β, f.right.reverse = x :: β :=
    List.exists_cons_of_ne_nil (by cases f <;> simp [Form.right])
  rw [hright] at hδ
  obtain ⟨t, rfl, hone, hthree, hnine⟩ := exists_of_spine_eq_cons hδ
  cases f with
  | failure =>
    cases hright
    exact hone rfl
  | parenthesis =>
    cases hright
    exact hthree rfl
  | number =>
    cases hright
    exact hnine rfl
  | _ => cases hright

theorem not_completed_first {p : Nat} :
    ¬ Viable .calculator [.nonterminal 1] (.completed .calculator p) := by
  intro h
  obtain ⟨f, δ, -, hδ, -⟩ := completed_cases h
  cases f <;> cases hδ

theorem completed_frame {f : Frame} {fs : List Frame} {p : Nat}
    (h : Viable .calculator (.nonterminal 1 :: spine (f :: fs)) (.completed .calculator p)) :
    f ≠ .paren ∧ p = f.form.rule := by
  obtain ⟨form, δ, rfl, hδ, hneeded⟩ := completed_cases h
  rw [spine_cons] at hδ
  cases form with
  | operation op =>
    have hbounds := op.terminal_bounds
    obtain ⟨-, hδ⟩ := List.cons.inj hδ
    cases f with
    | paren =>
      have hop := Symbol.terminal.inj (List.cons.inj hδ).1
      omega
    | negation =>
      obtain ⟨-, hspine⟩ := List.cons.inj hδ
      obtain ⟨t, ht, -⟩ := exists_of_spine_eq_cons hspine
      cases ht
    | operation op' =>
      obtain ⟨hop, -⟩ := List.cons.inj hδ
      obtain rfl := Operator.terminal_injective (Symbol.terminal.inj hop)
      exact ⟨by simp, rfl⟩
  | negation =>
    obtain ⟨-, hδ⟩ := List.cons.inj hδ
    cases f with
    | paren => cases hδ
    | negation => exact ⟨by simp, rfl⟩
    | operation op =>
      obtain ⟨-, rfl⟩ := List.cons.inj hδ
      exact absurd hneeded not_needed_after
  | _ => cases hδ

theorem ahead_frame {f : Frame} {fs : List Frame} {r : Precedence} {u : Nat}
    (hr : f.rank? = some r) (hu : Closes (f :: fs) u) :
    Ahead .calculator (.nonterminal 1 :: spine (f :: fs)) (.completed .calculator f.form.rule)
      u := by
  have hγ : f.form.right.reverse ++ spine fs = .nonterminal 1 :: spine (f :: fs) := by
    cases f with
    | paren => cases hr
    | _ => rfl
  have houter : Closes fs u := by
    cases hu with
    | operator => exact .operator fs _
    | closing => cases hr
    | inner _ houter => exact houter
  have hahead := f.form.ahead (Nat.le_refl _) houter.follows
  rwa [List.take_length, ← f.form.completed, hγ] at hahead

section Cells

variable {a : Automaton} (hf : a.Faithful .calculator) {fs : List Frame} {s u : Nat}

include hf

theorem action_first (form : Form) (hu : form.right[0]? = some (.terminal u))
    (hs : stateAfter a.step (spine fs) = some s) :
    ∃ next, (Table.generate .calculator a).action s u = .shift next := by
  obtain ⟨hlt, hend⟩ := form.terminal_lt (List.mem_of_getElem? hu)
  refine Table.action_of_incomplete hf hs (fun p => not_completed_spine)
    (form.viable (Nat.zero_le _) (needed_spine fs)) ?_ hend hlt
  rw [form.next, hu]

theorem action_ending (hs : stateAfter a.step [.nonterminal 1] = some s) :
    (Table.generate .calculator a).action s Symbol.endOfInput = .accept := by
  obtain ⟨st, hst, -, hd⟩ := hf.state _ s hs
  have hnext : (⟨0, 1⟩ : Item).next .calculator = some (.terminal Symbol.endOfInput) := rfl
  rw [Table.action_generate hst, if_pos (by decide),
    Table.entry_of_incomplete hd fun p => not_completed_first,
    Table.shiftOn_end hd wellFormed.viable_accept hnext]
  rfl

theorem action_closing
    (hs : stateAfter a.step (.nonterminal 1 :: spine (.paren :: fs)) = some s) :
    ∃ next, (Table.generate .calculator a).action s 3 = .shift next := by
  have hi := Form.parenthesis.viable (k := 2) (by decide) (needed_spine fs)
  refine Table.action_of_incomplete hf hs (fun p hp => ?_) hi (Form.parenthesis.next 2)
    (by decide) (by decide)
  exact (completed_frame hp).1 rfl

variable (hcovers : a.Covers .calculator)

include hcovers

theorem action_read {form : Form} (hform : form = .number ∨ form = .parenthesis)
    (hu : Closes fs u) (hs : stateAfter a.step (form.right.reverse ++ spine fs) = some s) :
    (Table.generate .calculator a).action s u = .reduce form.rule := by
  obtain ⟨t, β, ht, hright⟩ : ∃ t β, (t = 9 ∨ t = 3) ∧ form.right.reverse = .terminal t :: β := by
    rcases hform with rfl | rfl
    · exact ⟨9, _, Or.inl rfl, rfl⟩
    · exact ⟨3, _, Or.inr rfl, rfl⟩
  have hahead := form.ahead (Nat.le_refl _) hu.follows
  rw [List.take_length, ← form.completed] at hahead
  refine Table.action_of_completed hf hcovers hs (fun q hq => ?_) hahead (fun i hi hnext => ?_)
    (wellFormed.ahead_lt hahead)
  · obtain ⟨form', δ, rfl, hδ, -⟩ := completed_cases hq
    rcases hform with rfl | rfl
    · cases form' <;> first | rfl | cases hδ
    · cases form' <;> first | rfl | cases hδ
  · rw [hright] at hi
    rw [next_eq_none ht hi] at hnext
    cases hnext

theorem action_operator {f : Frame} {r : Precedence} (hr : f.rank? = some r) (op : Operator)
    (hs : stateAfter a.step (.nonterminal 1 :: spine (f :: fs)) = some s) :
    ∃ next, (Table.generate .calculator a).action s op.terminal =
      if r.rightBound ≤ op.rank.priority then .shift next else .reduce f.form.rule := by
  have hi := (Form.operation op).viable (k := 1) (by simp [Form.right]) (needed_spine (f :: fs))
  obtain ⟨hlt, hend⟩ := (Form.operation op).terminal_lt (u := op.terminal) (by simp [Form.right])
  refine Table.action_of_levels hf hcovers hs (fun q hq => (completed_frame hq).2)
    (ahead_frame hr (.operator _ op)) hi ((Form.operation op).next 1) hend hlt
    (f.productionPrecedence hr) (terminalPrecedence_operator op) ?_ ?_
  · cases f with
    | paren => cases hr
    | negation =>
      cases hr
      cases op <;> decide
    | operation op' =>
      cases hr
      cases op <;> cases op' <;> decide
  · cases f with
    | paren => cases hr
    | negation =>
      cases hr
      decide
    | operation op' =>
      cases hr
      cases op' <;> decide

theorem action_extend {op : Operator} (hle : leastAfter fs ≤ op.rank.priority)
    (hs : stateAfter a.step (.nonterminal 1 :: spine fs) = some s) :
    ∃ next, (Table.generate .calculator a).action s op.terminal = .shift next := by
  have hi := (Form.operation op).viable (k := 1) (by simp [Form.right]) (needed_spine fs)
  obtain ⟨hlt, hend⟩ := (Form.operation op).terminal_lt (u := op.terminal) (by simp [Form.right])
  cases fs with
  | nil =>
    exact Table.action_of_incomplete hf hs (fun p => not_completed_first) hi
      ((Form.operation op).next 1) hend hlt
  | cons f fs =>
    cases hr : f.rank? with
    | none =>
      refine Table.action_of_incomplete hf hs (fun p hp => (completed_frame hp).1 ?_) hi
        ((Form.operation op).next 1) hend hlt
      cases f with
      | paren => rfl
      | _ => cases hr
    | some r =>
      obtain ⟨next, haction⟩ := action_operator hf hcovers hr op hs
      rw [leastAfter_cons hr] at hle
      exact ⟨next, by rw [haction, if_pos hle]⟩

theorem action_leave {f : Frame} {r : Precedence} (hr : f.rank? = some r) (hu : Closes (f :: fs) u)
    (hlt : ∀ op : Operator, u = op.terminal → op.rank.priority < r.rightBound)
    (hs : stateAfter a.step (.nonterminal 1 :: spine (f :: fs)) = some s) :
    (Table.generate .calculator a).action s u = .reduce f.form.rule := by
  by_cases hop : ∃ op : Operator, u = op.terminal
  · obtain ⟨op, rfl⟩ := hop
    obtain ⟨next, haction⟩ := action_operator hf hcovers hr op hs
    rw [haction, if_neg (Nat.not_le.mpr (hlt op rfl))]
  · have hahead := ahead_frame hr hu
    refine Table.action_of_completed hf hcovers hs (fun q hq => (completed_frame hq).2) hahead
      (fun i hi hnext => ?_) (wellFormed.ahead_lt hahead)
    rcases next_after hi hnext with hop' | ⟨δ, hδ⟩ | hnil
    · exact hop hop'
    · cases f with
      | paren => cases hr
      | negation => cases hδ
      | operation op =>
        have hbounds := op.terminal_bounds
        have hterminal := Symbol.terminal.inj (List.cons.inj hδ).1
        omega
    · cases f <;> cases hnil

end Cells

end Calculator

end TableParsing
