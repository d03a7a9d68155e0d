import TableParsing.Proofs.Operators.Climbing
import TableParsing.Proofs.Table.Decision

/-! Tables of operator grammars. Their one nonterminal besides the augmented start symbol stands
for an operand or for two of them with an operator between. After a prefix the operators that wait
for their right operand alternate with their left ones, and the last of them decides between
shift and reduction on the next, as their levels do. -/

namespace TableParsing

namespace Table

variable {g : Grammar} {a : Automaton} {γ : List Symbol} {s u : Nat} {st : Automaton.State}
  {i : Item}

theorem shiftOn_of_next (hd : Describes g γ st.transitions (st.reduces.map (·.1)) st.accepts)
    (hi : Viable g γ i) (hnext : i.next g = some (.terminal u)) (hu : u ≠ Symbol.endOfInput) :
    ∃ next, shiftOn st u = some (.shift next) := by
  obtain ⟨next, htarget⟩ := (hd.moves (.terminal u)).mpr ⟨by simpa using hu, i, hi, hnext⟩
  exact ⟨next, shiftOn_eq_some.mpr (Or.inl ⟨next, rfl, htarget⟩)⟩

theorem shiftOn_end (hd : Describes g γ st.transitions (st.reduces.map (·.1)) st.accepts)
    (hi : Viable g γ i) (hnext : i.next g = some (.terminal Symbol.endOfInput)) :
    shiftOn st Symbol.endOfInput = some .accept := by
  refine shiftOn_eq_some.mpr (Or.inr ⟨rfl, rfl, hd.accepts.mpr ⟨i, hi, hnext⟩, ?_⟩)
  rw [Option.eq_none_iff_forall_ne_some]
  intro next htarget
  exact ((hd.moves _).mp ⟨next, htarget⟩).1 rfl

theorem shiftOn_eq_none (hd : Describes g γ st.transitions (st.reduces.map (·.1)) st.accepts)
    (h : ∀ i, Viable g γ i → i.next g ≠ some (.terminal u)) : shiftOn st u = none := by
  rw [Option.eq_none_iff_forall_ne_some]
  intro act hact
  rcases shiftOn_eq_some.mp hact with ⟨next, -, htarget⟩ | ⟨-, rfl, haccepts, -⟩
  · obtain ⟨-, i, hi, hnext⟩ := (hd.moves _).mp ⟨next, htarget⟩
    exact h i hi hnext
  · obtain ⟨i, hi, hnext⟩ := hd.accepts.mp haccepts
    exact h i hi hnext

theorem entry_of_incomplete (hd : Describes g γ st.transitions (st.reduces.map (·.1)) st.accepts)
    (h : ∀ p, ¬ Viable g γ (.completed g p)) : entry g s st u = ⟨shiftOn st u, []⟩ := by
  refine resolve_of_empty ?_
  rw [List.toFinset_eq_empty_iff, List.eq_nil_iff_forall_not_mem]
  intro p hp
  obtain ⟨l, hl, -⟩ := mem_reducesOn.mp hp
  exact h p ((hd.completed p).mp (List.mem_map_of_mem hl))

theorem entry_of_completed (hcovers : a.Covers g) (hs : stateAfter a.step γ = some s)
    (hst : a.states[s]? = some st)
    (hd : Describes g γ st.transitions (st.reduces.map (·.1)) st.accepts) {p : Nat}
    (h : ∀ q, Viable g γ (.completed g q) → q = p) (hahead : Ahead g γ (.completed g p) u) :
    entry g s st u = resolve g s u (shiftOn st u) [p] := by
  refine resolve_congr fun q => ?_
  rw [List.mem_singleton, mem_reducesOn]
  constructor
  · rintro ⟨l, hl, -⟩
    exact h q ((hd.completed q).mp (List.mem_map_of_mem hl))
  · rintro rfl
    obtain ⟨⟨q, l⟩, hl, rfl⟩ := List.mem_map.mp ((hd.completed q).mpr hahead.viable)
    exact ⟨l, hl, hcovers γ s st q l u hs hst hl hahead⟩

theorem resolve_singleton (shift : Option Action) (p : Nat) : (resolve g s u shift [p]).action =
    some (match shift with
      | none => .reduce p
      | some act => (compareLevels act p (shiftPrecedence g u act)
          (g.productionPrecedence p)).resolution) := by
  cases shift <;> simp [resolve, shiftConflict, List.eraseDups_cons]

end Table

/-- Within a level, the operator before the left operand decides as the next one would. -/
theorem compareLevels_resolution {shift : Action} {p : Nat} {s r : Precedence}
    (h : s.priority = r.priority → s.assoc = r.assoc) :
    (compareLevels shift p (some s) (some r)).resolution =
      if r.rightBound ≤ s.priority then shift
      else if r.assoc = .nonassoc ∧ s.priority = r.priority then .error
      else .reduce p := by
  obtain ⟨m, assoc⟩ := s
  obtain ⟨n, assoc'⟩ := r
  simp only [compareLevels, Precedence.rightBound] at h ⊢
  rcases Nat.lt_trichotomy m n with hlt | rfl | hgt
  · rw [if_neg (Nat.lt_asymm hlt), if_pos hlt]
    cases assoc' <;> simp [Nat.not_le.mpr hlt, Nat.lt_asymm hlt, Nat.ne_of_lt hlt]
  · obtain rfl := h rfl
    cases assoc <;> simp
  · rw [if_pos hgt]
    cases assoc' <;> simp <;> omega

/-- All productions but the first are those of the operand and, with an operand on each side, of
the terminals that have a precedence. -/
structure OperatorGrammar (g : Grammar) (x : Nat) (rule : Nat → Nat) : Prop where
  wellFormed : g.WellFormed
  operand_ne_error : x ≠ Symbol.errorToken
  operand_unranked : g.terminalPrecedence x = none
  error_unranked : g.terminalPrecedence Symbol.errorToken = none
  operand : rule x < g.productions.size ∧ (g.production (rule x)).left = g.start ∧
    (g.production (rule x)).right = #[.terminal x]
  operator : ∀ t r, g.terminalPrecedence t = some r → rule t < g.productions.size ∧
    (g.production (rule t)).left = g.start ∧
    (g.production (rule t)).right = #[.nonterminal g.start, .terminal t, .nonterminal g.start] ∧
    (g.production (rule t)).precedence = none
  only : ∀ p, p ≠ 0 → p < g.productions.size →
    p = rule x ∨ ∃ t r, g.terminalPrecedence t = some r ∧ p = rule t
  levels : ∀ t u r s, g.terminalPrecedence t = some r → g.terminalPrecedence u = some s →
    r.priority = s.priority → r.assoc = s.assoc

/-- The operators that wait for their right operand, the latest first, each after its left
operand. -/
def spine (g : Grammar) (ts : List Nat) : List Symbol :=
  ts.flatMap fun t => [.terminal t, .nonterminal g.start]

def Grammar.EndsOperand (g : Grammar) (u : Nat) : Prop :=
  u = Symbol.endOfInput ∨ ∃ r, g.terminalPrecedence u = some r

def Grammar.AllRanked (g : Grammar) (ts : List Nat) : Prop :=
  ∀ t ∈ ts, ∃ r, g.terminalPrecedence t = some r

namespace OperatorGrammar

variable {g : Grammar} {x : Nat} {rule : Nat → Nat} (h : OperatorGrammar g x rule)
  {γ : List Symbol} {i : Item} {p t u : Nat} {ts : List Nat} {r : Precedence}

include h

theorem mem_productionsOf_operand : rule x ∈ g.productionsOf g.start :=
  Grammar.mem_productionsOf.mpr ⟨h.operand.1, h.operand.2.1⟩

theorem mem_productionsOf_operator (ht : g.terminalPrecedence t = some r) :
    rule t ∈ g.productionsOf g.start :=
  Grammar.mem_productionsOf.mpr ⟨(h.operator t r ht).1, (h.operator t r ht).2.1⟩

theorem right_operand : (g.production (rule x)).right.toList = [.terminal x] := by
  rw [h.operand.2.2]

theorem right_operator (ht : g.terminalPrecedence t = some r) :
    (g.production (rule t)).right.toList =
      [.nonterminal g.start, .terminal t, .nonterminal g.start] := by
  rw [(h.operator t r ht).2.2.1]

theorem productionPrecedence_operator (ht : g.terminalPrecedence t = some r) :
    g.productionPrecedence (rule t) = some r := by
  refine Grammar.binds_iff.mp (.inherited (α := [.nonterminal g.start])
    (β := [.nonterminal g.start]) (h.operator t r ht).2.2.2 (h.right_operator ht) ?_ ht)
  simp

theorem rule_ne_zero (ht : g.terminalPrecedence t = some r) : rule t ≠ 0 := by
  intro hzero
  have hright := h.right_operator ht
  rw [hzero, h.wellFormed.right_zero] at hright
  simp at hright

theorem operand_ne_zero : rule x ≠ 0 := by
  intro hzero
  have hright := h.right_operand
  rw [hzero, h.wellFormed.right_zero] at hright
  simp at hright

theorem viable_operator (hγ : Needed g γ g.start) (ht : g.terminalPrecedence t = some r) :
    Viable g (.nonterminal g.start :: γ) ⟨rule t, 1⟩ ∧
      Viable g (.terminal t :: .nonterminal g.start :: γ) ⟨rule t, 2⟩ := by
  have hstart := hγ.viable (h.mem_productionsOf_operator ht)
  have hend := h.wellFormed.end_notMem_right (h.rule_ne_zero ht)
  have hone := hstart.take (k := 1) (by simp [h.right_operator ht])
    fun hmem => hend (List.mem_of_mem_take hmem)
  have htwo := hstart.take (k := 2) (by simp [h.right_operator ht])
    fun hmem => hend (List.mem_of_mem_take hmem)
  rw [h.right_operator ht] at hone htwo
  exact ⟨hone, htwo⟩

theorem next_operator (ht : g.terminalPrecedence t = some r) :
    (Item.start (rule t)).next g = some (.nonterminal g.start) ∧
      (⟨rule t, 1⟩ : Item).next g = some (.terminal t) ∧
      (⟨rule t, 2⟩ : Item).next g = some (.nonterminal g.start) := by
  simp [Item.next, Item.start, (h.operator t r ht).2.2.1]

theorem needed_spine (hts : g.AllRanked ts) : Needed g (spine g ts) g.start := by
  induction ts with
  | nil =>
    refine ⟨.start 0, .start, ?_⟩
    rw [Item.next, Item.start, h.wellFormed.right_zero]
    rfl
  | cons t ts ih =>
    rw [Grammar.AllRanked, List.forall_mem_cons] at hts
    obtain ⟨⟨r, ht⟩, hts⟩ := hts
    exact ⟨_, (h.viable_operator (ih hts) ht).2, (h.next_operator ht).2.2⟩

theorem follows_spine (hts : g.AllRanked ts) (hu : g.EndsOperand u) :
    Follows g (spine g ts) g.start u := by
  rcases hu with rfl | ⟨s, hu⟩
  · -- the end of input is passed on from the first item to the operands of all operators
    induction ts with
    | nil =>
      have hright : (Item.start 0).right g =
          [.nonterminal g.start, .terminal Symbol.endOfInput] := by
        rw [Item.right, Item.start, h.wellFormed.right_zero]
      refine ⟨.start 0, .start, by rw [Item.next_eq, hright]; rfl, Or.inl ?_⟩
      rw [Item.tail_eq, hright, h.wellFormed.mem_prefixes]
      exact ⟨[], _, [], rfl, by simp, .terminal _⟩
    | cons t ts ih =>
      rw [Grammar.AllRanked, List.forall_mem_cons] at hts
      obtain ⟨⟨r, ht⟩, hts⟩ := hts
      have hahead := (ih hts).ahead (h.mem_productionsOf_operator ht)
      have hend := h.wellFormed.end_notMem_right (h.rule_ne_zero ht)
      have htwo := hahead.take (k := 2) (by simp [h.right_operator ht])
        fun hmem => hend (List.mem_of_mem_take hmem)
      rw [h.right_operator ht] at htwo
      refine ⟨_, htwo.viable, (h.next_operator ht).2.2, Or.inr ⟨?_, htwo⟩⟩
      rw [Item.tail_eq, Item.right, h.right_operator ht, Grammar.nullable_prefixes]
      simp
  · have hstart := (h.needed_spine hts).viable (h.mem_productionsOf_operator hu)
    refine ⟨_, hstart, (h.next_operator hu).1, Or.inl ?_⟩
    rw [Item.tail_eq, Item.right, h.wellFormed.mem_prefixes]
    refine ⟨[], .terminal u, [.nonterminal g.start], ?_, by simp, .terminal u⟩
    change (g.production (rule u)).right.toList.drop 1 = _
    rw [h.right_operator hu]
    rfl

theorem ahead_operand (hts : g.AllRanked ts) (hu : g.EndsOperand u) :
    Ahead g (.terminal x :: spine g ts) (.completed g (rule x)) u := by
  have hahead := (h.follows_spine hts hu).ahead h.mem_productionsOf_operand
  have hdone := h.wellFormed.ahead_completed hahead h.operand_ne_zero
  rwa [h.right_operand] at hdone

theorem ahead_operator (hts : g.AllRanked ts) (ht : g.terminalPrecedence t = some r)
    (hu : g.EndsOperand u) :
    Ahead g (.nonterminal g.start :: spine g (t :: ts)) (.completed g (rule t)) u := by
  have hahead := (h.follows_spine hts hu).ahead (h.mem_productionsOf_operator ht)
  have hdone := h.wellFormed.ahead_completed hahead (h.rule_ne_zero ht)
  rwa [h.right_operator ht] at hdone

theorem completed_cases (hp : Viable g γ (.completed g p)) :
    (p = rule x ∧ ∃ δ, γ = .terminal x :: δ) ∨ ∃ t r δ, g.terminalPrecedence t = some r ∧
      p = rule t ∧ γ = .nonterminal g.start :: .terminal t :: .nonterminal g.start :: δ := by
  obtain ⟨hzero, δ, rfl, -⟩ := h.wellFormed.completed hp
  rcases h.only p hzero (h.wellFormed.viable_lt hp) with rfl | ⟨t, r, ht, rfl⟩
  · exact Or.inl ⟨rfl, δ, by rw [h.right_operand]; rfl⟩
  · exact Or.inr ⟨t, r, δ, ht, rfl, by rw [h.right_operator ht]; rfl⟩

theorem next_cases (hi : Viable g γ i) (hnext : i.next g = some (.terminal u)) :
    u = x ∨ ∃ δ, γ = .nonterminal g.start :: δ := by
  by_cases hzero : i.production = 0
  · have hu : u = Symbol.endOfInput := by
      have hmem := Item.next_mem hnext
      rw [hzero, h.wellFormed.right_zero] at hmem
      simpa using hmem
    rw [hu] at hnext
    exact Or.inr ⟨[], h.wellFormed.accepting_prefix hi hnext⟩
  · rcases h.only i.production hzero (h.wellFormed.viable_lt hi) with hp | ⟨t, r, ht, hp⟩
    · have hmem := Item.next_mem hnext
      rw [hp, h.operand.2.2] at hmem
      exact Or.inl (by simpa using hmem)
    · obtain ⟨δ, rfl, -⟩ := hi.origin
      have hright : i.right g = [.nonterminal g.start, .terminal t, .nonterminal g.start] := by
        rw [Item.right, hp, h.right_operator ht]
      rw [Item.next_eq, hright] at hnext
      have hindex : i.index = 1 := by
        rcases hk : i.index with _ | _ | _ | k
        · simp [hk] at hnext
        · rfl
        · simp [hk] at hnext
        · simp [hk] at hnext
      exact Or.inr ⟨δ, by rw [hright, hindex]; rfl⟩

theorem terminal_lt (hu : g.EndsOperand u) : u < g.terminals.size := by
  rcases hu with rfl | ⟨r, hu⟩
  · exact h.wellFormed.terminals_pos
  · refine h.wellFormed.terminal_lt (p := rule u) ?_
    rw [(h.operator u r hu).2.2.1]
    simp

theorem operand_lt : x < g.terminals.size := by
  refine h.wellFormed.terminal_lt (p := rule x) ?_
  rw [h.operand.2.2]
  simp

theorem ne_operand (hu : g.EndsOperand u) : u ≠ x := by
  rintro rfl
  rcases hu with rfl | ⟨r, hu⟩
  · refine h.wellFormed.end_notMem_right h.operand_ne_zero ?_
    rw [h.right_operand]
    simp
  · rw [h.operand_unranked] at hu
    cases hu

theorem operator_ne_end (ht : g.terminalPrecedence t = some r) : t ≠ Symbol.endOfInput := by
  rintro rfl
  refine h.wellFormed.end_notMem_right (h.rule_ne_zero ht) ?_
  rw [h.right_operator ht]
  simp

section Cells

variable {a : Automaton} (hf : a.Faithful g) {s : Nat}

include hf

omit hf in
theorem not_completed_spine (hts : g.AllRanked ts) : ¬ Viable g (spine g ts) (.completed g p) := by
  intro hp
  rcases h.completed_cases hp with ⟨-, δ, hδ⟩ | ⟨t, r, δ, -, -, hδ⟩
  · cases ts with
    | nil => cases hδ
    | cons t ts =>
      obtain ⟨r, ht⟩ := hts t List.mem_cons_self
      cases hδ
      exact h.ne_operand (Or.inr ⟨r, ht⟩) rfl
  · cases ts <;> cases hδ

theorem action_operand (hts : g.AllRanked ts) (hs : stateAfter a.step (spine g ts) = some s) :
    ∃ next, (Table.generate g a).action s x = .shift next := by
  obtain ⟨st, hst, -, hd⟩ := hf.state _ s hs
  have hi := (h.needed_spine hts).viable h.mem_productionsOf_operand
  have hnext : (Item.start (rule x)).next g = some (.terminal x) := by
    simp [Item.next, Item.start, h.operand.2.2]
  have hend : x ≠ Symbol.endOfInput := (h.ne_operand (Or.inl rfl)).symm
  obtain ⟨next, hshift⟩ := Table.shiftOn_of_next hd hi hnext hend
  refine ⟨next, ?_⟩
  rw [Table.action_generate hst, if_pos h.operand_lt,
    Table.entry_of_incomplete hd fun p => h.not_completed_spine hts, hshift]
  rfl

theorem action_first (hs : stateAfter a.step [.nonterminal g.start] = some s) :
    (Table.generate g a).action s Symbol.endOfInput = .accept ∧
      ∀ t r, g.terminalPrecedence t = some r →
        ∃ next, (Table.generate g a).action s t = .shift next := by
  obtain ⟨st, hst, -, hd⟩ := hf.state _ s hs
  have hnone : ∀ p, ¬ Viable g [.nonterminal g.start] (.completed g p) := by
    intro p hp
    rcases h.completed_cases hp with ⟨-, δ, hδ⟩ | ⟨t, r, δ, -, -, hδ⟩ <;> cases hδ
  constructor
  · have hnext : (⟨0, 1⟩ : Item).next g = some (.terminal Symbol.endOfInput) := by
      rw [Item.next, h.wellFormed.right_zero]
      rfl
    rw [Table.action_generate hst, if_pos (h.terminal_lt (Or.inl rfl)),
      Table.entry_of_incomplete hd hnone, Table.shiftOn_end hd h.wellFormed.viable_accept hnext]
    rfl
  · intro t r ht
    have hneeded : Needed g (spine g []) g.start := h.needed_spine (by simp [Grammar.AllRanked])
    obtain ⟨next, hshift⟩ := Table.shiftOn_of_next hd (h.viable_operator hneeded ht).1
      (h.next_operator ht).2.1 (h.operator_ne_end ht)
    refine ⟨next, ?_⟩
    rw [Table.action_generate hst, if_pos (h.terminal_lt (Or.inr ⟨r, ht⟩)),
      Table.entry_of_incomplete hd hnone, hshift]
    rfl

variable (hcovers : a.Covers g)

include hcovers

theorem action_operand_read (hts : g.AllRanked ts) (hu : g.EndsOperand u)
    (hs : stateAfter a.step (.terminal x :: spine g ts) = some s) :
    (Table.generate g a).action s u = .reduce (rule x) := by
  obtain ⟨st, hst, -, hd⟩ := hf.state _ s hs
  have honly : ∀ p, Viable g (.terminal x :: spine g ts) (.completed g p) → p = rule x := by
    intro p hp
    rcases h.completed_cases hp with ⟨hp, -⟩ | ⟨t, r, δ, -, -, hδ⟩
    · exact hp
    · cases hδ
  have hshift : Table.shiftOn st u = none := by
    refine Table.shiftOn_eq_none hd fun i hi hnext => ?_
    rcases h.next_cases hi hnext with rfl | ⟨δ, hδ⟩
    · exact h.ne_operand hu rfl
    · cases hδ
  rw [Table.action_generate hst, if_pos (h.terminal_lt hu),
    Table.entry_of_completed hcovers hs hst hd honly (h.ahead_operand hts hu),
    Table.resolve_singleton, hshift]
  rfl

variable (hts : g.AllRanked ts) (ht : g.terminalPrecedence t = some r)
  (hs : stateAfter a.step (.nonterminal g.start :: spine g (t :: ts)) = some s)

include hts ht hs

theorem entry_operator (hu : g.EndsOperand u) : ∃ st, a.states[s]? = some st ∧
    Describes g (.nonterminal g.start :: spine g (t :: ts)) st.transitions
      (st.reduces.map (·.1)) st.accepts ∧
    Table.entry g s st u = resolve g s u (Table.shiftOn st u) [rule t] := by
  obtain ⟨st, hst, -, hd⟩ := hf.state _ s hs
  refine ⟨st, hst, hd, Table.entry_of_completed hcovers hs hst hd ?_
    (h.ahead_operator hts ht hu)⟩
  intro p hp
  rcases h.completed_cases hp with ⟨-, δ, hδ⟩ | ⟨t', r', δ, -, hp, hδ⟩
  · cases hδ
  · cases hδ
    exact hp

theorem action_operator_end :
    (Table.generate g a).action s Symbol.endOfInput = .reduce (rule t) := by
  have hu : g.EndsOperand Symbol.endOfInput := Or.inl rfl
  obtain ⟨st, hst, hd, hentry⟩ := h.entry_operator hf hcovers hts ht hs hu
  have hshift : Table.shiftOn st Symbol.endOfInput = none := by
    refine Table.shiftOn_eq_none hd fun i hi hnext => ?_
    cases h.wellFormed.accepting_prefix hi hnext
  rw [Table.action_generate hst, if_pos (h.terminal_lt hu), hentry, Table.resolve_singleton,
    hshift]
  rfl

theorem cell_operator {r' : Precedence} (hu : g.terminalPrecedence u = some r') :
    ∃ st next, a.states[s]? = some st ∧ (Table.entry g s st u).action =
      some (compareLevels (.shift next) (rule t) (some r') (some r)).resolution := by
  obtain ⟨st, hst, hd, hentry⟩ := h.entry_operator hf hcovers hts ht hs (Or.inr ⟨r', hu⟩)
  have hts' : g.AllRanked (t :: ts) := List.forall_mem_cons.mpr ⟨⟨r, ht⟩, hts⟩
  have hitem := h.viable_operator (h.needed_spine hts') hu
  obtain ⟨next, hshift⟩ :=
    Table.shiftOn_of_next hd hitem.1 (h.next_operator hu).2.1 (h.operator_ne_end hu)
  refine ⟨st, next, hst, ?_⟩
  rw [hentry, Table.resolve_singleton, hshift]
  simp only [shiftPrecedence, hu, h.productionPrecedence_operator ht]

theorem action_operator {r' : Precedence} (hu : g.terminalPrecedence u = some r') :
    (r.rightBound ≤ r'.priority → ∃ next, (Table.generate g a).action s u = .shift next) ∧
    (r'.priority < r.rightBound → (r.assoc = .nonassoc → r'.priority ≠ r.priority) →
      (Table.generate g a).action s u = .reduce (rule t)) ∧
    (r.assoc = .nonassoc → r'.priority = r.priority →
      (Table.generate g a).action s u = .error ∧
        (Table.generate g a).defaultReduction s = none) := by
  obtain ⟨st, next, hst, hcell⟩ := h.cell_operator hf hcovers hts ht hs hu
  have haction : (Table.generate g a).action s u =
      (compareLevels (.shift next) (rule t) (some r') (some r)).resolution := by
    rw [Table.action_generate hst, if_pos (h.terminal_lt (Or.inr ⟨r', hu⟩)), hcell]
    rfl
  have hassoc : r'.priority = r.priority → r'.assoc = r.assoc := h.levels u t r' r hu ht
  rw [compareLevels_resolution hassoc] at haction hcell
  refine ⟨fun hle => ⟨next, ?_⟩, fun hlt hclash => ?_, fun hnone heq => ?_⟩
  · rw [haction, if_pos hle]
  · rw [haction, if_neg (Nat.not_le.mpr hlt), if_neg fun hboth => hclash hboth.1 hboth.2]
  · have hlt : ¬ r.rightBound ≤ r'.priority := by
      rw [Precedence.rightBound, hnone, heq]
      simp
    rw [if_neg hlt, if_pos ⟨hnone, heq⟩] at haction hcell
    refine ⟨haction, Option.eq_none_iff_forall_ne_some.mpr fun p hp => ?_⟩
    -- an error in a cell keeps the row from reducing by default
    obtain ⟨st', hst', -, hall⟩ := Table.defaultReduction_eq_some.mp hp
    rw [hst] at hst'
    cases hst'
    cases hall u _ (h.terminal_lt (Or.inr ⟨r', hu⟩)) hcell

end Cells

end OperatorGrammar

end TableParsing
