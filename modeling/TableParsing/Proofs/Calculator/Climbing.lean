import TableParsing.Proofs.Calculator.Grammar
import TableParsing.Proofs.Operators.Climbing

/-! Precedence climbing over the words of an expression. Addition and subtraction are the loosest,
then multiplication and division, then negation, which stands before its operand; powers are the
tightest and group to the right. A negation may be the right operand of any operator. What climbing
reads is spelled by the expression that it returns, and it reads every word that spells one. -/

namespace TableParsing.Calculator

/-- The words of an expression. A node for parentheses stands for a pair of them. -/
inductive Spells : Expr → List Word → Prop
  | number (n : Numeral) : Spells (.number (readFloat n.whole n.fraction)) [.number n]
  | paren {e : Expr} {ws : List Word} : Spells e ws →
      Spells (.paren e) (.opening :: (ws ++ [.closing]))
  | negate {e : Expr} {ws : List Word} : Spells e ws →
      Spells (.negate e) (.operator .subtract :: ws)
  | binary {a b : Expr} {ws ws' : List Word} (op : Operator) : Spells a ws → Spells b ws' →
      Spells (.binary op a b) (ws ++ .operator op :: ws')

abbrev Rest (n : Nat) := {rest : List Word // rest.length ≤ n}

def Rest.widen {n m : Nat} (h : n ≤ m) : Expr × Rest n → Expr × Rest m
  | (e, ⟨rest, hrest⟩) => (e, ⟨rest, Nat.le_trans hrest h⟩)

/-- Where no left operand is given, one is read: a number, an expression in parentheses, or a
negation. A left operand is extended by the operators of at least the given priority, each with a
right operand that takes in what binds tighter, or as tightly if the operator groups to the
right. -/
def climbing (least : Nat) : Option Expr → (ws : List Word) → Option (Expr × Rest ws.length)
  | none, .number n :: ws =>
    (climbing least (some (.number (readFloat n.whole n.fraction))) ws).map
      (Rest.widen (Nat.le_succ _))
  | none, .opening :: ws =>
    match climbing 0 none ws with
    | some (e, ⟨.closing :: later, h⟩) =>
      (climbing least (some (.paren e)) later).map (Rest.widen (by simp at h ⊢; omega))
    | _ => none
  | none, .operator .subtract :: ws =>
    match climbing negationRank.rightBound none ws with
    | some (e, ⟨later, h⟩) =>
      (climbing least (some (.negate e)) later).map (Rest.widen (Nat.le_succ_of_le h))
    | none => none
  | none, _ => none
  | some left, .operator op :: ws =>
    if op.rank.priority < least then some (left, ⟨.operator op :: ws, Nat.le_refl _⟩)
    else
      match climbing op.rank.rightBound none ws with
      | some (right, ⟨later, h⟩) =>
        (climbing least (some (.binary op left right)) later).map
          (Rest.widen (Nat.le_succ_of_le h))
      | none => none
  | some left, ws => some (left, ⟨ws, Nat.le_refl _⟩)
termination_by _ ws => ws.length
decreasing_by
  · simp
  · simp
  · simp at h ⊢; omega
  · simp
  · exact Nat.lt_succ_of_le h
  · simp
  · exact Nat.lt_succ_of_le h

def group (ws : List Word) : Option Expr :=
  match climbing 0 none ws with
  | some (e, ⟨[], _⟩) => some e
  | _ => none

def Stops (least : Nat) (ws : List Word) : Prop :=
  ∀ op later, ws = .operator op :: later → op.rank.priority < least

theorem Stops.nil (least : Nat) : Stops least [] := by
  intro op later h
  cases h

theorem Stops.cons {least : Nat} {op : Operator} (h : op.rank.priority < least)
    (ws : List Word) : Stops least (.operator op :: ws) := by
  intro op' later heq
  cases heq
  exact h

inductive Climbs : Nat → Option Expr → List Word → Expr → List Word → Prop
  | number {least : Nat} {n : Numeral} {ws rest : List Word} {e : Expr} :
      Climbs least (some (.number (readFloat n.whole n.fraction))) ws e rest →
      Climbs least none (.number n :: ws) e rest
  | paren {least : Nat} {ws later rest : List Word} {inner e : Expr} :
      Climbs 0 none ws inner (.closing :: later) →
      Climbs least (some (.paren inner)) later e rest → Climbs least none (.opening :: ws) e rest
  | negate {least : Nat} {ws later rest : List Word} {inner e : Expr} :
      Climbs negationRank.rightBound none ws inner later →
      Climbs least (some (.negate inner)) later e rest →
      Climbs least none (.operator .subtract :: ws) e rest
  | binary {least : Nat} {op : Operator} {ws later rest : List Word} {left right e : Expr} :
      least ≤ op.rank.priority → Climbs op.rank.rightBound none ws right later →
      Climbs least (some (.binary op left right)) later e rest →
      Climbs least (some left) (.operator op :: ws) e rest
  | stop {least : Nat} {ws : List Word} {left : Expr} : Stops least ws →
      Climbs least (some left) ws left ws

theorem map_widen_eq_some {n m : Nat} {h : n ≤ m} {r : Option (Expr × Rest n)} {e : Expr}
    {rest : Rest m} (hr : r.map (Rest.widen h) = some (e, rest)) :
    ∃ hrest : rest.1.length ≤ n, r = some (e, ⟨rest.1, hrest⟩) := by
  obtain ⟨⟨e, later, hlater⟩, rfl, heq⟩ := Option.map_eq_some_iff.mp hr
  cases heq
  exact ⟨hlater, rfl⟩

theorem climbs_of_climbing {least : Nat} {left : Option Expr} {ws : List Word} {e : Expr}
    {rest : Rest ws.length} (h : climbing least left ws = some (e, rest)) :
    Climbs least left ws e rest.1 := by
  fun_induction climbing least left ws generalizing e with
  | case1 least n ws ih =>
    obtain ⟨hrest, h⟩ := map_widen_eq_some h
    exact .number (ih h)
  | case2 least ws inner later hlater hinner ih ih' =>
    obtain ⟨hrest, h⟩ := map_widen_eq_some h
    exact .paren (ih hinner) (ih' h)
  | case4 least ws inner later hlater hinner ih ih' =>
    obtain ⟨hrest, h⟩ := map_widen_eq_some h
    exact .negate (ih hinner) (ih' h)
  | case7 least left op ws hlt =>
    cases h
    exact .stop (.cons hlt ws)
  | case8 least left op ws hge right later hlater hright ih ih' =>
    obtain ⟨hrest, h⟩ := map_widen_eq_some h
    exact .binary (Nat.le_of_not_lt hge) (ih hright) (ih' h)
  | case10 least left ws hnone =>
    cases h
    exact .stop fun op later heq => (hnone op later heq).elim
  | case3 => cases h
  | case5 => cases h
  | case6 => cases h
  | case9 => cases h

theorem Climbs.climbing_eq {least : Nat} {left : Option Expr} {ws rest : List Word} {e : Expr}
    (h : Climbs least left ws e rest) :
    ∃ hrest, climbing least left ws = some (e, ⟨rest, hrest⟩) := by
  induction h with
  | number _ ih =>
    obtain ⟨hrest, ih⟩ := ih
    rw [climbing, ih]
    exact ⟨_, rfl⟩
  | paren _ _ ih ih' =>
    obtain ⟨hlater, ih⟩ := ih
    obtain ⟨hrest, ih'⟩ := ih'
    rw [climbing, ih]
    simp only [ih']
    refine ⟨?_, rfl⟩
    rw [List.length_cons] at hlater ⊢
    omega
  | negate _ _ ih ih' =>
    obtain ⟨hlater, ih⟩ := ih
    obtain ⟨hrest, ih'⟩ := ih'
    rw [climbing, ih]
    simp only [ih']
    exact ⟨Nat.le_succ_of_le (Nat.le_trans hrest hlater), rfl⟩
  | binary hge _ _ ih ih' =>
    obtain ⟨hlater, ih⟩ := ih
    obtain ⟨hrest, ih'⟩ := ih'
    rw [climbing, if_neg (Nat.not_lt.mpr hge), ih]
    simp only [ih']
    exact ⟨Nat.le_succ_of_le (Nat.le_trans hrest hlater), rfl⟩
  | @stop least ws left hstops =>
    refine ⟨Nat.le_refl _, ?_⟩
    match ws, hstops with
    | .operator op :: ws, hstops => rw [climbing, if_pos (hstops op ws rfl)]
    | [], _ => rw [climbing]; simp
    | .number n :: ws, _ => rw [climbing]; simp
    | .opening :: ws, _ => rw [climbing]; simp
    | .closing :: ws, _ => rw [climbing]; simp

theorem group_eq_some_iff {ws : List Word} {e : Expr} :
    group ws = some e ↔ Climbs 0 none ws e [] := by
  rw [group]
  constructor
  · intro h
    split at h
    case h_1 e' _ hclimbing =>
      cases h
      exact climbs_of_climbing hclimbing
    case h_2 => cases h
  · intro h
    obtain ⟨hrest, hclimbing⟩ := h.climbing_eq
    rw [hclimbing]

def Before : Option Expr → List Word → Prop
  | none, ws => ws = []
  | some left, ws => Spells left ws

theorem Climbs.spelled {least : Nat} {left : Option Expr} {ws rest before : List Word} {e : Expr}
    (h : Climbs least left ws e rest) (hbefore : Before left before) :
    ∃ used, ws = used ++ rest ∧ Spells e (before ++ used) := by
  induction h generalizing before with
  | @number least n ws rest e _ ih =>
    obtain rfl : before = [] := hbefore
    obtain ⟨used, rfl, he⟩ := ih (.number n)
    exact ⟨.number n :: used, rfl, he⟩
  | paren _ _ ih ih' =>
    obtain rfl : before = [] := hbefore
    obtain ⟨used, rfl, hinner⟩ := ih rfl
    obtain ⟨used', rfl, he⟩ := ih' (.paren hinner)
    refine ⟨.opening :: (used ++ .closing :: used'), by simp, ?_⟩
    simpa using he
  | negate _ _ ih ih' =>
    obtain rfl : before = [] := hbefore
    obtain ⟨used, rfl, hinner⟩ := ih rfl
    obtain ⟨used', rfl, he⟩ := ih' (.negate hinner)
    refine ⟨.operator .subtract :: (used ++ used'), by simp, ?_⟩
    simpa using he
  | @binary least op ws later rest left right e _ _ _ ih ih' =>
    obtain ⟨used, rfl, hright⟩ := ih rfl
    obtain ⟨used', rfl, he⟩ := ih' (.binary op hbefore hright)
    refine ⟨.operator op :: (used ++ used'), by simp, ?_⟩
    simpa using he
  | stop _ => exact ⟨[], rfl, by rwa [List.append_nil]⟩

theorem Climbs.stops {least : Nat} {left : Option Expr} {ws rest : List Word} {e : Expr}
    (h : Climbs least left ws e rest) : Stops least rest := by
  induction h with
  | number _ ih => exact ih
  | paren _ _ _ ih => exact ih
  | negate _ _ _ ih => exact ih
  | binary _ _ _ _ ih => exact ih
  | stop hstops => exact hstops

inductive Tail : List Word → Prop
  | nil : Tail []
  | cons {e : Expr} {ws : List Word} (op : Operator) : Spells e ws → Tail (.operator op :: ws)

inductive Begun : List Word → Prop
  | number {tail : List Word} (n : Numeral) : Tail tail → Begun (.number n :: tail)
  | paren {e : Expr} {ws tail : List Word} : Spells e ws → Tail tail →
      Begun (.opening :: (ws ++ .closing :: tail))
  | negate {e : Expr} {ws : List Word} : Spells e ws → Begun (.operator .subtract :: ws)

theorem Tail.append {tail ws : List Word} {e : Expr} (h : Tail tail) (op : Operator)
    (he : Spells e ws) : Tail (tail ++ .operator op :: ws) := by
  cases h with
  | nil => exact .cons op he
  | cons op' he' => exact .cons op' (.binary op he' he)

theorem Spells.begun {e : Expr} {ws : List Word} (h : Spells e ws) : Begun ws := by
  induction h with
  | number n => exact .number n .nil
  | paren h => exact .paren h .nil
  | negate h => exact .negate h
  | binary op _ hright ih _ =>
    cases ih with
    | number n htail => exact .number n (htail.append op hright)
    | paren hinner htail =>
      rw [List.cons_append, List.append_assoc, List.cons_append]
      exact .paren hinner (htail.append op hright)
    | negate hinner => exact .negate (.binary op hinner hright)

theorem Stops.eq_nil {tail rest : List Word} (h : Stops 0 (tail ++ rest)) (htail : Tail tail) :
    tail = [] := by
  cases htail with
  | nil => rfl
  | cons op he => exact absurd (h op _ rfl) (Nat.not_lt_zero _)

theorem exists_climbs (ws rest : List Word)
    (hrest : ∀ op later, rest ≠ .operator op :: later) (least : Nat) :
    (∀ e, Spells e ws → ∃ e' tail, Climbs least none (ws ++ rest) e' (tail ++ rest) ∧
      Tail tail ∧ tail.length ≤ ws.length) ∧
    ∀ left, Tail ws → ∃ e' tail, Climbs least (some left) (ws ++ rest) e' (tail ++ rest) ∧
      Tail tail ∧ tail.length ≤ ws.length := by
  generalize hn : ws.length = n
  induction n using Nat.strong_induction_on generalizing ws rest least with
  | _ n ih =>
    refine ⟨fun e he => ?_, fun left htail => ?_⟩
    · cases he.begun with
      | @number tail k htail =>
        rw [List.length_cons] at hn
        obtain ⟨e', tail', hclimbs, htail', hle⟩ :=
          (ih tail.length (by omega) tail rest hrest least rfl).2 _ htail
        exact ⟨e', tail', .number hclimbs, htail', by omega⟩
      | @paren e v tail hv htail =>
        simp only [List.length_cons, List.length_append] at hn
        -- nothing is too loose between parentheses
        obtain ⟨inner, tail', hinner, htail', -⟩ :=
          (ih v.length (by omega) v (.closing :: (tail ++ rest)) (by simp) 0 rfl).1 e hv
        obtain rfl := hinner.stops.eq_nil htail'
        obtain ⟨e', tail', hclimbs, htail', hle⟩ :=
          (ih tail.length (by omega) tail rest hrest least rfl).2 (.paren inner) htail
        refine ⟨e', tail', .paren ?_ hclimbs, htail', by omega⟩
        simpa using hinner
      | @negate e v hv =>
        rw [List.length_cons] at hn
        obtain ⟨inner, tail, hinner, htail, hle⟩ :=
          (ih v.length (by omega) v rest hrest negationRank.rightBound rfl).1 e hv
        obtain ⟨e', tail', hclimbs, htail', hle'⟩ :=
          (ih tail.length (by omega) tail rest hrest least rfl).2 (.negate inner) htail
        exact ⟨e', tail', .negate hinner hclimbs, htail', by omega⟩
    · cases htail with
      | nil => exact ⟨left, [], .stop fun op later h => (hrest op later h).elim, .nil, by simp⟩
      | @cons e v op hv =>
        rw [List.length_cons] at hn
        by_cases hlt : op.rank.priority < least
        · exact ⟨left, .operator op :: v, .stop (.cons hlt _), .cons op hv, by simp [hn]⟩
        · obtain ⟨right, tail, hright, htail, hle⟩ :=
            (ih v.length (by omega) v rest hrest op.rank.rightBound rfl).1 e hv
          obtain ⟨e', tail', hclimbs, htail', hle'⟩ :=
            (ih tail.length (by omega) tail rest hrest least rfl).2 (.binary op left right) htail
          exact ⟨e', tail', .binary (Nat.le_of_not_lt hlt) hright hclimbs, htail', by omega⟩

theorem spells_of_group {ws : List Word} {e : Expr} (h : group ws = some e) : Spells e ws := by
  obtain ⟨used, rfl, he⟩ := (group_eq_some_iff.mp h).spelled rfl
  simpa using he

theorem exists_group_iff {ws : List Word} : (∃ e, group ws = some e) ↔ ∃ e, Spells e ws := by
  constructor
  · rintro ⟨e, he⟩
    exact ⟨e, spells_of_group he⟩
  · rintro ⟨e, he⟩
    obtain ⟨e', tail, hclimbs, htail, -⟩ := (exists_climbs ws [] (by simp) 0).1 e he
    obtain rfl := hclimbs.stops.eq_nil htail
    rw [List.append_nil] at hclimbs
    exact ⟨e', group_eq_some_iff.mpr hclimbs⟩

end TableParsing.Calculator
