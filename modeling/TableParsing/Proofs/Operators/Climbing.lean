import TableParsing.Precedence

/-! Precedence climbing: how operands with binary operators between them are grouped. The right
operand of an operator takes in what binds tighter than it, and what binds as tightly if its level
groups to the right; two operators of one nonassociative level cannot be grouped. What climbing
finds is the only grouping that agrees with the levels, and it fails only where two such operators
have nothing looser between them. -/

namespace TableParsing

inductive Expr (α : Type)
  | operand (a : α)
  | binary (op : α) (left right : Expr α)
  deriving DecidableEq

def Precedence.rightBound (r : Precedence) : Nat :=
  match r.assoc with
  | .left => r.priority + 1
  | .right => r.priority
  | .nonassoc => r.priority + 1

namespace Expr

variable {α : Type} (rank : α → Precedence)

/-- Whether an operator whose operands are complete is followed by one that it would have to be
grouped with. -/
def clashes (op : α) : List (α × α) → Bool
  | [] => false
  | (next, _) :: _ =>
    (rank op).assoc = .nonassoc ∧ (rank next).priority = (rank op).priority

/-- Extends a left operand by the operators of at least the given priority, each with the operand
after it. The rest of the input is not longer than the input, so that what is grouped next is
shorter. -/
def climbing (least : Nat) (left : Expr α) : (input : List (α × α)) →
    Option (Expr α × {rest : List (α × α) // rest.length ≤ input.length})
  | [] => some (left, ⟨[], Nat.le_refl 0⟩)
  | (op, a) :: input =>
    if (rank op).priority < least then some (left, ⟨(op, a) :: input, Nat.le_refl _⟩)
    else
      match climbing (rank op).rightBound (.operand a) input with
      | none => none
      | some (right, ⟨later, hlater⟩) =>
        if clashes rank op later then none
        else
          match climbing least (.binary op left right) later with
          | none => none
          | some (e, ⟨rest, hrest⟩) =>
            some (e, ⟨rest, Nat.le_succ_of_le (Nat.le_trans hrest hlater)⟩)
termination_by input => input.length
decreasing_by
  · exact Nat.lt_succ_self _
  · exact Nat.lt_succ_of_le hlater

def climb (least : Nat) (left : Expr α) (input : List (α × α)) :
    Option (Expr α × List (α × α)) :=
  (climbing rank least left input).map fun r => (r.1, r.2.1)

def group (a : α) (input : List (α × α)) : Option (Expr α) :=
  (climb rank 0 (.operand a) input).map (·.1)

section Equations

variable {rank} {least : Nat} {left : Expr α}

theorem climb_of_stops {input : List (α × α)}
    (h : ∀ next ∈ input.head?, (rank next.1).priority < least) :
    climb rank least left input = some (left, input) := by
  cases input with
  | nil => rw [climb, climbing]; rfl
  | cons next input => rw [climb, climbing, if_pos (h next rfl)]; rfl

theorem climb_cons {op a : α} {input : List (α × α)} (h : least ≤ (rank op).priority) :
    climb rank least left ((op, a) :: input) =
      (climb rank (rank op).rightBound (.operand a) input).bind fun r =>
        if clashes rank op r.2 then none else climb rank least (.binary op left r.1) r.2 := by
  rw [climb, climbing, if_neg (Nat.not_lt.mpr h), climb]
  cases climbing rank (rank op).rightBound (.operand a) input with
  | none => rfl
  | some r =>
    obtain ⟨right, later, hlater⟩ := r
    simp only [Option.map_some, Option.bind_some]
    split
    · rfl
    · rw [climb]
      cases climbing rank least (.binary op left right) later <;> rfl

end Equations

def first : Expr α → α
  | operand a => a
  | binary _ left _ => left.first

def tail : Expr α → List (α × α)
  | operand _ => []
  | binary op left right => left.tail ++ (op, right.first) :: right.tail

def root? : Expr α → Option α
  | operand _ => none
  | binary op _ _ => some op

def GroupsLeft (op next : α) : Prop :=
  (rank next).priority < (rank op).priority ∨
    (rank next).priority = (rank op).priority ∧ (rank op).assoc = .left

def GroupsRight (op next : α) : Prop :=
  (rank op).priority < (rank next).priority ∨
    (rank op).priority = (rank next).priority ∧ (rank op).assoc = .right

/-- What binds tighter is grouped first, and what binds equally tightly is grouped from the side
that its level names. -/
inductive Grouped : Expr α → Prop
  | operand (a : α) : Grouped (.operand a)
  | binary {op : α} {left right : Expr α} : Grouped left → Grouped right →
      (∀ inner ∈ left.root?, GroupsLeft rank inner op) →
      (∀ inner ∈ right.root?, GroupsRight rank op inner) → Grouped (.binary op left right)

def Closed (e : Expr α) (input : List (α × α)) : Prop :=
  ∀ op ∈ e.root?, ∀ next ∈ input.head?, GroupsLeft rank op next.1

def Within (least : Nat) (e : Expr α) : Prop := ∀ op ∈ e.root?, least ≤ (rank op).priority

variable {rank}

theorem groupsRight_iff {op next : α} :
    GroupsRight rank op next ↔ (rank op).rightBound ≤ (rank next).priority := by
  rw [GroupsRight, Precedence.rightBound]
  cases (rank op).assoc with
  | left | nonassoc => simp only [reduceCtorEq, and_false, or_false, Nat.lt_iff_add_one_le]
  | right => simp only [and_true, Nat.le_iff_lt_or_eq]

theorem groupsLeft_iff {op : α} {next : α × α} {input : List (α × α)} :
    GroupsLeft rank op next.1 ↔
      (rank next.1).priority < (rank op).rightBound ∧ clashes rank op (next :: input) = false := by
  rw [GroupsLeft, Precedence.rightBound, clashes]
  cases (rank op).assoc <;> simp <;> omega

theorem closed_binary {op : α} {left right : Expr α} {input : List (α × α)} :
    Closed rank (.binary op left right) input ↔
      (∀ next ∈ input.head?, (rank next.1).priority < (rank op).rightBound) ∧
        clashes rank op input = false := by
  cases input with
  | nil => simp [Closed, clashes]
  | cons next input => simpa [Closed, root?] using groupsLeft_iff

structure Climbed (rank : α → Precedence) (least : Nat) (left : Expr α) (input : List (α × α))
    (e : Expr α) (rest : List (α × α)) : Prop where
  suffix : rest <:+ input
  stops : ∀ next ∈ rest.head?, (rank next.1).priority < least
  first : e.first = left.first
  tail : e.tail ++ rest = left.tail ++ input
  grouped : Grouped rank left → Within rank least left → Closed rank left input →
    Grouped rank e ∧ Within rank least e

theorem climbed_of_climbing {least : Nat} {left e : Expr α} {input : List (α × α)}
    {rest : {rest : List (α × α) // rest.length ≤ input.length}}
    (h : climbing rank least left input = some (e, rest)) :
    Climbed rank least left input e rest.1 := by
  fun_induction climbing rank least left input generalizing e with
  | case1 =>
    cases h
    exact ⟨List.suffix_refl _, by simp, rfl, rfl, fun hleft hwithin _ => ⟨hleft, hwithin⟩⟩
  | case2 least left op a input hlt =>
    cases h
    exact ⟨List.suffix_refl _, by simpa using hlt, rfl, rfl,
      fun hleft hwithin _ => ⟨hleft, hwithin⟩⟩
  | case3 => cases h
  | case4 => cases h
  | case5 => cases h
  | case6 least left op a input hge right later _ hright hclash e rest _ hrest ihright ihrest =>
    cases h
    obtain ⟨hsuffix, hstops, hfirst, htail, hgrouped⟩ := ihright hright
    obtain ⟨hsuffix', hstops', hfirst', htail', hgrouped'⟩ := ihrest hrest
    refine ⟨(hsuffix'.trans hsuffix).trans (List.suffix_cons _ _), hstops', hfirst', ?_, ?_⟩
    · have hinput : right.tail ++ later = input := htail
      rw [htail', Expr.tail, hfirst, ← hinput]
      simp [Expr.first]
    · intro hleft hwithin hclosed
      obtain ⟨hgright, hwright⟩ := hgrouped (.operand a) (by simp [Within, root?])
        (by simp [Closed, root?])
      refine hgrouped' (.binary hleft hgright ?_ ?_) ?_ ?_
      · intro inner hinner
        exact hclosed inner hinner (op, a) rfl
      · intro inner hinner
        exact groupsRight_iff.mpr (hwright inner hinner)
      · simpa [Within, root?] using hge
      · exact closed_binary.mpr ⟨hstops, by simpa using hclash⟩

theorem climbed_of_climb {least : Nat} {left e : Expr α} {input rest : List (α × α)}
    (h : climb rank least left input = some (e, rest)) :
    Climbed rank least left input e rest := by
  obtain ⟨⟨e, rest⟩, hclimbing, heq⟩ := Option.map_eq_some_iff.mp h
  cases heq
  exact climbed_of_climbing hclimbing

theorem climb_zero {left e : Expr α} {input rest : List (α × α)}
    (h : climb rank 0 left input = some (e, rest)) : rest = [] := by
  cases rest with
  | nil => rfl
  | cons next rest => exact absurd ((climbed_of_climb h).stops next rfl) (Nat.not_lt_zero _)

theorem Grouped.climb_eq {e : Expr α} (h : Grouped rank e) {least : Nat} {rest : List (α × α)}
    (hwithin : Within rank least e) (hclosed : Closed rank e rest) :
    climb rank least (.operand e.first) (e.tail ++ rest) = climb rank least e rest := by
  induction h generalizing least rest with
  | operand a => rfl
  | @binary op left right hleft hright hinner hinner' ihleft ihright =>
    have hge : least ≤ (rank op).priority := hwithin op rfl
    obtain ⟨hstops, hclash⟩ := closed_binary.mp hclosed
    -- the left operand is extended up to the operator
    have hleft' : climb rank least (.operand left.first)
        (left.tail ++ (op, right.first) :: (right.tail ++ rest)) =
          climb rank least left ((op, right.first) :: (right.tail ++ rest)) := by
      refine ihleft (fun inner hroot => ?_) (fun inner hroot next hnext => ?_)
      · rcases hinner inner hroot with hlt | ⟨heq, -⟩ <;> omega
      · cases hnext
        exact hinner inner hroot
    -- the right operand ends where what comes next is too loose for it
    have hright' : climb rank (rank op).rightBound (.operand right.first) (right.tail ++ rest) =
        some (right, rest) := by
      rw [ihright, climb_of_stops hstops]
      · intro inner hroot
        exact groupsRight_iff.mp (hinner' inner hroot)
      · intro inner hroot next hnext
        have hbound := groupsRight_iff.mp (hinner' inner hroot)
        exact Or.inl (Nat.lt_of_lt_of_le (hstops next hnext) hbound)
    calc climb rank least (.operand left.first)
          ((left.tail ++ (op, right.first) :: right.tail) ++ rest)
        = climb rank least left ((op, right.first) :: (right.tail ++ rest)) := by
          rw [List.append_assoc]
          exact hleft'
      _ = climb rank least (.binary op left right) rest := by
          rw [climb_cons hge, hright', Option.bind_some, hclash, if_neg Bool.false_ne_true]

/-- Climbing returns the one expression that reads as its input and agrees with the levels. -/
theorem group_eq_some_iff {a : α} {input : List (α × α)} {e : Expr α} :
    group rank a input = some e ↔ e.first = a ∧ e.tail = input ∧ Grouped rank e := by
  constructor
  · intro h
    obtain ⟨⟨e, rest⟩, hclimb, rfl⟩ := Option.map_eq_some_iff.mp h
    obtain ⟨-, -, hfirst, htail, hgrouped⟩ := climbed_of_climb hclimb
    obtain rfl := climb_zero hclimb
    rw [List.append_nil] at htail
    refine ⟨hfirst, htail, (hgrouped (.operand a) ?_ ?_).1⟩
    · simp [Within, root?]
    · simp [Closed, root?]
  · rintro ⟨rfl, rfl, h⟩
    have hwithin : Within rank 0 e := fun op _ => Nat.zero_le _
    have hclosed : Closed rank e [] := fun op _ next hnext => by cases hnext
    rw [group, ← List.append_nil e.tail, h.climb_eq hwithin hclosed, climb_of_stops (by simp)]
    rfl

/-- Two operators of one nonassociative level have only tighter ones between them. -/
def Clashing (rank : α → Precedence) (input : List (α × α)) : Prop :=
  ∃ before op between next after, input = before ++ op :: (between ++ next :: after) ∧
    (rank op.1).assoc = .nonassoc ∧ (rank next.1).priority = (rank op.1).priority ∧
    ∀ inner ∈ between, (rank op.1).priority < (rank inner.1).priority

theorem Clashing.of_suffix {input later : List (α × α)} (h : Clashing rank later)
    (hsuffix : later <:+ input) : Clashing rank input := by
  obtain ⟨before, op, between, next, after, rfl, hclash⟩ := h
  obtain ⟨start, rfl⟩ := hsuffix
  exact ⟨start ++ before, op, between, next, after, by simp, hclash⟩

theorem Clashing.split {l r : List (α × α)} {op : α × α} (h : Clashing rank (l ++ op :: r)) :
    Clashing rank l ∨ Clashing rank r ∨
      (∃ prev ∈ l, (rank prev.1).assoc = .nonassoc ∧
        (rank prev.1).priority ≤ (rank op.1).priority) ∨
      (rank op.1).assoc = .nonassoc ∧
        ∃ next ∈ r, (rank next.1).priority = (rank op.1).priority := by
  obtain ⟨before, prev, between, next, after, heq, hassoc, hpriority, hbetween⟩ := h
  have hfirst : ∀ c, op :: r = c ++ prev :: (between ++ next :: after) → Clashing rank r ∨
      (rank op.1).assoc = .nonassoc ∧
        ∃ next ∈ r, (rank next.1).priority = (rank op.1).priority := by
    rintro (_ | ⟨_, c⟩) hc
    · obtain ⟨rfl, rfl⟩ := List.cons.inj hc
      exact Or.inr ⟨hassoc, next, by simp, hpriority⟩
    · obtain ⟨rfl, rfl⟩ := List.cons.inj hc
      exact Or.inl ⟨c, prev, between, next, after, rfl, hassoc, hpriority, hbetween⟩
  rcases List.append_eq_append_iff.mp heq with ⟨c, -, hc⟩ | ⟨_ | ⟨_, c⟩, rfl, hc⟩
  · exact Or.inr ((hfirst c hc).imp_right Or.inr)
  · exact Or.inr ((hfirst [] hc.symm).imp_right Or.inr)
  · -- the first operator of the clash is in the left part
    obtain ⟨rfl, hrest⟩ := List.cons.inj hc
    have hprev : (rank prev.1).priority ≤ (rank op.1).priority →
        ∃ p ∈ before ++ prev :: c, (rank p.1).assoc = .nonassoc ∧
          (rank p.1).priority ≤ (rank op.1).priority :=
      fun hle => ⟨prev, by simp, hassoc, hle⟩
    rcases List.append_eq_append_iff.mp hrest with ⟨_ | ⟨_, b⟩, rfl, hb⟩ | ⟨_ | ⟨_, b⟩, rfl, hb⟩
    · obtain ⟨rfl, -⟩ := List.cons.inj hb
      exact Or.inr (Or.inr (Or.inl (hprev (Nat.le_of_eq hpriority.symm))))
    · obtain ⟨rfl, -⟩ := List.cons.inj hb
      exact Or.inl ⟨before, prev, between, next, b, rfl, hassoc, hpriority, hbetween⟩
    · obtain ⟨rfl, -⟩ := List.cons.inj hb
      exact Or.inr (Or.inr (Or.inl (hprev (Nat.le_of_eq hpriority.symm))))
    · obtain ⟨rfl, -⟩ := List.cons.inj hb
      exact Or.inr (Or.inr (Or.inl (hprev (Nat.le_of_lt (hbetween op (by simp))))))

theorem exists_mem_tail {e : Expr α} {op : α} (h : op ∈ e.root?) : ∃ a, (op, a) ∈ e.tail := by
  cases e with
  | operand a => cases h
  | binary op left right =>
    cases h
    exact ⟨right.first, by simp [tail]⟩

theorem exists_root {e : Expr α} {inner : α × α} (h : inner ∈ e.tail) : ∃ op, op ∈ e.root? := by
  cases e with
  | operand a => cases h
  | binary op left right => exact ⟨op, rfl⟩

theorem Grouped.root_le {e : Expr α} (h : Grouped rank e) {op : α} (hop : op ∈ e.root?)
    {inner : α × α} (hinner : inner ∈ e.tail) : (rank op).priority ≤ (rank inner.1).priority := by
  induction h generalizing op with
  | operand a => cases hop
  | @binary op left right _ _ hleft hright ihleft ihright =>
    cases hop
    rcases List.mem_append.mp hinner with hinner | hinner
    · obtain ⟨root, hroot⟩ := exists_root hinner
      have hle := ihleft hroot hinner
      rcases hleft root hroot with hlt | ⟨heq, -⟩ <;> omega
    rcases List.mem_cons.mp hinner with rfl | hinner
    · exact Nat.le_refl _
    · obtain ⟨root, hroot⟩ := exists_root hinner
      have hle := ihright hroot hinner
      rcases hright root hroot with hlt | ⟨heq, -⟩ <;> omega

theorem Grouped.not_clashing {e : Expr α} (h : Grouped rank e)
    (hassoc : ∀ op ∈ e.tail, ∀ next ∈ e.tail,
      (rank op.1).priority = (rank next.1).priority → (rank op.1).assoc = (rank next.1).assoc) :
    ¬ Clashing rank e.tail := by
  induction h with
  | operand a =>
    rintro ⟨before, op, between, next, after, heq, -⟩
    simp [tail] at heq
  | @binary op left right hgleft hgright hleft hright ihleft ihright =>
    intro hclash
    rcases hclash.split with hclash | hclash | ⟨prev, hprev, hnonassoc, hle⟩ |
      ⟨hnonassoc, next, hnext, heq⟩
    · refine ihleft (fun op hop next hnext => hassoc op ?_ next ?_) hclash
      · exact List.mem_append_left _ hop
      · exact List.mem_append_left _ hnext
    · refine ihright (fun op hop next hnext => hassoc op ?_ next ?_) hclash
      · exact List.mem_append_right _ (List.mem_cons_of_mem _ hop)
      · exact List.mem_append_right _ (List.mem_cons_of_mem _ hnext)
    · -- the left operand groups to the left, and its loosest operator has the level of the clash
      obtain ⟨root, hroot⟩ := exists_root hprev
      obtain ⟨a, ha⟩ := exists_mem_tail hroot
      have hroot_le := hgleft.root_le hroot hprev
      have hle' : (rank prev.1).priority ≤ (rank op).priority := hle
      rcases hleft root hroot with hlt | ⟨heq, hl⟩
      · omega
      · have hsame := hassoc (root, a) (List.mem_append_left _ ha) prev
          (List.mem_append_left _ hprev) (by dsimp only; omega)
        rw [hl, hnonassoc] at hsame
        cases hsame
    · obtain ⟨root, hroot⟩ := exists_root hnext
      have hroot_le := hgright.root_le hroot hnext
      have heq' : (rank next.1).priority = (rank op).priority := heq
      rcases hright root hroot with hlt | ⟨-, hr⟩
      · omega
      · rw [hr] at hnonassoc
        cases hnonassoc

theorem clashing_of_climbing {least : Nat} {left : Expr α} {input : List (α × α)}
    (h : climbing rank least left input = none) : Clashing rank input := by
  fun_induction climbing rank least left input with
  | case1 => cases h
  | case2 => cases h
  | case3 least left op a input _ hright ih =>
    exact (ih hright).of_suffix (List.suffix_cons _ _)
  | case4 least left op a input _ right later hlater hright hclash ih =>
    -- all operators of the right operand are tighter
    obtain ⟨hsuffix, hstops, hfirst, htail, hgrouped⟩ := climbed_of_climbing hright
    obtain ⟨hgright, hwithin⟩ := hgrouped (.operand a) (by simp [Within, root?])
      (by simp [Closed, root?])
    cases later with
    | nil => cases hclash
    | cons next later =>
      simp only [clashes, decide_eq_true_eq] at hclash
      obtain ⟨hnonassoc, hpriority⟩ := hclash
      refine ⟨[], (op, a), right.tail, next, later, ?_, hnonassoc, hpriority, ?_⟩
      · rw [htail]
        rfl
      · intro inner hinner
        obtain ⟨root, hroot⟩ := exists_root hinner
        have hle := hgright.root_le hroot hinner
        have hbound := hwithin root hroot
        rw [Precedence.rightBound, hnonassoc] at hbound
        dsimp only at hbound ⊢
        omega
  | case5 least left op a input _ right later _ hright _ hrest _ ih =>
    have hsuffix := (climbed_of_climbing hright).suffix
    exact (ih hrest).of_suffix (hsuffix.trans (List.suffix_cons _ _))
  | case6 => cases h

/-- Climbing fails if and only if it meets two operators of one nonassociative level. -/
theorem group_eq_none_iff {a : α} {input : List (α × α)}
    (hassoc : ∀ op ∈ input, ∀ next ∈ input,
      (rank op.1).priority = (rank next.1).priority → (rank op.1).assoc = (rank next.1).assoc) :
    group rank a input = none ↔ Clashing rank input := by
  constructor
  · intro h
    rw [group, Option.map_eq_none_iff, climb, Option.map_eq_none_iff] at h
    exact clashing_of_climbing h
  · intro hclash
    rw [Option.eq_none_iff_forall_ne_some]
    intro e he
    obtain ⟨-, rfl, hgrouped⟩ := group_eq_some_iff.mp he
    exact hgrouped.not_clashing hassoc hclash

end Expr

end TableParsing
