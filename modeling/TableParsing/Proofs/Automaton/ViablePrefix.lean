import TableParsing.Automaton.Item
import TableParsing.Proofs.Grammar.FirstFollow

/-! Items that are valid after a prefix, with what can come next once they are completed. A
prefix is the list of the symbols read, the latest first, as they stand on a stack. Nothing
here depends on how an automaton is built: every construction is measured against it. -/

namespace TableParsing

inductive Viable (g : Grammar) : List Symbol → Item → Prop
  | start : Viable g [] (.start 0)
  | advance {γ : List Symbol} {i : Item} {x : Symbol} : Viable g γ i → i.next g = some x →
      x ≠ .terminal Symbol.endOfInput → Viable g (x :: γ) i.advance
  | expand {γ : List Symbol} {i : Item} {n p : Nat} : Viable g γ i →
      i.next g = some (.nonterminal n) → p ∈ g.productionsOf n → Viable g γ (.start p)

/-- The terminal can come next when the item, valid after the prefix, has been completed. -/
inductive Ahead (g : Grammar) : List Symbol → Item → Nat → Prop
  | advance {γ : List Symbol} {i : Item} {x : Symbol} {t : Nat} : Ahead g γ i t →
      i.next g = some x → x ≠ .terminal Symbol.endOfInput → Ahead g (x :: γ) i.advance t
  | first {γ : List Symbol} {i : Item} {n p t : Nat} : Viable g γ i →
      i.next g = some (.nonterminal n) → p ∈ g.productionsOf n →
      t ∈ (g.tail i.production (i.index + 1)).first → Ahead g γ (.start p) t
  | inherit {γ : List Symbol} {i : Item} {n p t : Nat} : Ahead g γ i t →
      i.next g = some (.nonterminal n) → p ∈ g.productionsOf n →
      (g.tail i.production (i.index + 1)).nullable = true → Ahead g γ (.start p) t

def Needed (g : Grammar) (γ : List Symbol) (n : Nat) : Prop :=
  ∃ i, Viable g γ i ∧ i.next g = some (.nonterminal n)

def Follows (g : Grammar) (γ : List Symbol) (n t : Nat) : Prop :=
  ∃ i, Viable g γ i ∧ i.next g = some (.nonterminal n) ∧
    (t ∈ (g.tail i.production (i.index + 1)).first ∨
      (g.tail i.production (i.index + 1)).nullable = true ∧ Ahead g γ i t)

/-- The items that a prefix leads to without expanding any nonterminal. -/
def Core (g : Grammar) : List Symbol → Item → Prop
  | [], i => i = .start 0
  | x :: γ, i => ∃ j, Viable g γ j ∧ j.next g = some x ∧ x ≠ .terminal Symbol.endOfInput ∧
      i = j.advance

def Begets (g : Grammar) (n m : Nat) : Prop :=
  ∃ p ∈ g.productionsOf n, (Item.start p).next g = some (.nonterminal m)

variable {g : Grammar} {γ : List Symbol} {i : Item} {x : Symbol} {n m p t : Nat}

namespace Item

def right (g : Grammar) (i : Item) : List Symbol := (g.production i.production).right.toList

theorem next_eq (i : Item) : i.next g = (i.right g)[i.index]? := by
  simp [next, right]

@[simp] theorem right_advance (i : Item) : i.advance.right g = i.right g := rfl

theorem next_mem (h : i.next g = some x) : x ∈ (g.production i.production).right := by
  rw [next] at h
  exact Array.mem_of_getElem? h

theorem take_advance (h : i.next g = some x) :
    (i.advance.right g).take i.advance.index = (i.right g).take i.index ++ [x] := by
  rw [next_eq] at h
  change (i.right g).take (i.index + 1) = _
  rw [List.take_add_one, h]
  rfl

theorem advance_ne_start (i : Item) (p : Nat) : i.advance ≠ .start p := by
  intro h
  exact Nat.succ_ne_zero _ (congrArg index h)

theorem drop_eq (h : i.next g = some x) :
    (i.right g).drop i.index = x :: (i.right g).drop (i.index + 1) := by
  rw [next_eq, List.getElem?_eq_some_iff] at h
  obtain ⟨hlt, rfl⟩ := h
  exact List.drop_eq_getElem_cons hlt

theorem next_of_drop {β : List Symbol} (h : (i.right g).drop i.index = x :: β) :
    i.next g = some x ∧ (i.advance.right g).drop i.advance.index = β := by
  have hnext : i.next g = some x := by
    rw [next_eq, ← List.head?_drop, h, List.head?_cons]
  rw [drop_eq hnext] at h
  exact ⟨hnext, (List.cons.inj h).2⟩

def completed (g : Grammar) (p : Nat) : Item := ⟨p, (g.production p).right.size⟩

@[simp] theorem next_completed : (completed g p).next g = none := by
  simp [completed, next]

theorem take_completed :
    ((completed g p).right g).take (completed g p).index = (g.production p).right.toList := by
  simp [completed, right]

theorem tail_eq (i : Item) :
    g.tail i.production (i.index + 1) = g.prefixes ((i.right g).drop (i.index + 1)) :=
  Grammar.tail_eq _ _

end Item

theorem Core.viable (h : Core g γ i) : Viable g γ i := by
  cases γ with
  | nil => exact (h : i = _) ▸ .start
  | cons x γ =>
    obtain ⟨j, hj, hx, hend, rfl⟩ := h
    exact .advance hj hx hend

theorem Needed.viable (h : Needed g γ n) (hp : p ∈ g.productionsOf n) :
    Viable g γ (.start p) := by
  obtain ⟨i, hi, hn⟩ := h
  exact .expand hi hn hp

theorem Needed.begets (h : Needed g γ n) (hm : Begets g n m) : Needed g γ m := by
  obtain ⟨p, hp, hm⟩ := hm
  exact ⟨.start p, h.viable hp, hm⟩

theorem viable_iff : Viable g γ i ↔
    Core g γ i ∨ ∃ n p, Needed g γ n ∧ p ∈ g.productionsOf n ∧ i = .start p := by
  constructor
  · intro h
    cases h with
    | start => exact Or.inl rfl
    | advance hj hx hend => exact Or.inl ⟨_, hj, hx, hend, rfl⟩
    | expand hj hn hp => exact Or.inr ⟨_, _, ⟨_, hj, hn⟩, hp, rfl⟩
  · intro h
    rcases h with h | ⟨n, p, hn, hp, rfl⟩
    · exact h.viable
    · exact hn.viable hp

theorem needed_iff : Needed g γ n ↔
    ∃ i m, Core g γ i ∧ i.next g = some (.nonterminal m) ∧
      Relation.ReflTransGen (Begets g) m n := by
  constructor
  · intro h
    obtain ⟨i, hi, hn⟩ := h
    induction hi generalizing n with
    | start => exact ⟨_, n, rfl, hn, .refl⟩
    | advance hj hx hend _ => exact ⟨_, n, ⟨_, hj, hx, hend, rfl⟩, hn, .refl⟩
    | expand _ hm hp ih =>
      obtain ⟨j, k, hj, hk, hreach⟩ := ih hm
      exact ⟨j, k, hj, hk, hreach.tail ⟨_, hp, hn⟩⟩
  · intro h
    obtain ⟨i, m, hi, hm, hreach⟩ := h
    induction hreach with
    | refl => exact ⟨i, hi.viable, hm⟩
    | tail _ hb ih => exact ih.begets hb

theorem viable_congr {δ : List Symbol} (h : ∀ i, Core g γ i ↔ Core g δ i) :
    Viable g γ i ↔ Viable g δ i := by
  have hneeded : ∀ n, Needed g γ n ↔ Needed g δ n := by
    intro n
    simp only [needed_iff, h]
  simp only [viable_iff, h, hneeded]

theorem core_cons_congr {δ : List Symbol} (h : ∀ i, Core g γ i ↔ Core g δ i) :
    Core g (x :: γ) i ↔ Core g (x :: δ) i := by
  simp only [Core, viable_congr h]

theorem Ahead.viable (h : Ahead g γ i t) : Viable g γ i := by
  induction h with
  | advance _ hx hend ih => exact .advance ih hx hend
  | first hi hn hp _ => exact .expand hi hn hp
  | inherit _ hn hp _ ih => exact .expand ih hn hp

theorem Follows.needed (h : Follows g γ n t) : Needed g γ n := by
  obtain ⟨i, hi, hn, -⟩ := h
  exact ⟨i, hi, hn⟩

theorem Follows.ahead (h : Follows g γ n t) (hp : p ∈ g.productionsOf n) :
    Ahead g γ (.start p) t := by
  obtain ⟨i, hi, hn, hfirst | ⟨hnull, hahead⟩⟩ := h
  · exact .first hi hn hp hfirst
  · exact .inherit hahead hn hp hnull

theorem ahead_start_iff : Ahead g γ (.start p) t ↔
    p < g.productions.size ∧ Follows g γ (g.production p).left t := by
  constructor
  · intro h
    generalize hi : Item.start p = i at h
    cases h with
    | advance => cases hi
    | first hj hn hp hfirst =>
      cases hi
      obtain ⟨hlt, rfl⟩ := Grammar.mem_productionsOf.mp hp
      exact ⟨hlt, _, hj, hn, Or.inl hfirst⟩
    | inherit hahead hn hp hnull =>
      cases hi
      obtain ⟨hlt, rfl⟩ := Grammar.mem_productionsOf.mp hp
      exact ⟨hlt, _, hahead.viable, hn, Or.inr ⟨hnull, hahead⟩⟩
  · intro h
    exact h.2.ahead (Grammar.mem_productionsOf.mpr ⟨h.1, rfl⟩)

theorem Viable.index_le (h : Viable g γ i) : i.index ≤ (i.right g).length := by
  cases h with
  | start => exact Nat.zero_le _
  | advance _ hx _ =>
    rw [Item.next_eq, List.getElem?_eq_some_iff] at hx
    exact hx.1
  | expand => exact Nat.zero_le _

theorem Viable.eq_completed (h : Viable g γ i) (hnext : i.next g = none) :
    i = .completed g i.production := by
  have hle := h.index_le
  rw [Item.next_eq, List.getElem?_eq_none_iff] at hnext
  have hindex : i.index = (g.production i.production).right.size := Nat.le_antisymm hle hnext
  rw [Item.completed, ← hindex]

theorem Viable.end_notMem (h : Viable g γ i) :
    .terminal Symbol.endOfInput ∉ (i.right g).take i.index := by
  induction h with
  | start => simp [Item.start]
  | advance _ hx hend ih =>
    rw [Item.take_advance hx, List.mem_append, List.mem_singleton]
    intro h
    rcases h with h | h
    · exact ih h
    · exact hend h.symm
  | expand => simp [Item.start]

theorem Viable.origin (h : Viable g γ i) :
    ∃ δ, γ = ((i.right g).take i.index).reverse ++ δ ∧ Viable g δ (.start i.production) := by
  induction h with
  | start => exact ⟨[], rfl, .start⟩
  | advance _ hx _ ih =>
    obtain ⟨δ, rfl, hδ⟩ := ih
    refine ⟨δ, ?_, hδ⟩
    rw [Item.take_advance hx, List.reverse_append]
    rfl
  | expand hi hn hp _ => exact ⟨_, rfl, .expand hi hn hp⟩

theorem ahead_advance_iff (hx : i.next g = some x) (hend : x ≠ .terminal Symbol.endOfInput) :
    Ahead g (x :: γ) i.advance t ↔ Ahead g γ i t := by
  constructor
  · intro h
    generalize hj : i.advance = j at h
    cases h with
    | @advance _ j _ _ hahead =>
      have hi : i = j := by
        cases i
        cases j
        simpa [Item.advance] using hj
      exact hi ▸ hahead
    | first => exact absurd hj (i.advance_ne_start _)
    | inherit => exact absurd hj (i.advance_ne_start _)
  · intro h
    exact .advance h hx hend

section Advancing

variable {δ : List Symbol} {k : Nat} (hk : k ≤ (g.production p).right.toList.length)
  (hend : .terminal Symbol.endOfInput ∉ (g.production p).right.toList.take k)

include hk hend

/-- A property of items that advancing keeps passes from a start item to what is before any
later dot. -/
theorem advance_take {P : List Symbol → Item → Prop} (start : P δ (.start p))
    (step : ∀ {γ : List Symbol} {i : Item} {x : Symbol}, P γ i → i.next g = some x →
      x ≠ .terminal Symbol.endOfInput → P (x :: γ) i.advance) :
    P (((g.production p).right.toList.take k).reverse ++ δ) ⟨p, k⟩ := by
  induction k with
  | zero => exact start
  | succ k ih =>
    have hlt : k < (g.production p).right.toList.length := by omega
    have hx : (⟨p, k⟩ : Item).next g = some (g.production p).right.toList[k] := by
      rw [Item.next_eq]
      exact List.getElem?_eq_getElem hlt
    have htake : (g.production p).right.toList.take (k + 1) =
        (g.production p).right.toList.take k ++ [(g.production p).right.toList[k]] :=
      Item.take_advance hx
    rw [htake] at hend ⊢
    simp only [List.mem_append, List.mem_singleton, not_or] at hend
    rw [List.reverse_append]
    exact step (ih (by omega) hend.1) hx (Ne.symm hend.2)

theorem Viable.take (h : Viable g δ (.start p)) :
    Viable g (((g.production p).right.toList.take k).reverse ++ δ) ⟨p, k⟩ :=
  advance_take hk hend h .advance

theorem Ahead.take (h : Ahead g δ (.start p) t) :
    Ahead g (((g.production p).right.toList.take k).reverse ++ δ) ⟨p, k⟩ t :=
  advance_take (P := fun γ i => Ahead g γ i t) hk hend h .advance

end Advancing

theorem Viable.needed (h : Viable g γ (.start p)) (hp : p ≠ 0) :
    Needed g γ (g.production p).left := by
  rcases viable_iff.mp h with hcore | ⟨n, q, hn, hq, hstart⟩
  · cases γ with
    | nil => exact absurd (congrArg Item.production (hcore : Item.start p = Item.start 0)) hp
    | cons x γ =>
      obtain ⟨j, -, -, -, hj⟩ := hcore
      exact absurd hj.symm (j.advance_ne_start p)
  · cases hstart
    exact (Grammar.mem_productionsOf.mp hq).2 ▸ hn

namespace Grammar.WellFormed

variable (wf : g.WellFormed)

include wf

theorem viable_lt (h : Viable g γ i) : i.production < g.productions.size := by
  induction h with
  | start => exact wf.size_pos
  | advance _ _ _ ih => exact ih
  | expand _ _ hp => exact (mem_productionsOf.mp hp).1

theorem needed_proper (h : Needed g γ n) : n ≠ Symbol.accept ∧ n < g.nonterminals.size := by
  obtain ⟨i, -, hn⟩ := h
  exact wf.nonterminal_proper (Item.next_mem hn)

theorem ne_zero_of_needed (hn : Needed g γ n) (hp : p ∈ g.productionsOf n) : p ≠ 0 := by
  intro hzero
  rw [hzero] at hp
  have hleft := (mem_productionsOf.mp hp).2
  rw [wf.accepting] at hleft
  exact (wf.needed_proper hn).1 hleft.symm

theorem end_notMem_right (hp : p ≠ 0) :
    .terminal Symbol.endOfInput ∉ (g.production p).right.toList := by
  intro h
  exact hp (wf.eq_zero_of_end_mem (Array.mem_toList_iff.mp h))

theorem ahead_completed (h : Ahead g γ (.start p) t) (hp : p ≠ 0) :
    Ahead g ((g.production p).right.toList.reverse ++ γ) (.completed g p) t := by
  have hend : .terminal Symbol.endOfInput ∉
      (g.production p).right.toList.take (g.production p).right.size := by
    intro hmem
    exact wf.end_notMem_right hp (List.mem_of_mem_take hmem)
  have htake := h.take (by simp) hend
  rwa [← Array.length_toList, List.take_length, Array.length_toList] at htake

theorem eq_nil_of_viable_zero (h : Viable g γ (.start 0)) : γ = [] := by
  rcases viable_iff.mp h with hcore | ⟨n, p, hn, hp, hzero⟩
  · cases γ with
    | nil => rfl
    | cons x γ =>
      obtain ⟨j, -, -, -, hj⟩ := hcore
      exact absurd hj.symm (j.advance_ne_start 0)
  · cases hzero
    exact absurd rfl (wf.ne_zero_of_needed hn hp)

theorem completed (h : Viable g γ (.completed g p)) :
    p ≠ 0 ∧ ∃ δ, γ = (g.production p).right.toList.reverse ++ δ ∧
      Needed g δ (g.production p).left := by
  have hp : p ≠ 0 := by
    intro hp
    have hend := h.end_notMem
    rw [Item.take_completed, hp, wf.right_zero] at hend
    simp at hend
  obtain ⟨δ, hγ, hδ⟩ := h.origin
  rw [Item.take_completed] at hγ
  exact ⟨hp, δ, hγ, hδ.needed hp⟩

theorem accepting_prefix (h : Viable g γ i)
    (hnext : i.next g = some (.terminal Symbol.endOfInput)) : γ = [.nonterminal g.start] := by
  have hp : i.production = 0 := wf.eq_zero_of_end_mem (Item.next_mem hnext)
  have hright : i.right g = [.nonterminal g.start, .terminal Symbol.endOfInput] := by
    rw [Item.right, hp, wf.right_zero]
  have hindex : i.index = 1 := by
    rw [Item.next_eq, hright] at hnext
    match hi : i.index with
    | 0 => simp [hi] at hnext
    | 1 => rfl
    | k + 2 => simp [hi] at hnext
  obtain ⟨δ, hγ, hδ⟩ := h.origin
  rw [hp] at hδ
  rw [hγ, hright, hindex, wf.eq_nil_of_viable_zero hδ]
  rfl

theorem viable_accept : Viable g [.nonterminal g.start] ⟨0, 1⟩ := by
  have hnext : (Item.start 0).next g = some (.nonterminal g.start) := by
    rw [Item.next, Item.start, wf.right_zero]
    rfl
  exact .advance .start hnext (by simp)

theorem begins_lt (h : g.Begins x t) (hx : ∀ u, x = .terminal u → u < g.terminals.size) :
    t < g.terminals.size := by
  induction h with
  | terminal t => exact hx t rfl
  | nonterminal hlead _ ih =>
    obtain ⟨p, -, α, β, hright, -⟩ := hlead
    apply ih
    intro u hu
    subst hu
    have hmem : .terminal u ∈ (g.production p).right.toList := by simp [hright]
    exact wf.terminal_lt (Array.mem_toList_iff.mp hmem)

theorem tail_first_lt (h : t ∈ (g.tail i.production (i.index + 1)).first) :
    t < g.terminals.size := by
  rw [Item.tail_eq] at h
  obtain ⟨α, x, β, hdrop, -, hbegins⟩ := wf.mem_prefixes.mp h
  refine wf.begins_lt hbegins fun u hu => ?_
  subst hu
  have hmem : .terminal u ∈ (i.right g).drop (i.index + 1) := by simp [hdrop]
  exact wf.terminal_lt (Array.mem_toList_iff.mp (List.mem_of_mem_drop hmem))

theorem ahead_lt (h : Ahead g γ i t) : t < g.terminals.size := by
  induction h with
  | advance _ _ _ ih => exact ih
  | first _ _ _ ht => exact wf.tail_first_lt ht
  | inherit _ _ _ _ ih => exact ih

theorem mem_first_drop (hx : i.next g = some x) :
    t ∈ (g.prefixes ((i.right g).drop i.index)).first ↔
      g.Begins x t ∨ g.Nullable x ∧ t ∈ (g.tail i.production (i.index + 1)).first := by
  rw [Item.drop_eq hx, wf.mem_prefixes_cons, Item.tail_eq]

theorem first_before (h : Viable g (x :: γ) i)
    (ht : t ∈ (g.prefixes ((i.right g).drop i.index)).first) :
    ∃ j, Viable g γ j ∧ j.next g = some x ∧ t ∈ (g.tail j.production (j.index + 1)).first := by
  generalize hδ : x :: γ = δ at h
  induction h with
  | start => cases hδ
  | @advance γ j y hj hy _ _ =>
    cases hδ
    refine ⟨j, hj, hy, ?_⟩
    rw [Item.tail_eq]
    exact ht
  | @expand γ j n p hj hn hp ih =>
    refine ih ?_ hδ
    obtain ⟨α, y, β, hright, hα, hbegins⟩ := wf.mem_prefixes.mp ht
    exact (wf.mem_first_drop hn).mpr (Or.inl (.nonterminal ⟨p, hp, α, β, hright, hα⟩ hbegins))

theorem occurs_of_next (hi : Viable g γ i) (hn : i.next g = some (.nonterminal n)) :
    g.Occurs (g.production i.production).left n ((i.right g).drop (i.index + 1)) := by
  refine ⟨i.production, mem_productionsOf.mpr ⟨wf.viable_lt hi, rfl⟩,
    (i.right g).take i.index, ?_⟩
  rw [← Item.drop_eq hn]
  exact (List.take_append_drop _ _).symm

theorem ahead_follow (h : Ahead g γ i t) : t ∈ g.follow (g.production i.production).left := by
  induction h with
  | advance _ _ _ ih => exact ih
  | first hi hn hp ht =>
    have hleft := (mem_productionsOf.mp hp).2
    rw [Item.tail_eq] at ht
    exact hleft ▸ wf.mem_follow_of_first (wf.occurs_of_next hi hn) ht
  | inherit hi hn hp hnull ih =>
    have hleft := (mem_productionsOf.mp hp).2
    rw [Item.tail_eq] at hnull
    exact hleft ▸ wf.follow_subset (wf.occurs_of_next hi.viable hn) hnull ih

end Grammar.WellFormed

end TableParsing
