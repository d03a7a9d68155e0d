import TableParsing.Automaton.Canonical
import TableParsing.Proofs.Automaton.LR0
import TableParsing.Proofs.Grammar.ExactSets

/-! The closure of a kernel of LR(1) items. What a round adds follows from what was there before,
and a round that changes nothing leaves nothing to add: so a closure whose rounds have come to an
end is the least map that has the kernel and all that its items give. The rounds come to an end,
since each but the last adds an item, or a terminal to one, and there are finitely many of both. -/

namespace TableParsing.Canonical

variable {g : Grammar} {k : Kernel} {items : List (Item × TerminalSet)} {e : Expansion}

def Holds (items : List (Item × TerminalSet)) (i : Item) (t : Nat) : Prop :=
  ∃ lookaheads, (i, lookaheads) ∈ items ∧ t ∈ lookaheads

section Extend

variable {i j : Item} {added : TerminalSet} {t : Nat}

theorem mem_keys : i ∈ items.map (·.1) ↔ ∃ lookaheads, (i, lookaheads) ∈ items := by simp

theorem Holds.mem_keys (h : Holds items i t) : i ∈ items.map (·.1) := by
  obtain ⟨l, hl, -⟩ := h
  exact List.mem_map_of_mem hl

theorem holds_iff_mem (hn : (items.map (·.1)).Nodup) {lookaheads : TerminalSet}
    (hi : (i, lookaheads) ∈ items) : Holds items i t ↔ t ∈ lookaheads := by
  constructor
  · rintro ⟨l, hl, ht⟩
    cases List.inj_on_of_nodup_map hn hl hi rfl
    exact ht
  · intro ht
    exact ⟨lookaheads, hi, ht⟩

theorem holds_cons {known : TerminalSet} :
    Holds ((j, known) :: items) i t ↔ i = j ∧ t ∈ known ∨ Holds items i t := by
  simp only [Holds, List.mem_cons, Prod.mk.injEq, or_and_right, exists_or, and_assoc,
    exists_and_left, exists_eq_left]

theorem keys_extend : (extend i added items).map (·.1) =
    if i ∈ items.map (·.1) then items.map (·.1) else items.map (·.1) ++ [i] := by
  induction items with
  | nil => simp [extend]
  | cons e items ih =>
    obtain ⟨j, known⟩ := e
    rw [extend]
    by_cases hj : j = i
    · simp [hj]
    · simp only [hj, if_false, List.map_cons, ih, List.mem_cons, Ne.symm hj, false_or]
      split <;> rfl

theorem mem_keys_extend :
    j ∈ (extend i added items).map (·.1) ↔ j ∈ items.map (·.1) ∨ j = i := by
  rw [keys_extend]
  split
  case isTrue hi =>
    refine (or_iff_left_of_imp fun hj => ?_).symm
    rwa [hj]
  case isFalse => rw [List.mem_append, List.mem_singleton]

theorem nodup_extend (h : (items.map (·.1)).Nodup) :
    ((extend i added items).map (·.1)).Nodup := by
  rw [keys_extend]
  split
  case isTrue => exact h
  case isFalse hi =>
    refine List.nodup_append.mpr ⟨h, List.nodup_singleton i, fun j hj j' hj' heq => hi ?_⟩
    rwa [← List.mem_singleton.mp hj', ← heq]

theorem holds_extend :
    Holds (extend i added items) j t ↔ Holds items j t ∨ j = i ∧ t ∈ added := by
  induction items with
  | nil => simp [extend, Holds]
  | cons e items ih =>
    obtain ⟨k, known⟩ := e
    rw [extend]
    split
    case isTrue hk =>
      rw [holds_cons, holds_cons, TerminalSet.mem_union, hk]
      tauto
    case isFalse => rw [holds_cons, holds_cons, ih, or_assoc]

end Extend

def facts (items : List (Item × TerminalSet)) : Finset (Item × Option Nat) :=
  (items.flatMap fun e => (e.1, none) :: e.2.toList.map fun t => (e.1, some t)).toFinset

theorem none_mem_facts {i : Item} : (i, none) ∈ facts items ↔ i ∈ items.map (·.1) := by
  simp [facts, eq_comm]

theorem some_mem_facts {i : Item} {t : Nat} : (i, some t) ∈ facts items ↔ Holds items i t := by
  simp [facts, Holds, TerminalSet.mem_toList]

theorem facts_subset_iff {items' : List (Item × TerminalSet)} : facts items ⊆ facts items' ↔
    (∀ i, i ∈ items.map (·.1) → i ∈ items'.map (·.1)) ∧
      ∀ i t, Holds items i t → Holds items' i t := by
  simp only [← none_mem_facts, ← some_mem_facts]
  constructor
  · intro h
    exact ⟨fun i hi => h hi, fun i t ht => h ht⟩
  · rintro ⟨hkeys, hholds⟩ ⟨i, _ | t⟩ hf
    · exact hkeys i hf
    · exact hholds i t hf

structure Grows (e e' : Expansion) : Prop where
  keep : facts e.items ⊆ facts e'.items
  nodup : (e.items.map (·.1)).Nodup → (e'.items.map (·.1)).Nodup
  changed : (e.items.map (·.1)).Nodup → e'.changed = true →
    e.changed = true ∨ facts e.items ⊂ facts e'.items

theorem Grows.refl (e : Expansion) : Grows e e := ⟨subset_rfl, id, fun _ => Or.inl⟩

theorem Grows.trans {e e' e'' : Expansion} (h : Grows e e') (h' : Grows e' e'') : Grows e e'' := by
  refine ⟨h.keep.trans h'.keep, fun hn => h'.nodup (h.nodup hn), fun hn hc => ?_⟩
  rcases h'.changed (h.nodup hn) hc with hc | hnew
  · rcases h.changed hn hc with hc | hnew
    · exact Or.inl hc
    · exact Or.inr (hnew.trans_subset h'.keep)
  · exact Or.inr (h.keep.trans_ssubset hnew)

theorem Grows.foldl {α : Type} {step : Expansion → α → Expansion}
    (h : ∀ e a, Grows e (step e a)) (l : List α) (e : Expansion) : Grows e (l.foldl step e) := by
  induction l generalizing e with
  | nil => exact .refl e
  | cons a l ih => exact (h e a).trans (ih (step e a))

theorem foldl_unchanged {α : Type} {step : Expansion → α → Expansion} {P : Expansion → α → Prop}
    (h : ∀ e a, (step e a).changed = false → step e a = e ∧ P e a) {l : List α}
    (hl : (l.foldl step e).changed = false) : l.foldl step e = e ∧ ∀ a ∈ l, P e a := by
  induction l generalizing e with
  | nil => exact ⟨rfl, fun a ha => absurd ha List.not_mem_nil⟩
  | cons a l ih =>
    rw [List.foldl_cons] at hl ⊢
    obtain ⟨heq, hrest⟩ := ih hl
    rw [heq] at hl
    obtain ⟨hstep, ha⟩ := h e a hl
    rw [hstep] at hrest
    exact ⟨heq.trans hstep, List.forall_mem_cons.mpr ⟨ha, hrest⟩⟩

def Supplied (items : List (Item × TerminalSet)) (i : Item) (added : TerminalSet) : Prop :=
  ∃ known, (i, known) ∈ items ∧ ∀ t ∈ added, t ∈ known

section Give

variable {i : Item} {added : TerminalSet}

theorem give_eq (e : Expansion) (i : Item) (added : TerminalSet) :
    Supplied e.items i added ∧ e.give added i = e ∨
      ¬ Supplied e.items i added ∧ e.give added i = ⟨extend i added e.items, true⟩ := by
  have hany : (e.items.any fun x => x.1 == i && added.isSubset x.2) = true ↔
      Supplied e.items i added := by
    simp [Supplied, TerminalSet.isSubset_iff]
  rw [Expansion.give, ← hany]
  split
  case isTrue h => exact Or.inl ⟨h, rfl⟩
  case isFalse h => exact Or.inr ⟨h, rfl⟩

theorem give_unchanged (h : (e.give added i).changed = false) :
    e.give added i = e ∧ Supplied e.items i added := by
  rcases give_eq e i added with ⟨hs, heq⟩ | ⟨-, heq⟩
  · exact ⟨heq, hs⟩
  · rw [heq] at h
    cases h

theorem give_grows (e : Expansion) (i : Item) : Grows e (e.give added i) := by
  rcases give_eq e i added with ⟨-, heq⟩ | ⟨hs, heq⟩
  · rw [heq]
    exact .refl e
  · rw [heq]
    have keep : facts e.items ⊆ facts (extend i added e.items) := by
      refine facts_subset_iff.mpr ⟨fun j hj => ?_, fun j t ht => ?_⟩
      · exact mem_keys_extend.mpr (Or.inl hj)
      · exact holds_extend.mpr (Or.inl ht)
    refine ⟨keep, nodup_extend, fun hn _ => Or.inr ⟨keep, fun hsub => hs ?_⟩⟩
    -- were nothing new, the item would have had all that it is given
    obtain ⟨hkeys, hholds⟩ := facts_subset_iff.mp hsub
    obtain ⟨known, hknown⟩ := mem_keys.mp (hkeys i (mem_keys_extend.mpr (Or.inr rfl)))
    refine ⟨known, hknown, fun t ht => (holds_iff_mem hn hknown).mp ?_⟩
    exact hholds i t (holds_extend.mpr (Or.inr ⟨rfl, ht⟩))

end Give

inductive Brought (g : Grammar) (k : Kernel) : Item → Prop
  | kernel {i : Item} : i ∈ k.map (·.1) → Brought g k i
  | start {i : Item} {n p : Nat} : Brought g k i → i.next g = some (.nonterminal n) →
      p ∈ g.productionsOf n → Brought g k (.start p)

/-- The terminal is in the look-ahead set of the item in the closure of the kernel. -/
inductive Sees (g : Grammar) (k : Kernel) : Item → Nat → Prop
  | kernel {i : Item} {t : Nat} : Holds k i t → Sees g k i t
  | first {i : Item} {n p t : Nat} : Brought g k i → i.next g = some (.nonterminal n) →
      p ∈ g.productionsOf n → t ∈ (g.tail i.production (i.index + 1)).first →
      Sees g k (.start p) t
  | inherit {i : Item} {n p t : Nat} : Sees g k i t → i.next g = some (.nonterminal n) →
      p ∈ g.productionsOf n → (g.tail i.production (i.index + 1)).nullable = true →
      Sees g k (.start p) t

theorem contribution_eq_some {x : Item × TerminalSet} {n : Nat} {added : TerminalSet} :
    contribution g x = some (n, added) → x.1.next g = some (.nonterminal n) ∧
      ∀ t, t ∈ added ↔ t ∈ (g.tail x.1.production (x.1.index + 1)).first ∨
        (g.tail x.1.production (x.1.index + 1)).nullable = true ∧ t ∈ x.2 := by
  intro h
  obtain ⟨m, hm, heq⟩ := Option.map_eq_some_iff.mp h
  cases heq
  refine ⟨Item.nextNonterminal_eq_some.mp hm, fun t => ?_⟩
  split
  case isTrue hnull => simp [TerminalSet.mem_union, hnull]
  case isFalse hnull => simp [hnull]

theorem exists_contribution {x : Item × TerminalSet} {n : Nat}
    (h : x.1.next g = some (.nonterminal n)) :
    ∃ added, contribution g x = some (n, added) := by
  have hn := Item.nextNonterminal_eq_some.mpr h
  exact ⟨_, by rw [contribution, hn]; rfl⟩

/-- The terminal can come first where the symbols are followed by one of the set: it begins a
form that they derive, or they derive nothing and the set has it. -/
def FirstOf (g : Grammar) (β : List Symbol) (lookaheads : TerminalSet) (t : Nat) : Prop :=
  (∃ δ, g.Derives β (.terminal t :: δ)) ∨ g.Derives β [] ∧ t ∈ lookaheads

/-- For every item the start items of the nonterminal after its dot are there too, with all that
can come first behind that nonterminal. -/
def Closed (g : Grammar) (items : List (Item × TerminalSet)) : Prop :=
  ∀ i lookaheads, (i, lookaheads) ∈ items → ∀ n, i.next g = some (.nonterminal n) →
    ∀ p ∈ g.productionsOf n, ∃ known, (.start p, known) ∈ items ∧
      ∀ t, FirstOf g ((i.right g).drop (i.index + 1)) lookaheads t → t ∈ known

theorem firstOf_iff (wf : g.WellFormed) {i : Item} {lookaheads : TerminalSet} {t : Nat} :
    FirstOf g ((i.right g).drop (i.index + 1)) lookaheads t ↔
      t ∈ (g.tail i.production (i.index + 1)).first ∨
        (g.tail i.production (i.index + 1)).nullable = true ∧ t ∈ lookaheads := by
  rw [Item.tail_eq, wf.mem_prefixes_iff_derives, wf.nullable_prefixes_iff_derives, FirstOf]

structure Sound (g : Grammar) (k : Kernel) (items : List (Item × TerminalSet)) : Prop where
  nodup : (items.map (·.1)).Nodup
  brought : ∀ i ∈ items.map (·.1), Brought g k i
  sees : ∀ i t, Holds items i t → Sees g k i t

namespace Sound

theorem kernel (hk : (k.map (·.1)).Nodup) : Sound g k k :=
  ⟨hk, fun _ => .kernel, fun _ _ => .kernel⟩

theorem give (h : Sound g k e.items) {i : Item} {added : TerminalSet} (hi : Brought g k i)
    (ht : ∀ t ∈ added, Sees g k i t) : Sound g k (e.give added i).items := by
  rcases give_eq e i added with ⟨-, heq⟩ | ⟨-, heq⟩
  · rw [heq]
    exact h
  · rw [heq]
    refine ⟨nodup_extend h.nodup, fun j hj => ?_, fun j t hj => ?_⟩
    · rcases mem_keys_extend.mp hj with hj | rfl
      · exact h.brought j hj
      · exact hi
    · rcases holds_extend.mp hj with hj | ⟨rfl, hadded⟩
      · exact h.sees j t hj
      · exact ht t hadded

variable (wf : g.WellFormed)

include wf

theorem visit (h : Sound g k e.items) (m : Nat) :
    Sound g k (e.visit g (StartItems.ofGrammar g) m).items := by
  rw [Expansion.visit]
  split
  case h_2 => exact h
  case h_1 n added heq =>
    obtain ⟨x, hx, hcontribution⟩ := Option.bind_eq_some_iff.mp heq
    obtain ⟨hnext, hadded⟩ := contribution_eq_some hcontribution
    have hmem := List.mem_of_getElem? hx
    have hbrought := h.brought x.1 (List.mem_map_of_mem hmem)
    rw [StartItems.of_eq wf]
    refine List.foldlRecOn (motive := fun e : Expansion => Sound g k e.items) _ _ h
      fun e he i hi => ?_
    obtain ⟨p, hp, rfl⟩ := List.mem_map.mp hi
    refine he.give (.start hbrought hnext hp) fun t ht => ?_
    rcases (hadded t).mp ht with hfirst | ⟨hnull, ht⟩
    · exact .first hbrought hnext hp hfirst
    · exact .inherit (h.sees x.1 t ⟨x.2, hmem, ht⟩) hnext hp hnull

theorem round (h : Sound g k items) :
    Sound g k (Canonical.round g (StartItems.ofGrammar g) items).items :=
  List.foldlRecOn (motive := fun e : Expansion => Sound g k e.items) _ _ h
    fun _ he m _ => he.visit wf m

end Sound

section Rounds

variable {starts : StartItems}

theorem visit_grows (e : Expansion) (m : Nat) : Grows e (e.visit g starts m) := by
  rw [Expansion.visit]
  split
  case h_1 n added _ => exact .foldl give_grows (starts.of n) e
  case h_2 => exact .refl e

theorem round_grows (g : Grammar) (starts : StartItems) (items : List (Item × TerminalSet)) :
    Grows ⟨items, false⟩ (round g starts items) := .foldl visit_grows _ _

theorem round_changed (hn : (items.map (·.1)).Nodup) (h : (round g starts items).changed = true) :
    facts items ⊂ facts (round g starts items).items :=
  ((round_grows g starts items).changed hn h).resolve_left (by simp)

theorem visit_unchanged {m : Nat} (h : (e.visit g starts m).changed = false) :
    e.visit g starts m = e ∧ ∀ x, e.items[m]? = some x → ∀ n added,
      contribution g x = some (n, added) → ∀ i ∈ starts.of n, Supplied e.items i added := by
  rw [Expansion.visit] at h ⊢
  split at h
  case h_1 n added heq =>
    obtain ⟨hsame, hall⟩ := foldl_unchanged (P := fun e i => Supplied e.items i added)
      (fun e i => give_unchanged) h
    refine ⟨hsame, fun x hx n' added' hx' => ?_⟩
    rw [hx, Option.bind_some, hx'] at heq
    cases heq
    exact hall
  case h_2 hnone =>
    refine ⟨rfl, fun x hx n added hx' => ?_⟩
    rw [hx, Option.bind_some, hx'] at hnone
    cases hnone

end Rounds

theorem round_unchanged (wf : g.WellFormed)
    (h : (round g (StartItems.ofGrammar g) items).changed = false) :
    (round g (StartItems.ofGrammar g) items).items = items ∧ Closed g items := by
  obtain ⟨heq, hall⟩ := foldl_unchanged (fun e m => visit_unchanged) h
  refine ⟨congrArg Expansion.items heq, fun i lookaheads hi n hnext p hp => ?_⟩
  obtain ⟨m, hm⟩ := List.mem_iff_getElem?.mp hi
  have hlt := (List.getElem?_eq_some_iff.mp hm).1
  obtain ⟨added, hadded⟩ := exists_contribution (x := (i, lookaheads)) hnext
  have hstart : Item.start p ∈ (StartItems.ofGrammar g).of n := by
    rw [StartItems.of_eq wf]
    exact List.mem_map_of_mem hp
  obtain ⟨known, hknown, hmem⟩ :=
    hall m (List.mem_range.mpr hlt) (i, lookaheads) hm n added hadded (.start p) hstart
  refine ⟨known, hknown, fun t ht => hmem t ?_⟩
  exact ((contribution_eq_some hadded).2 t).mpr ((firstOf_iff wf).mp ht)

def itemsAfter (g : Grammar) (items : List (Item × TerminalSet)) (n : Nat) :
    List (Item × TerminalSet) :=
  (fun items => (round g (StartItems.ofGrammar g) items).items)^[n] items

structure EndsAfter (g : Grammar) (items : List (Item × TerminalSet)) (n : Nat) : Prop where
  changing : ∀ m, m < n → (round g (StartItems.ofGrammar g) (itemsAfter g items m)).changed = true
  unchanged : (round g (StartItems.ofGrammar g) (itemsAfter g items n)).changed = false

theorem EndsAfter.zero (h : (round g (StartItems.ofGrammar g) items).changed = false) :
    EndsAfter g items 0 :=
  ⟨fun m hm => absurd hm (Nat.not_lt_zero m), h⟩

theorem EndsAfter.succ {n : Nat} (h : (round g (StartItems.ofGrammar g) items).changed = true)
    (hn : EndsAfter g (round g (StartItems.ofGrammar g) items).items n) :
    EndsAfter g items (n + 1) := by
  refine ⟨fun m hm => ?_, hn.unchanged⟩
  cases m with
  | zero => exact h
  | succ m => exact hn.changing m (by omega)

theorem Brought.eq_start {i : Item} (h : Brought g k i) :
    i ∈ k.map (·.1) ∨ ∃ p, p < g.productions.size ∧ Item.start p = i := by
  cases h with
  | kernel hi => exact Or.inl hi
  | start _ _ hp => exact Or.inr ⟨_, (Grammar.mem_productionsOf.mp hp).1, rfl⟩

theorem Sees.brought {i : Item} {t : Nat} (h : Sees g k i t) : Brought g k i := by
  induction h with
  | kernel ht => exact .kernel ht.mem_keys
  | first hi hnext hp _ => exact .start hi hnext hp
  | inherit _ hnext hp _ ih => exact .start ih hnext hp

theorem foldl_max_width (k : Kernel) (w : Nat) : w ≤ k.foldl (fun w e => max w e.2.width) w ∧
    ∀ e ∈ k, e.2.width ≤ k.foldl (fun w e => max w e.2.width) w := by
  induction k generalizing w with
  | nil => simp
  | cons e k ih =>
    obtain ⟨hle, hall⟩ := ih (max w e.2.width)
    rw [List.foldl_cons, List.forall_mem_cons]
    exact ⟨by omega, by omega, hall⟩

section Mono

variable {k' : Kernel} (hkeys : ∀ i, i ∈ k.map (·.1) → i ∈ k'.map (·.1)) {i : Item} {t : Nat}

include hkeys

theorem Brought.mono (h : Brought g k i) : Brought g k' i := by
  induction h with
  | kernel hi => exact .kernel (hkeys _ hi)
  | start _ hnext hp ih => exact .start ih hnext hp

theorem Sees.mono (hholds : ∀ i t, Holds k i t → Holds k' i t) (h : Sees g k i t) :
    Sees g k' i t := by
  induction h with
  | kernel ht => exact .kernel (hholds _ _ ht)
  | first hi hnext hp ht => exact .first (hi.mono hkeys) hnext hp ht
  | inherit _ hnext hp hnull ih => exact .inherit ih hnext hp hnull

end Mono

theorem Sees.lt_width (wf : g.WellFormed) {i : Item} {t : Nat} (h : Sees g k i t) :
    t < width g k := by
  obtain ⟨hterminals, hkernel⟩ := foldl_max_width k g.terminals.size
  induction h with
  | kernel ht =>
    obtain ⟨l, hl, ht⟩ := ht
    exact Nat.lt_of_lt_of_le (TerminalSet.lt_width ht) (hkernel _ hl)
  | first _ _ _ ht => exact Nat.lt_of_lt_of_le (wf.tail_first_lt ht) hterminals
  | inherit _ _ _ _ ih => exact ih

def possible (g : Grammar) (k : Kernel) : Finset (Item × Option Nat) :=
  ((k.map (·.1)).toFinset ∪ (Finset.range g.productions.size).image Item.start) ×ˢ
    Finset.insertNone (Finset.range (width g k))

theorem card_possible_lt (g : Grammar) (k : Kernel) : (possible g k).card < rounds g k := by
  have hkernel := (k.map (·.1)).toFinset_card_le
  have hstarts := Finset.card_image_le (s := Finset.range g.productions.size) (f := Item.start)
  rw [List.length_map] at hkernel
  rw [Finset.card_range] at hstarts
  have hunion := Finset.card_union_le (k.map (·.1)).toFinset
    ((Finset.range g.productions.size).image Item.start)
  rw [possible, Finset.card_product, Finset.card_insertNone, Finset.card_range, rounds,
    Nat.lt_succ_iff]
  exact Nat.mul_le_mul_right _ (by omega)

theorem Sound.facts_subset (wf : g.WellFormed) (h : Sound g k items) :
    facts items ⊆ possible g k := by
  have hitem : ∀ i, Brought g k i →
      i ∈ (k.map (·.1)).toFinset ∪ (Finset.range g.productions.size).image Item.start := by
    intro i hi
    simpa using hi.eq_start
  rintro ⟨i, _ | t⟩ hf
  · have hi := h.brought i (none_mem_facts.mp hf)
    exact Finset.mem_product.mpr ⟨hitem i hi, Finset.none_mem_insertNone⟩
  · have ht := h.sees i t (some_mem_facts.mp hf)
    refine Finset.mem_product.mpr ⟨hitem i ht.brought, Finset.some_mem_insertNone.mpr ?_⟩
    exact Finset.mem_range.mpr (ht.lt_width wf)

theorem settle_succ (starts : StartItems) (fuel : Nat) : settle g starts (fuel + 1) items =
    if (round g starts items).changed then settle g starts fuel (round g starts items).items
    else (round g starts items).items := by
  rw [settle]
  cases round g starts items with
  | mk items changed => cases changed <;> rfl

/-- The fuel does not run out: the rounds that change something add to what is there, and there
is less to add than the fuel allows. -/
theorem settle_ends (wf : g.WellFormed) {fuel : Nat} (h : Sound g k items)
    (enough : (possible g k).card < fuel + (facts items).card) :
    ∃ n, EndsAfter g items n ∧
      settle g (StartItems.ofGrammar g) fuel items = itemsAfter g items n := by
  induction fuel generalizing items with
  | zero =>
    have hcard := Finset.card_le_card (h.facts_subset wf)
    omega
  | succ fuel ih =>
    have hsound := h.round wf
    cases hround : (round g (StartItems.ofGrammar g) items).changed with
    | true =>
      have hcard := Finset.card_lt_card (round_changed h.nodup hround)
      obtain ⟨n, hn, hsettle⟩ := ih hsound (by omega)
      refine ⟨n + 1, hn.succ hround, ?_⟩
      rw [settle_succ, if_pos hround, hsettle]
      rfl
    | false =>
      refine ⟨0, .zero hround, ?_⟩
      rw [settle_succ, hround, (round_unchanged wf hround).1]
      rfl

section Least

variable {m : List (Item × TerminalSet)} (hclosed : Closed g m) (hkernel : facts k ⊆ facts m)

include hclosed hkernel

theorem Brought.mem_of_closed {i : Item} (h : Brought g k i) : i ∈ m.map (·.1) := by
  induction h with
  | kernel hi => exact (facts_subset_iff.mp hkernel).1 _ hi
  | start _ hnext hp ih =>
    obtain ⟨l, hl⟩ := mem_keys.mp ih
    obtain ⟨known, hknown, -⟩ := hclosed _ l hl _ hnext _ hp
    exact List.mem_map_of_mem hknown

theorem Sees.holds_of_closed (wf : g.WellFormed) {i : Item} {t : Nat} (h : Sees g k i t) :
    Holds m i t := by
  induction h with
  | kernel ht => exact (facts_subset_iff.mp hkernel).2 _ _ ht
  | first hi hnext hp ht =>
    obtain ⟨l, hl⟩ := mem_keys.mp (hi.mem_of_closed hclosed hkernel)
    obtain ⟨known, hknown, hall⟩ := hclosed _ l hl _ hnext _ hp
    exact ⟨known, hknown, hall _ ((firstOf_iff wf).mpr (Or.inl ht))⟩
  | inherit _ hnext hp hnull ih =>
    obtain ⟨l, hl, ht⟩ := ih
    obtain ⟨known, hknown, hall⟩ := hclosed _ l hl _ hnext _ hp
    exact ⟨known, hknown, hall _ ((firstOf_iff wf).mpr (Or.inr ⟨hnull, ht⟩))⟩

end Least

/-- Exactly the items and terminals that the kernel brings, each item once. -/
structure IsClosure (g : Grammar) (k : Kernel) (items : List (Item × TerminalSet)) : Prop where
  nodup : (items.map (·.1)).Nodup
  mem_iff : ∀ i, i ∈ items.map (·.1) ↔ Brought g k i
  holds_iff : ∀ i t, Holds items i t ↔ Sees g k i t

theorem IsClosure.mem_set_iff (h : IsClosure g k items) {i : Item} {lookaheads : TerminalSet}
    (hi : (i, lookaheads) ∈ items) {t : Nat} : t ∈ lookaheads ↔ Sees g k i t := by
  rw [← h.holds_iff, holds_iff_mem h.nodup hi]

theorem itemsAfter_keeps (n : Nat) : facts items ⊆ facts (itemsAfter g items n) := by
  induction n generalizing items with
  | zero => exact subset_rfl
  | succ n ih => exact (round_grows g _ items).keep.trans ih

theorem Sound.itemsAfter (wf : g.WellFormed) (h : Sound g k items) (n : Nat) :
    Sound g k (itemsAfter g items n) := by
  induction n generalizing items with
  | zero => exact h
  | succ n ih => exact ih (h.round wf)

section Closure

variable (wf : g.WellFormed) (hk : (k.map (·.1)).Nodup)

include wf hk

theorem closure_ends : ∃ n, EndsAfter g k n ∧
    closure g (StartItems.ofGrammar g) k = itemsAfter g k n := by
  refine settle_ends wf (.kernel hk) ?_
  have hcard := card_possible_lt g k
  omega

theorem closure_closed : Sound g k (closure g (StartItems.ofGrammar g) k) ∧
    facts k ⊆ facts (closure g (StartItems.ofGrammar g) k) ∧
    Closed g (closure g (StartItems.ofGrammar g) k) := by
  obtain ⟨n, hn, heq⟩ := closure_ends wf hk
  rw [heq]
  exact ⟨(Sound.kernel hk).itemsAfter wf n, itemsAfter_keeps n,
    (round_unchanged wf hn.unchanged).2⟩

theorem closure_isClosure : IsClosure g k (closure g (StartItems.ofGrammar g) k) := by
  obtain ⟨hsound, hkernel, hclosed⟩ := closure_closed wf hk
  exact ⟨hsound.nodup,
    fun i => ⟨hsound.brought i, fun hi => hi.mem_of_closed hclosed hkernel⟩,
    fun i t => ⟨hsound.sees i t, fun ht => ht.holds_of_closed hclosed hkernel wf⟩⟩

end Closure

end TableParsing.Canonical
