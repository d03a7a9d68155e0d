import Mathlib.Data.List.Nodup
import TableParsing.Proofs.Propagation
import TableParsing.Propagation.Traversal

/-! A single traversal propagates as well as the rounds do. While a node is visited, the nodes
that were put on the stack above it lead back to it, their sets flow into its set, and each of
their edges ends in a closed node or no lower on the stack than their marks say. A node that
leads no lower than its own place has therefore taken in all that its component reaches. -/

namespace TableParsing.Propagation

section Unite

variable {α τ : Type} [Membership τ α] [Union α]
  (mem_union : ∀ {t : τ} {a b : α}, t ∈ a ∪ b ↔ t ∈ a ∨ t ∈ b)

include mem_union in
theorem holds_unite {sets : Array α} {x y v : Nat} {a : τ} :
    Holds (unite sets x y) v a ↔ Holds sets v a ∨ v < sets.size ∧ x = v ∧ Holds sets y a := by
  rw [unite]
  cases hy : sets[y]? with
  | none => simp [Holds, hy]
  | some s =>
    have hs : Holds sets y a ↔ a ∈ s := by simp [Holds, hy]
    rw [hs]
    exact holds_modify mem_union

omit [Membership τ α] in
theorem size_unite (sets : Array α) (x y : Nat) : (unite sets x y).size = sets.size := by
  rw [unite]
  cases sets[y]? with
  | none => rfl
  | some s => exact Array.size_modify

end Unite

def Stands (stack : List Nat) (k v : Nat) : Prop := stack.reverse[k]? = some v

section Stands

variable {stack above : List Nat} {k v : Nat}

theorem Stands.mem (h : Stands stack k v) : v ∈ stack :=
  List.mem_reverse.mp (List.mem_of_getElem? h)

theorem Stands.lt (h : Stands stack k v) : k < stack.length := by
  simpa using (List.getElem?_eq_some_iff.mp h).1

theorem stands_append (hk : k < stack.length) : Stands (above ++ stack) k v ↔ Stands stack k v := by
  rw [Stands, List.reverse_append, List.getElem?_append_left (by simpa using hk), Stands]

theorem Stands.append (above : List Nat) (h : Stands stack k v) : Stands (above ++ stack) k v :=
  (stands_append h.lt).mpr h

theorem Stands.mem_above (h : Stands (above ++ stack) k v) (hk : stack.length ≤ k) :
    v ∈ above := by
  rw [Stands, List.reverse_append, List.getElem?_append_right (by simpa using hk)] at h
  exact List.mem_reverse.mp (List.mem_of_getElem? h)

theorem stands_length (above : List Nat) {x : Nat} :
    Stands (above ++ x :: stack) stack.length x := by
  simp [Stands]

theorem Stands.eq_length {x : Nat} (nodup : (above ++ x :: stack).Nodup)
    (h : Stands (above ++ x :: stack) k x) : k = stack.length := by
  have hlt : k < (above ++ x :: stack).reverse.length := by
    rw [List.length_reverse]
    exact h.lt
  have hplace : Stands (above ++ x :: stack) stack.length x := stands_length above
  exact (List.getElem?_inj hlt (List.nodup_reverse.mpr nodup)).mp (h.trans hplace.symm)

end Stands

namespace Traversal

section Marks

variable {α : Type} (t : Traversal α) {x y v : Nat}

theorem lt_of_mark (h : t.mark x ≠ .closed) : x < t.marks.size := by
  by_contra hx
  apply h
  rw [mark, Array.getD_eq_getD_getElem?, Array.getElem?_eq_none (by omega)]
  rfl

theorem mark_enter (hx : t.mark x = .unseen) (v : Nat) :
    (t.enter x).mark v = if v = x then .pending t.stack.length else t.mark v := by
  have hlt : x < t.marks.size := t.lt_of_mark (by simp [hx])
  simp only [mark, enter, Array.getD_eq_getD_getElem?, Array.getElem?_setIfInBounds]
  by_cases hv : v = x
  · simp [hv, hlt]
  · simp [hv, Ne.symm hv]

theorem mark_set_closed (sets : Array α) (stack : List Nat) :
    (⟨sets, t.marks.setIfInBounds y .closed, stack⟩ : Traversal α).mark v =
      if v = y then .closed else t.mark v := by
  simp only [mark, Array.getD_eq_getD_getElem?, Array.getElem?_setIfInBounds]
  by_cases hv : v = y
  · subst hv
    by_cases hy : v < t.marks.size <;> simp [hy]
  · simp [hv, Ne.symm hv]

theorem mark_takeIn [Union α] :
    (t.takeIn x y).mark v = if v = x then (t.mark x).lower (t.mark y) else t.mark v := by
  simp only [mark, takeIn, Array.getD_eq_getD_getElem?, Array.getElem?_modify]
  by_cases hv : v = x
  · subst hv
    cases t.marks[v]? <;> simp [Mark.lower]
  · simp [hv, Ne.symm hv]

end Marks

section Steps

variable {α τ : Type} [Membership τ α] [Union α]
  (mem_union : ∀ {t : τ} {a b : α}, t ∈ a ∪ b ↔ t ∈ a ∨ t ∈ b) (t : Traversal α) {x y v : Nat}

omit [Membership τ α] in
theorem size_takeIn : (t.takeIn x y).sets.size = t.sets.size := by
  rw [takeIn]
  split
  · rfl
  · exact size_unite _ _ _

include mem_union in
theorem holds_takeIn {a : τ} : Holds (t.takeIn x y).sets v a ↔
    Holds t.sets v a ∨ v < t.sets.size ∧ v = x ∧ Holds t.sets y a := by
  rw [takeIn]
  by_cases hxy : x = y
  · subst hxy
    simp only [if_true]
    grind
  · simp only [if_neg hxy, holds_unite mem_union, eq_comm]

/-- What is left when the component of `x` is taken from the stack: the nodes above `x` have
taken in its set, and they and `x` are closed. -/
structure Released (t : Traversal α) (x : Nat) (above below : List Nat) (r : Traversal α) :
    Prop where
  stack : r.stack = below
  size_sets : r.sets.size = t.sets.size
  size_marks : r.marks.size = t.marks.size
  mark : ∀ v, r.mark v = if v ∈ above ++ [x] then .closed else t.mark v
  holds : ∀ v (a : τ), Holds r.sets v a ↔
    Holds t.sets v a ∨ v < t.sets.size ∧ v ∈ above ∧ Holds t.sets x a

include mem_union in
theorem released {above below : List Nat} (hx : x ∉ above) :
    Released t x above below (release x (above ++ x :: below) t) := by
  induction above generalizing t with
  | nil =>
    rw [List.nil_append, release, if_pos rfl]
    exact ⟨rfl, rfl, Array.size_setIfInBounds, by simp [mark_set_closed], by simp⟩
  | cons y above ih =>
    have hxy : x ≠ y := List.ne_of_not_mem_cons hx
    rw [List.cons_append, release, if_neg hxy.symm]
    have rest := ih ⟨unite t.sets y x, t.marks.setIfInBounds y .closed, t.stack⟩
      (List.not_mem_of_not_mem_cons hx)
    refine ⟨rest.stack, rest.size_sets.trans (size_unite _ _ _),
      rest.size_marks.trans Array.size_setIfInBounds, fun v => ?_, fun v a => ?_⟩
    · rw [rest.mark, mark_set_closed]
      by_cases hv : v ∈ above ++ [x] <;> by_cases hvy : v = y <;> simp_all
    · rw [rest.holds]
      simp only [holds_unite mem_union, size_unite, List.mem_cons]
      grind

end Steps

section Invariants

variable {α τ : Type} [Membership τ α] (edges : Array (List Nat)) (initial : Array α)

def Reached (x : Nat) (a : τ) : Prop :=
  ∃ y, Reaches edges initial.size x y ∧ Holds initial y a

structure Sound (t : Traversal α) : Prop where
  size_sets : t.sets.size = initial.size
  size_marks : t.marks.size = initial.size
  nodup : t.stack.Nodup
  mem_stack : ∀ v, v ∈ t.stack ↔ ∃ l, t.mark v = .pending l
  below : ∀ v l, t.mark v = .pending l → ∃ k, Stands t.stack k v ∧ l ≤ k
  leads : ∀ v l, t.mark v = .pending l →
    ∃ u, Stands t.stack l u ∧ Reaches edges initial.size v u
  kept : ∀ v (a : τ), Holds initial v a → Holds t.sets v a
  within : ∀ v (a : τ), Holds t.sets v a → Reached edges initial v a
  complete : ∀ v (a : τ), v < initial.size → t.mark v = .closed → Reached edges initial v a →
    Holds t.sets v a

structure Frame (before after : Traversal α) : Prop where
  mark : ∀ v, before.mark v ≠ .unseen → after.mark v = before.mark v
  holds : ∀ v (a : τ), before.mark v ≠ .unseen → (Holds after.sets v a ↔ Holds before.sets v a)

/-- Node `z` leads back to `x`, leads no lower than `low`, and its set has flown into `x`. -/
structure Under (t : Traversal α) (x low z : Nat) : Prop where
  low : ∃ m, t.mark z = .pending m ∧ low ≤ m
  back : Reaches edges initial.size z x
  flows : ∀ a : τ, Holds t.sets z a → Holds t.sets x a

def Settled (t : Traversal α) (z w : Nat) : Prop :=
  (t.mark w = .closed ∧ ∀ a : τ, Reached edges initial w a → Holds t.sets z a) ∨
    ∃ m k, t.mark z = .pending m ∧ Stands t.stack k w ∧ m ≤ k

/-- The traversal has put the nodes `new` on the stack; all that is open of them are edges
from `x` to `rest`. -/
structure Grown (before t : Traversal α) (x : Nat) (new : List Nat) (low : Nat)
    (rest : List Nat) : Prop where
  sound : Sound edges initial t
  frame : Frame before t
  stack : t.stack = new ++ before.stack
  mark : t.mark x = .pending low
  under : ∀ z ∈ new, Under edges initial t x low z
  settled : ∀ z ∈ new, ∀ w, Edge edges initial.size z w →
    z = x ∧ w ∈ rest ∨ Settled edges initial t z w

inductive Visited (before t : Traversal α) (x : Nat) : Prop
  | closed (sound : Sound edges initial t) (frame : Frame before t)
      (stack : t.stack = before.stack) (mark : t.mark x = .closed)
  | open {above : List Nat} {low : Nat}
      (grown : Grown edges initial before t x (above ++ [x]) low [])
      (older : low < before.stack.length)

end Invariants

section Preservation

variable {α τ : Type} [Membership τ α] {edges : Array (List Nat)} {initial : Array α}
  {before t t' : Traversal α} {x y : Nat}

theorem Reached.of_reaches {w : Nat} {a : τ} (h : Reaches edges initial.size x w)
    (hw : Reached edges initial w a) : Reached edges initial x a := by
  obtain ⟨y, hy, ha⟩ := hw
  exact ⟨y, h.trans hy, ha⟩

theorem Frame.refl (t : Traversal α) : Frame t t := ⟨fun _ _ => rfl, fun _ _ _ => .rfl⟩

theorem Frame.trans (h : Frame before t) (h' : Frame t t') : Frame before t' where
  mark v hv := by
    have hmark := h.mark v hv
    rw [h'.mark v (hmark ▸ hv), hmark]
  holds v a hv := (h'.holds v a (h.mark v hv ▸ hv)).trans (h.holds v a hv)

theorem sound_start (sets : Array α) : Sound edges sets (start sets) := by
  have hmark (v : Nat) : (start sets).mark v = if v < sets.size then .unseen else .closed := by
    simp only [start, mark, Array.getD_eq_getD_getElem?, Array.getElem?_replicate]
    split <;> rfl
  have hpending (v l : Nat) : (start sets).mark v ≠ .pending l := by
    rw [hmark]
    split <;> simp
  refine ⟨rfl, by simp [start], List.nodup_nil, fun v =>
      iff_of_false List.not_mem_nil fun ⟨l, hl⟩ => hpending v l hl,
    fun v l hv => absurd hv (hpending v l), fun v l hv => absurd hv (hpending v l),
    fun _ _ ha => ha, fun v a ha => ⟨v, .refl, ha⟩, fun v a hlt hv => ?_⟩
  rw [hmark, if_pos hlt] at hv
  cases hv

theorem Sound.enter (h : Sound edges initial t) (hx : t.mark x = .unseen) :
    Sound edges initial (t.enter x) := by
  have hmark := t.mark_enter hx
  have hnotMem : x ∉ t.stack := by
    rw [h.mem_stack, hx]
    simp
  refine ⟨h.size_sets, Array.size_setIfInBounds.trans h.size_marks,
    List.nodup_cons.mpr ⟨hnotMem, h.nodup⟩, fun v => ?_, fun v l hv => ?_, fun v l hv => ?_,
    h.kept, h.within, fun v a hlt hv => ?_⟩
  · change v ∈ x :: t.stack ↔ _
    rw [hmark, List.mem_cons, h.mem_stack]
    by_cases hvx : v = x <;> simp [hvx]
  · rw [hmark] at hv
    split at hv
    · subst v
      cases hv
      exact ⟨_, stands_length [], le_refl _⟩
    · obtain ⟨k, hk, hle⟩ := h.below v l hv
      exact ⟨k, hk.append [x], hle⟩
  · rw [hmark] at hv
    split at hv
    · subst v
      cases hv
      exact ⟨_, stands_length [], .refl⟩
    · obtain ⟨u, hu, hreach⟩ := h.leads v l hv
      exact ⟨u, hu.append [x], hreach⟩
  · rw [hmark] at hv
    split at hv
    · cases hv
    · exact h.complete v a hlt hv

theorem Sound.lt (h : Sound edges initial t) (hx : t.mark x ≠ .closed) : x < initial.size :=
  h.size_marks ▸ t.lt_of_mark hx

theorem Settled.frame {front : List Nat} {z w : Nat} (h : Settled edges initial t z w)
    (frame : Frame t t') (hstack : t'.stack = front ++ t.stack) (hz : t.mark z ≠ .unseen) :
    Settled edges initial t' z w := by
  rcases h with ⟨hw, hall⟩ | ⟨m, k, hm, hk, hle⟩
  · refine .inl ⟨?_, fun a ha => (frame.holds z a hz).mpr (hall a ha)⟩
    rw [frame.mark w (by simp [hw]), hw]
  · refine .inr ⟨m, k, ?_, hstack ▸ hk.append front, hle⟩
    rw [frame.mark z hz, hm]

theorem Grown.pending {new rest : List Nat} {low z : Nat}
    (h : Grown edges initial before t x new low rest) (hz : z ∈ new) : t.mark z ≠ .unseen := by
  obtain ⟨m, hm, -⟩ := (h.under z hz).low
  simp [hm]

theorem Grown.mark_after {new rest : List Nat} {low : Nat}
    (h : Grown edges initial before t x new low rest) (frame : Frame t t') :
    t'.mark x = .pending low :=
  (frame.mark x (by simp [h.mark])).trans h.mark

theorem Grown.of_pending {l : Nat} (h : Sound edges initial t) (hy : t.mark y = .pending l) :
    Grown edges initial t t y [] l [] :=
  ⟨h, .refl t, rfl, hy, by simp, by simp⟩

theorem Grown.enter (h : Sound edges initial t) (hx : t.mark x = .unseen) :
    Grown edges initial t (t.enter x) x [x] t.stack.length (edges.getD x []) := by
  have hmark := t.mark_enter hx
  have hself : (t.enter x).mark x = .pending t.stack.length := by rw [hmark, if_pos rfl]
  refine ⟨h.enter hx, ⟨fun v hv => ?_, fun _ _ _ => .rfl⟩, rfl, hself, fun z hz => ?_,
    fun z hz w hw => ?_⟩
  · have hne : v ≠ x := fun heq => hv (heq ▸ hx)
    rw [hmark, if_neg hne]
  · rw [List.mem_singleton] at hz
    subst hz
    exact ⟨⟨_, hself, le_refl _⟩, .refl, fun _ ha => ha⟩
  · rw [List.mem_singleton] at hz
    subst hz
    exact .inl ⟨rfl, hw.1⟩

section Root

variable {above : List Nat}
  (h : Grown edges initial before t x (above ++ [x]) before.stack.length [])

include h

/-- A root has taken in all that the nodes above it reach: no path from them leaves the
component but into closed nodes. -/
theorem Grown.holds_root {z y : Nat} {a : τ} (hz : z ∈ above ++ [x])
    (hreach : Reaches edges initial.size z y) (ha : Holds initial y a) : Holds t.sets x a := by
  induction hreach using Relation.ReflTransGen.head_induction_on with
  | refl => exact (h.under y hz).flows a (h.sound.kept y a ha)
  | @head z w hedge hrest ih =>
    -- an edge to the stack ends at or above the root, so in the component
    rcases (h.settled z hz w hedge).resolve_left (by simp) with ⟨-, hall⟩ | ⟨m, k, hm, hk, hle⟩
    · exact (h.under z hz).flows a (hall a ⟨y, hrest, ha⟩)
    · obtain ⟨m', hm', hlow⟩ := (h.under z hz).low
      cases hm.symm.trans hm'
      rw [h.stack] at hk
      exact ih (hk.mem_above (hlow.trans hle))

variable {r : Traversal α} (hr : Released t x above before.stack r)

include hr

theorem Grown.pending_released {v l : Nat} (hv : r.mark v = .pending l) :
    t.mark v = .pending l ∧ ∃ k, Stands before.stack k v ∧ l ≤ k := by
  rw [hr.mark] at hv
  by_cases hnew : v ∈ above ++ [x]
  · rw [if_pos hnew] at hv
    cases hv
  · rw [if_neg hnew] at hv
    obtain ⟨k, hk, hle⟩ := h.sound.below v l hv
    rw [h.stack] at hk
    have hlt : k < before.stack.length := by
      by_contra hge
      exact hnew (hk.mem_above (by omega))
    exact ⟨hv, k, (stands_append hlt).mp hk, hle⟩

theorem Grown.complete_released {v : Nat} {a : τ} (hlt : v < initial.size)
    (hv : r.mark v = .closed) (hreached : Reached edges initial v a) : Holds r.sets v a := by
  rw [hr.holds]
  rw [hr.mark] at hv
  by_cases hnew : v ∈ above ++ [x]
  · obtain ⟨y, hreach, ha⟩ := hreached
    have hx := h.holds_root hnew hreach ha
    rcases List.mem_append.mp hnew with hv | hv
    · exact .inr ⟨h.sound.size_sets ▸ hlt, hv, hx⟩
    · rw [List.mem_singleton] at hv
      exact .inl (hv ▸ hx)
  · rw [if_neg hnew] at hv
    exact .inl (h.sound.complete v a hlt hv hreached)

theorem Grown.sound_released : Sound edges initial r := by
  have hnodup : (above ++ [x] ++ before.stack).Nodup := h.stack ▸ h.sound.nodup
  refine ⟨hr.size_sets.trans h.sound.size_sets, hr.size_marks.trans h.sound.size_marks,
    hr.stack ▸ hnodup.of_append_right, fun v => ?_,
    fun v l hv => hr.stack ▸ (h.pending_released hr hv).2, fun v l hv => ?_,
    fun v a ha => (hr.holds v a).mpr (.inl (h.sound.kept v a ha)), fun v a ha => ?_,
    fun v a hlt hv hreached => h.complete_released hr hlt hv hreached⟩
  · rw [hr.stack]
    constructor
    · intro hv
      have hmem : v ∈ t.stack := h.stack ▸ List.mem_append_right _ hv
      have hnew : v ∉ above ++ [x] :=
        fun hnew => List.disjoint_of_nodup_append hnodup hnew hv
      obtain ⟨l, hl⟩ := (h.sound.mem_stack v).mp hmem
      exact ⟨l, by rw [hr.mark, if_neg hnew, hl]⟩
    · rintro ⟨l, hl⟩
      obtain ⟨-, k, hk, -⟩ := h.pending_released hr hl
      exact hk.mem
  · obtain ⟨hv, k, hk, hle⟩ := h.pending_released hr hv
    obtain ⟨u, hu, hreach⟩ := h.sound.leads v l hv
    have hlt : l < before.stack.length := Nat.lt_of_le_of_lt hle hk.lt
    rw [h.stack, stands_append hlt] at hu
    exact ⟨u, hr.stack ▸ hu, hreach⟩
  · rcases (hr.holds v a).mp ha with ha | ⟨-, hv, ha⟩
    · exact h.sound.within v a ha
    · exact .of_reaches (h.under v (List.mem_append_left _ hv)).back (h.sound.within x a ha)

theorem Grown.visited_released (sound : Sound edges initial before) :
    Visited edges initial before r x := by
  have hnodup : (above ++ [x] ++ before.stack).Nodup := h.stack ▸ h.sound.nodup
  have hseen {v : Nat} (hv : before.mark v ≠ .unseen) : v ∉ above ++ [x] := by
    intro hnew
    obtain ⟨m, hm, -⟩ := (h.under v hnew).low
    rw [h.frame.mark v hv] at hm
    exact List.disjoint_of_nodup_append hnodup hnew ((sound.mem_stack v).mpr ⟨m, hm⟩)
  refine .closed (h.sound_released hr) ⟨fun v hv => ?_, fun v a hv => ?_⟩ hr.stack ?_
  · rw [hr.mark, if_neg (hseen hv), h.frame.mark v hv]
  · have hv' : v ∉ above := fun hmem => hseen hv (List.mem_append_left _ hmem)
    rw [hr.holds, ← h.frame.holds v a hv]
    simp [hv']
  · rw [hr.mark, if_pos (by simp)]

end Root

section TakeIn

variable [Union α]

theorem mark_takeIn_of_closed (hy : t.mark y = .closed) (v : Nat) :
    (t.takeIn x y).mark v = t.mark v := by
  rw [mark_takeIn, hy]
  split
  · subst v
    cases t.mark x <;> rfl
  · rfl

theorem mark_takeIn_of_pending {low l : Nat} (hx : t.mark x = .pending low)
    (hy : t.mark y = .pending l) (v : Nat) :
    (t.takeIn x y).mark v = if v = x then .pending (min low l) else t.mark v := by
  rw [mark_takeIn, hx, hy]
  rfl

theorem Sound.exists_mark_takeIn {low : Nat} (h : Sound edges initial t)
    (hx : t.mark x = .pending low) (hmem : y ∈ edges.getD x []) (hy : t.mark y ≠ .unseen) :
    ∃ m ≤ low, (∀ v, (t.takeIn x y).mark v = if v = x then .pending m else t.mark v) ∧
      ∃ u, Stands t.stack m u ∧ Reaches edges initial.size x u := by
  cases hmark : t.mark y with
  | unseen => exact absurd hmark hy
  | pending l =>
    refine ⟨_, Nat.min_le_left _ _, mark_takeIn_of_pending hx hmark, ?_⟩
    rcases Nat.le_total low l with hle | hle
    · rw [Nat.min_eq_left hle]
      exact h.leads x low hx
    · rw [Nat.min_eq_right hle]
      obtain ⟨u, hu, hreach⟩ := h.leads y l hmark
      exact ⟨u, hu, .head ⟨hmem, h.lt (by simp [hmark])⟩ hreach⟩
  | closed =>
    refine ⟨low, le_refl _, fun v => ?_, h.leads x low hx⟩
    rw [mark_takeIn_of_closed hmark]
    by_cases hv : v = x <;> simp [hv, hx]

variable (mem_union : ∀ {t : τ} {a b : α}, t ∈ a ∪ b ↔ t ∈ a ∨ t ∈ b)

include mem_union

theorem Sound.takeIn {low : Nat} (h : Sound edges initial t) (hx : t.mark x = .pending low)
    (hmem : y ∈ edges.getD x []) (hy : t.mark y ≠ .unseen) :
    Sound edges initial (t.takeIn x y) := by
  obtain ⟨m, hm, hmark, u, hu, hreach⟩ := h.exists_mark_takeIn hx hmem hy
  refine ⟨t.size_takeIn.trans h.size_sets, Array.size_modify.trans h.size_marks, h.nodup,
    fun v => ?_, fun v l hv => ?_, fun v l hv => ?_,
    fun v a ha => (holds_takeIn mem_union t).mpr (.inl (h.kept v a ha)), fun v a ha => ?_,
    fun v a hlt hv hreached => ?_⟩
  · rw [hmark]
    change v ∈ t.stack ↔ _
    rw [h.mem_stack]
    by_cases hvx : v = x <;> simp [hvx, hx]
  · rw [hmark] at hv
    split at hv
    · subst v
      cases hv
      obtain ⟨k, hk, hle⟩ := h.below x low hx
      exact ⟨k, hk, hm.trans hle⟩
    · exact h.below v l hv
  · rw [hmark] at hv
    split at hv
    · subst v
      cases hv
      exact ⟨u, hu, hreach⟩
    · exact h.leads v l hv
  · rcases (holds_takeIn mem_union t).mp ha with hv | ⟨-, rfl, hy⟩
    · exact h.within v a hv
    · exact .of_reaches (.single ⟨hmem, h.size_sets ▸ hy.lt⟩) (h.within y a hy)
  · rw [hmark] at hv
    split at hv
    · cases hv
    · exact (holds_takeIn mem_union t).mpr (.inl (h.complete v a hlt hv hreached))

theorem Frame.takeIn (h : Frame before t) (hx : before.mark x = .unseen) :
    Frame before (t.takeIn x y) where
  mark v hv := by
    have hne : v ≠ x := fun heq => hv (heq ▸ hx)
    rw [mark_takeIn, if_neg hne, h.mark v hv]
  holds v a hv := by
    have hne : v ≠ x := fun heq => hv (heq ▸ hx)
    rw [holds_takeIn mem_union, ← h.holds v a hv]
    simp [hne]

theorem Settled.takeIn {low z w : Nat} (h : Settled edges initial t z w)
    (sound : Sound edges initial t) (hx : t.mark x = .pending low)
    (hmem : y ∈ edges.getD x []) (hy : t.mark y ≠ .unseen) :
    Settled edges initial (t.takeIn x y) z w := by
  obtain ⟨l, hl, hmark, -⟩ := sound.exists_mark_takeIn hx hmem hy
  rcases h with ⟨hw, hall⟩ | ⟨m, k, hm, hk, hle⟩
  · refine .inl ⟨?_, fun a ha => (holds_takeIn mem_union t).mpr (.inl (hall a ha))⟩
    have hne : w ≠ x := by
      rintro rfl
      rw [hw] at hx
      cases hx
    rw [hmark, if_neg hne, hw]
  · by_cases hzx : z = x
    · subst hzx
      cases hx.symm.trans hm
      exact .inr ⟨l, k, by rw [hmark, if_pos rfl], hk, hl.trans hle⟩
    · exact .inr ⟨m, k, by rw [hmark, if_neg hzx, hm], hk, hle⟩

theorem Grown.takeIn {new front rest : List Nat} {low l : Nat}
    (h : Grown edges initial before t x new low (y :: rest)) (hx : before.mark x = .unseen)
    (sound : Sound edges initial t') (frame : Frame t t') (hstack : t'.stack = front ++ t.stack)
    (hmem : y ∈ edges.getD x []) (hy : t'.mark y ≠ .unseen)
    (hmark : (t'.takeIn x y).mark x = .pending l) (hle : l ≤ low)
    (hunder : ∀ z ∈ front, Under edges initial (t'.takeIn x y) x l z)
    (hfront : ∀ z ∈ front, ∀ w, Edge edges initial.size z w → Settled edges initial t' z w)
    (hedge : y < initial.size → Settled edges initial (t'.takeIn x y) x y) :
    Grown edges initial before (t'.takeIn x y) x (front ++ new) l rest := by
  have hpending := h.mark_after frame
  refine ⟨sound.takeIn mem_union hpending hmem hy,
    (h.frame.trans frame).takeIn mem_union hx, ?_, hmark, fun z hz => ?_, fun z hz w hw => ?_⟩
  · rw [List.append_assoc, ← h.stack]
    exact hstack
  · rcases List.mem_append.mp hz with hz | hz
    · exact hunder z hz
    · have hunder := h.under z hz
      obtain ⟨m, hm, hlm⟩ := hunder.low
      refine ⟨?_, hunder.back, fun a ha => ?_⟩
      · by_cases hzx : z = x
        · exact ⟨l, hzx ▸ hmark, le_refl _⟩
        · refine ⟨m, ?_, hle.trans hlm⟩
          rw [mark_takeIn, if_neg hzx, frame.mark z (h.pending hz), hm]
      · rcases (holds_takeIn mem_union t').mp ha with ha | ⟨-, rfl, -⟩
        · have hxa := hunder.flows a ((frame.holds z a (h.pending hz)).mp ha)
          exact (holds_takeIn mem_union t').mpr
            (.inl ((frame.holds x a (by simp [h.mark])).mpr hxa))
        · exact ha
  · rcases List.mem_append.mp hz with hz | hz
    · exact .inr ((hfront z hz w hw).takeIn mem_union sound hpending hmem hy)
    · rcases h.settled z hz w hw with ⟨rfl, hw'⟩ | hsettled
      · rcases List.mem_cons.mp hw' with rfl | hw'
        · exact .inr (hedge hw.2)
        · exact .inl ⟨rfl, hw'⟩
      · exact .inr ((hsettled.frame frame hstack (h.pending hz)).takeIn mem_union sound hpending
          hmem hy)

theorem Grown.takeIn_closed {new rest : List Nat} {low : Nat}
    (h : Grown edges initial before t x new low (y :: rest)) (hx : before.mark x = .unseen)
    (sound : Sound edges initial t') (frame : Frame t t') (hstack : t'.stack = t.stack)
    (hmem : y ∈ edges.getD x []) (hy : t'.mark y = .closed) :
    Grown edges initial before (t'.takeIn x y) x new low rest := by
  have hxlow := h.mark_after frame
  have hxlt : x < t'.sets.size := sound.size_sets ▸ sound.lt (by simp [hxlow])
  have hsame : t'.stack = [] ++ t.stack := hstack
  refine h.takeIn mem_union hx sound frame hsame hmem (by simp [hy])
    ((mark_takeIn_of_closed hy x).trans hxlow) (le_refl _) (by simp) (by simp) fun hlt => ?_
  refine .inl ⟨(mark_takeIn_of_closed hy y).trans hy, fun a ha => ?_⟩
  exact (holds_takeIn mem_union t').mpr (.inr ⟨hxlt, rfl, sound.complete y a hlt hy ha⟩)

theorem Grown.takeIn_pending {new front rest : List Nat} {low l : Nat}
    (h : Grown edges initial before t x new low (y :: rest)) (hx : before.mark x = .unseen)
    (path : ∀ v ∈ t.stack, Reaches edges initial.size v x)
    (h' : Grown edges initial t t' y front l []) (hl : l < t.stack.length)
    (hmem : y ∈ edges.getD x []) :
    Grown edges initial before (t'.takeIn x y) x (front ++ new) (min low l) rest := by
  have hxlow := h.mark_after h'.frame
  have hxlt : x < t'.sets.size := h'.sound.size_sets ▸ h'.sound.lt (by simp [hxlow])
  have hmark := mark_takeIn_of_pending hxlow h'.mark
  refine h.takeIn mem_union hx h'.sound h'.frame h'.stack hmem (by simp [h'.mark])
    (by rw [hmark, if_pos rfl]) (Nat.min_le_left _ _) (fun z hz => ?_) (fun z hz w hw => ?_)
    fun _ => ?_
  · have hunder := h'.under z hz
    obtain ⟨m, hm, hlm⟩ := hunder.low
    refine ⟨?_, ?_, fun a ha => ?_⟩
    · by_cases hzx : z = x
      · exact ⟨_, by rw [hmark, if_pos hzx], le_refl _⟩
      · exact ⟨m, by rw [hmark, if_neg hzx, hm], (Nat.min_le_right _ _).trans hlm⟩
    · obtain ⟨u, hu, hreach⟩ := h'.sound.leads y l h'.mark
      rw [h'.stack, stands_append hl] at hu
      exact hunder.back.trans (hreach.trans (path u hu.mem))
    · rcases (holds_takeIn mem_union t').mp ha with hza | ⟨-, rfl, -⟩
      · exact (holds_takeIn mem_union t').mpr (.inr ⟨hxlt, rfl, hunder.flows a hza⟩)
      · exact ha
  · exact (h'.settled z hz w hw).resolve_left (by simp)
  · obtain ⟨k, hk, hle⟩ := h'.sound.below y l h'.mark
    exact .inr ⟨_, k, by rw [hmark, if_pos rfl], hk, (Nat.min_le_right _ _).trans hle⟩

end TakeIn

end Preservation

section Visit

variable {α τ : Type} [Membership τ α] [Union α] {edges : Array (List Nat)} {initial : Array α}
  (mem_union : ∀ {t : τ} {a b : α}, t ∈ a ∪ b ↔ t ∈ a ∨ t ∈ b)

def unseenNodes (n : Nat) (t : Traversal α) : Finset Nat :=
  (Finset.range n).filter fun v => t.mark v = .unseen

omit [Union α] in
theorem card_unseenNodes_lt {before t : Traversal α} {x : Nat} (frame : Frame before t)
    (hlt : x < initial.size) (hx : before.mark x = .unseen) (hx' : t.mark x ≠ .unseen) :
    (unseenNodes initial.size t).card < (unseenNodes initial.size before).card := by
  apply Finset.card_lt_card
  rw [Finset.ssubset_iff_of_subset]
  · exact ⟨x, by simp [unseenNodes, hlt, hx], by simp [unseenNodes, hx']⟩
  · intro v hv
    simp only [unseenNodes, Finset.mem_filter, Finset.mem_range] at hv ⊢
    refine ⟨hv.1, ?_⟩
    by_contra hseen
    exact hseen (frame.mark v hseen ▸ hv.2)

def VisitsWithin (edges : Array (List Nat)) (initial : Array α) (fuel : Nat) : Prop :=
  ∀ (t : Traversal α) (x : Nat), Sound edges initial t → t.mark x = .unseen →
    (∀ v ∈ t.stack, Reaches edges initial.size v x) →
    (unseenNodes initial.size t).card ≤ fuel →
    Visited edges initial t (visit edges fuel x t) x

section Loop

variable {before : Traversal α} {x fuel : Nat} (ih : VisitsWithin edges initial fuel)
  (hx : before.mark x = .unseen) (path : ∀ v ∈ before.stack, Reaches edges initial.size v x)
  (hfuel : (unseenNodes initial.size before).card ≤ fuel + 1)

include mem_union ih hx path hfuel

theorem Grown.step {t : Traversal α} {y low : Nat} {above rest : List Nat}
    (h : Grown edges initial before t x (above ++ [x]) low (y :: rest))
    (hmem : y ∈ edges.getD x []) :
    ∃ above' low', Grown edges initial before
      ((if t.mark y = .unseen then visit edges fuel y t else t).takeIn x y) x (above' ++ [x])
      low' rest := by
  have path' : ∀ v ∈ t.stack, Reaches edges initial.size v x := by
    intro v hv
    rcases List.mem_append.mp (h.stack ▸ hv) with hv | hv
    · exact (h.under v hv).back
    · exact path v hv
  cases hy : t.mark y with
  | unseen =>
    rw [if_pos rfl]
    have hedge : Edge edges initial.size x y := ⟨hmem, h.sound.lt (by simp [hy])⟩
    have hcard := card_unseenNodes_lt h.frame (h.sound.lt (by simp [h.mark])) hx
      (by simp [h.mark])
    rcases ih t y h.sound hy (fun v hv => (path' v hv).tail hedge) (by omega) with
      ⟨sound, frame, hstack, hclosed⟩ | ⟨grown, older⟩
    · exact ⟨above, low, h.takeIn_closed mem_union hx sound frame hstack hmem hclosed⟩
    · rename_i above' low'
      refine ⟨above' ++ [y] ++ above, min low low', ?_⟩
      rw [List.append_assoc (above' ++ [y])]
      exact h.takeIn_pending mem_union hx path' grown older hmem
  | pending l =>
    rw [if_neg (by simp)]
    obtain ⟨k, hk, hle⟩ := h.sound.below y l hy
    exact ⟨above, min low l, h.takeIn_pending mem_union hx path' (.of_pending h.sound hy)
      (Nat.lt_of_le_of_lt hle hk.lt) hmem⟩
  | closed =>
    rw [if_neg (by simp)]
    exact ⟨above, low, h.takeIn_closed mem_union hx h.sound (.refl t) rfl hmem hy⟩

theorem Grown.foldl {rest : List Nat} {t : Traversal α} {low : Nat} {above : List Nat}
    (h : Grown edges initial before t x (above ++ [x]) low rest)
    (hrest : ∀ y ∈ rest, y ∈ edges.getD x []) :
    ∃ above' low', Grown edges initial before (rest.foldl (fun t y =>
      (if t.mark y = .unseen then visit edges fuel y t else t).takeIn x y) t) x (above' ++ [x])
      low' [] := by
  induction rest generalizing t low above with
  | nil => exact ⟨above, low, h⟩
  | cons y rest ihrest =>
    obtain ⟨above', low', h'⟩ := h.step mem_union ih hx path hfuel (hrest y (by simp))
    exact ihrest h' fun w hw => hrest w (List.mem_cons_of_mem _ hw)

end Loop

include mem_union in
theorem visitsWithin (fuel : Nat) : VisitsWithin edges initial fuel := by
  induction fuel with
  | zero =>
    intro t x sound hx _ hfuel
    have hmem : x ∈ unseenNodes initial.size t :=
      Finset.mem_filter.mpr ⟨Finset.mem_range.mpr (sound.lt (by simp [hx])), hx⟩
    rw [Finset.card_eq_zero.mp (by omega : (unseenNodes initial.size t).card = 0)] at hmem
    exact absurd hmem (Finset.notMem_empty x)
  | succ fuel ih =>
    intro t x sound hx path hfuel
    rw [visit]
    have hstart : Grown edges initial t (t.enter x) x ([] ++ [x]) t.stack.length
        (edges.getD x []) := .enter sound hx
    obtain ⟨above, low, h⟩ := hstart.foldl mem_union ih hx path hfuel fun _ hy => hy
    generalize (edges.getD x []).foldl _ (t.enter x) = explored at h ⊢
    have hstack : explored.stack = above ++ x :: t.stack := by simp [h.stack]
    have hnodup : (above ++ x :: t.stack).Nodup := hstack ▸ h.sound.nodup
    obtain ⟨k, hk, hle⟩ := h.sound.below x low h.mark
    have hplace : k = t.stack.length := Stands.eq_length hnodup (hstack ▸ hk)
    by_cases hroot : low = t.stack.length
    · subst hroot
      rw [if_pos h.mark, hstack]
      have hnotMem : x ∉ above := fun hmem =>
        List.disjoint_of_nodup_append hnodup hmem List.mem_cons_self
      exact h.visited_released (released mem_union explored hnotMem) sound
    · rw [if_neg (by simpa [h.mark] using hroot)]
      exact .open h (by omega)

section Run

variable {t : Traversal α} {x : Nat} (sound : Sound edges initial t) (hstack : t.stack = [])

include mem_union sound hstack

theorem visit_root : let t' := if t.mark x = .unseen then visit edges initial.size x t else t
    Sound edges initial t' ∧ t'.stack = [] ∧ Frame t t' ∧ t'.mark x = .closed := by
  cases hx : t.mark x with
  | unseen =>
    have hcard : (unseenNodes initial.size t).card ≤ initial.size :=
      (Finset.card_filter_le _ _).trans (Finset.card_range _).le
    rcases visitsWithin mem_union _ t x sound hx (by simp [hstack]) hcard with
      ⟨sound', frame, hstack', hclosed⟩ | ⟨-, older⟩
    · exact ⟨sound', hstack'.trans hstack, frame, hclosed⟩
    · rw [hstack] at older
      exact absurd older (Nat.not_lt_zero _)
  | pending l =>
    have hmem := (sound.mem_stack x).mpr ⟨l, hx⟩
    rw [hstack] at hmem
    cases hmem
  | closed => exact ⟨sound, hstack, .refl t, hx⟩

theorem foldl_visit_root (xs : List Nat) :
    let t' := xs.foldl
      (fun t x => if t.mark x = .unseen then visit edges initial.size x t else t) t
    Sound edges initial t' ∧ Frame t t' ∧ ∀ x ∈ xs, t'.mark x = .closed := by
  induction xs generalizing t with
  | nil => exact ⟨sound, .refl t, by simp⟩
  | cons x xs ih =>
    obtain ⟨sound', hstack', frame, hx⟩ := visit_root (x := x) mem_union sound hstack
    obtain ⟨sound'', frame', hxs⟩ := ih sound' hstack'
    refine ⟨sound'', frame.trans frame', ?_⟩
    intro v hv
    rcases List.mem_cons.mp hv with rfl | hv
    · exact (frame'.mark v (by simp [hx])).trans hx
    · exact hxs v hv

end Run

end Visit

end Traversal

section Traverse

variable {α τ : Type} [Membership τ α] [Union α]
  (mem_union : ∀ {t : τ} {a b : α}, t ∈ a ∪ b ↔ t ∈ a ∨ t ∈ b)
  (edges : Array (List Nat)) (sets : Array α)

include mem_union

theorem holds_traverse {i : Nat} {t : τ} : Holds (traverse edges sets) i t ↔
    i < sets.size ∧ ∃ j, Reaches edges sets.size i j ∧ Holds sets j t := by
  obtain ⟨sound, -, hclosed⟩ := Traversal.foldl_visit_root mem_union
    (Traversal.sound_start sets) rfl (List.range sets.size)
  constructor
  · intro h
    exact ⟨sound.size_sets ▸ h.lt, sound.within i t h⟩
  · rintro ⟨hi, h⟩
    exact sound.complete i t hi (hclosed i (List.mem_range.mpr hi)) h

theorem size_traverse : (traverse edges sets).size = sets.size :=
  (Traversal.foldl_visit_root mem_union (Traversal.sound_start sets) rfl
    (List.range sets.size)).1.size_sets

end Traverse

theorem traverse_eq_close (edges : Array (List Nat)) (sets : Array TerminalSet) :
    traverse edges sets = close edges sets := by
  have hsize : (traverse edges sets).size = (close edges sets).size := by
    rw [size_traverse TerminalSet.mem_union, size_close]
  apply Array.ext hsize
  intro i hi hi'
  apply TerminalSet.ext
  intro t
  have h : Holds (traverse edges sets) i t ↔ Holds (close edges sets) i t := by
    rw [holds_traverse TerminalSet.mem_union, holds_close TerminalSet.mem_union]
  simpa [Holds, hi, hi'] using h

end TableParsing.Propagation
