/-! Finite sets of terminals, kept as the bits of one number. Two sets are equal
exactly when they have the same members, so a set can serve as a key. -/

namespace TableParsing

structure TerminalSet where
  mask : Nat
  deriving DecidableEq, Hashable

namespace TerminalSet

def empty : TerminalSet := ⟨0⟩

instance : Inhabited TerminalSet := ⟨empty⟩
instance : EmptyCollection TerminalSet := ⟨empty⟩

def contains (s : TerminalSet) (t : Nat) : Bool := s.mask.testBit t

instance : Membership Nat TerminalSet := ⟨fun s t => s.contains t = true⟩

def singleton (t : Nat) : TerminalSet := ⟨1 <<< t⟩

def union (a b : TerminalSet) : TerminalSet := ⟨a.mask ||| b.mask⟩

instance : Union TerminalSet := ⟨union⟩

def insert (s : TerminalSet) (t : Nat) : TerminalSet := s ∪ singleton t

def ofList (ts : List Nat) : TerminalSet := ts.foldl insert ∅

def below (n : Nat) : TerminalSet := ⟨1 <<< n - 1⟩

def toList (s : TerminalSet) : List Nat :=
  (List.range (s.mask.log2 + 1)).filter s.contains

def size (s : TerminalSet) : Nat := s.toList.length

/-- All members are below it. -/
def width (s : TerminalSet) : Nat := s.mask.log2 + 1

def isEmpty (s : TerminalSet) : Bool := s.mask == 0

def isSubset (a b : TerminalSet) : Bool := a ∪ b == b

theorem mem_def {s : TerminalSet} {t : Nat} : t ∈ s ↔ s.contains t = true := Iff.rfl

theorem ext {a b : TerminalSet} (h : ∀ t, t ∈ a ↔ t ∈ b) : a = b := by
  cases a; cases b
  congr 1
  apply Nat.eq_of_testBit_eq
  intro t
  exact Bool.eq_iff_iff.mpr (h t)

theorem lt_width {s : TerminalSet} {t : Nat} (h : t ∈ s) : t < s.width := by
  rw [mem_def, contains] at h
  have hne : s.mask ≠ 0 := by
    intro hzero
    simp [hzero] at h
  have hle := Nat.ge_two_pow_of_testBit h
  rw [width, Nat.lt_succ_iff, Nat.le_log2 hne]
  exact hle

theorem mem_toList {s : TerminalSet} {t : Nat} : t ∈ s.toList ↔ t ∈ s := by
  rw [toList, List.mem_filter, List.mem_range]
  exact and_iff_right_of_imp lt_width

theorem nodup_toList (s : TerminalSet) : s.toList.Nodup := List.nodup_range.filter _

theorem not_mem_empty (t : Nat) : t ∉ (∅ : TerminalSet) := by
  simp [mem_def, contains, EmptyCollection.emptyCollection, empty]

theorem mem_union {a b : TerminalSet} {t : Nat} : t ∈ a ∪ b ↔ t ∈ a ∨ t ∈ b := by
  simp [mem_def, contains, Union.union, union]

theorem isSubset_iff {a b : TerminalSet} : a.isSubset b = true ↔ ∀ t ∈ a, t ∈ b := by
  rw [isSubset, beq_iff_eq]
  constructor
  · intro h t ht
    rw [← h]
    exact mem_union.mpr (Or.inl ht)
  · intro h
    apply ext
    intro t
    rw [mem_union]
    exact or_iff_right_of_imp (h t)

theorem mem_singleton {t u : Nat} : t ∈ singleton u ↔ t = u := by
  simp [mem_def, contains, singleton, Nat.one_shiftLeft, Nat.testBit_two_pow, eq_comm]

theorem mem_insert {s : TerminalSet} {t u : Nat} : t ∈ s.insert u ↔ t ∈ s ∨ t = u := by
  simp [insert, mem_union, mem_singleton]

theorem mem_foldl_insert {ts : List Nat} {s : TerminalSet} {t : Nat} :
    t ∈ ts.foldl insert s ↔ t ∈ s ∨ t ∈ ts := by
  induction ts generalizing s with
  | nil => simp
  | cons u ts ih => rw [List.foldl_cons, ih, mem_insert, List.mem_cons, or_assoc]

theorem mem_ofList {ts : List Nat} {t : Nat} : t ∈ ofList ts ↔ t ∈ ts := by
  rw [ofList, mem_foldl_insert]
  simp [not_mem_empty]

theorem mem_below {n t : Nat} : t ∈ below n ↔ t < n := by
  simp [mem_def, contains, below, Nat.one_shiftLeft, Nat.testBit_two_pow_sub_one]

end TerminalSet

end TableParsing
