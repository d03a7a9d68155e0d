import Std.Data.HashMap

/-! Distinct keys numbered in order of first appearance. The index answers which
number a key has, and the invariant says that it agrees with the listing. -/

namespace TableParsing

structure Numbering (κ : Type) [BEq κ] [Hashable κ] where
  keys : Array κ
  index : Std.HashMap κ Nat
  agree : ∀ (k : κ) (i : Nat), index[k]? = some i ↔ keys[i]? = some k

namespace Numbering

variable {κ : Type} [BEq κ] [Hashable κ]

def size (n : Numbering κ) : Nat := n.keys.size

def find? (n : Numbering κ) (k : κ) : Option Nat := n.index[k]?

def contains (n : Numbering κ) (k : κ) : Bool := (n.find? k).isSome

def toList (n : Numbering κ) : List κ := n.keys.toList

theorem find?_eq_some_iff (n : Numbering κ) {k : κ} {i : Nat} :
    n.find? k = some i ↔ n.keys[i]? = some k := n.agree k i

theorem find?_eq_none_iff (n : Numbering κ) {k : κ} : n.find? k = none ↔ k ∉ n.keys := by
  constructor
  · intro h mem
    obtain ⟨i, hi, rfl⟩ := Array.mem_iff_getElem.mp mem
    have found := (n.find?_eq_some_iff).mpr (Array.getElem?_eq_getElem hi)
    rw [h] at found
    cases found
  · intro h
    cases hk : n.find? k with
    | none => rfl
    | some i => exact absurd (Array.mem_of_getElem? (n.find?_eq_some_iff.mp hk)) h

variable [LawfulBEq κ]

def empty : Numbering κ where
  keys := #[]
  index := ∅
  agree := by simp

instance : Inhabited (Numbering κ) := ⟨empty⟩

theorem agree_push (n : Numbering κ) (k : κ) (fresh : n.find? k = none) (a : κ) (i : Nat) :
    (n.index.insert k n.keys.size)[a]? = some i ↔ (n.keys.push k)[i]? = some a := by
  have noKey := n.find?_eq_none_iff.mp fresh
  rw [Std.HashMap.getElem?_insert, Array.getElem?_push]
  by_cases same : k = a
  · subst same
    simp only [beq_self_eq_true, if_true, Option.some.injEq]
    constructor
    · rintro rfl
      simp
    · intro h
      split at h
      · exact Eq.symm ‹i = n.keys.size›
      · exact absurd (Array.mem_of_getElem? h) noKey
  · simp only [beq_iff_eq, same, if_false, n.agree]
    split
    · subst i
      simp [same]
    · rfl

def push (n : Numbering κ) (k : κ) (fresh : n.find? k = none) : Numbering κ :=
  let size := n.keys.size
  ⟨n.keys.push k, n.index.insert k size, n.agree_push k fresh⟩

/-- A key with a number keeps it; a new key is appended. -/
def insert (n : Numbering κ) (k : κ) : Numbering κ :=
  match h : n.find? k with
  | some _ => n
  | none => n.push k h

def ofList (ks : List κ) : Numbering κ := ks.foldl insert empty

theorem mem_keys_insert (n : Numbering κ) {a k : κ} :
    a ∈ (n.insert k).keys ↔ a ∈ n.keys ∨ a = k := by
  rw [insert]
  split
  case h_1 i h =>
    have mem := Array.mem_of_getElem? (n.find?_eq_some_iff.mp h)
    constructor
    · exact Or.inl
    · rintro (h | rfl)
      · exact h
      · exact mem
  case h_2 h => simp [push]

end Numbering

end TableParsing
