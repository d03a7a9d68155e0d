import Mathlib.Data.List.Nodup
import Mathlib.Data.List.Perm.Subperm
import TableParsing.Numbering

/-! A numbering lists each key once, and numbers a list without repetitions by position. -/

namespace TableParsing.Numbering

variable {κ : Type} [BEq κ] [Hashable κ]

theorem eq_of_getElem? (n : Numbering κ) {i j : Nat} {k : κ} (hi : n.keys[i]? = some k)
    (hj : n.keys[j]? = some k) : i = j := by
  have found := n.find?_eq_some_iff.mpr hi
  rw [n.find?_eq_some_iff.mpr hj] at found
  exact (Option.some.inj found).symm

theorem keys_nodup (n : Numbering κ) : n.keys.toList.Nodup := by
  rw [List.nodup_iff_injective_getElem]
  intro i j hij
  have hi : n.keys[i.val]? = some n.keys.toList[i.val] := by
    rw [← Array.getElem?_toList, List.getElem?_eq_getElem]
  have hj : n.keys[j.val]? = some n.keys.toList[i.val] := by
    rw [← Array.getElem?_toList, List.getElem?_eq_getElem j.isLt]
    exact congrArg some hij.symm
  exact Fin.ext (n.eq_of_getElem? hi hj)

theorem find?_lt (n : Numbering κ) {i : Nat} {k : κ} (h : n.find? k = some i) : i < n.size :=
  (Array.getElem?_eq_some_iff.mp (n.find?_eq_some_iff.mp h)).1

theorem exists_find?_of_mem (n : Numbering κ) {k : κ} (h : k ∈ n.keys) :
    ∃ i, n.find? k = some i := by
  cases hk : n.find? k with
  | none => exact absurd h (n.find?_eq_none_iff.mp hk)
  | some i => exact ⟨i, rfl⟩

theorem mem_of_find? (n : Numbering κ) {i : Nat} {k : κ} (h : n.find? k = some i) :
    k ∈ n.keys := Array.mem_of_getElem? (n.find?_eq_some_iff.mp h)

theorem eq_of_find? (n : Numbering κ) {i : Nat} {k l : κ} (hk : n.find? k = some i)
    (hl : n.find? l = some i) : k = l :=
  Option.some.inj ((n.find?_eq_some_iff.mp hk).symm.trans (n.find?_eq_some_iff.mp hl))

theorem contains_iff (n : Numbering κ) {k : κ} : n.contains k = true ↔ k ∈ n.keys := by
  rw [contains, Option.isSome_iff_exists]
  exact ⟨fun ⟨_, h⟩ => n.mem_of_find? h, n.exists_find?_of_mem⟩

variable [LawfulBEq κ]

theorem find?_eq_findIdx? (n : Numbering κ) (k : κ) : n.find? k = n.keys.findIdx? (· == k) := by
  apply Option.ext
  intro i
  rw [find?_eq_some_iff, Array.findIdx?_eq_some_iff_getElem]
  constructor
  · intro h
    obtain ⟨hi, rfl⟩ := Array.getElem?_eq_some_iff.mp h
    refine ⟨hi, by simp, fun j hj => ?_⟩
    rw [beq_iff_eq]
    intro heq
    have hj' : n.keys[j]? = some n.keys[i] := by rw [← heq, Array.getElem?_eq_getElem]
    have hij := n.eq_of_getElem? h hj'
    omega
  · intro h
    obtain ⟨hi, heq, -⟩ := h
    rw [Array.getElem?_eq_getElem hi, beq_iff_eq.mp heq]

theorem contains_eq (n : Numbering κ) (k : κ) : n.contains k = n.keys.contains k := by
  rw [Bool.eq_iff_iff, n.contains_iff, Array.contains_iff_mem]

theorem keys_insert_of_notMem (n : Numbering κ) {k : κ} (h : k ∉ n.keys) :
    (n.insert k).keys = n.keys.push k := by
  rw [insert]
  split
  case h_1 hk => exact absurd (n.mem_of_find? hk) h
  case h_2 => rfl

theorem keys_insert_of_mem (n : Numbering κ) {k : κ} (h : k ∈ n.keys) :
    (n.insert k).keys = n.keys := by
  rw [insert]
  split
  case h_1 => rfl
  case h_2 hk => exact absurd h (n.find?_eq_none_iff.mp hk)

theorem keys_insert (n : Numbering κ) (k : κ) :
    (n.insert k).keys = if n.keys.contains k then n.keys else n.keys.push k := by
  by_cases h : k ∈ n.keys
  · rw [n.keys_insert_of_mem h, if_pos (Array.contains_iff_mem.mpr h)]
  · rw [n.keys_insert_of_notMem h, if_neg (by rwa [Array.contains_iff_mem])]

theorem keys_foldl_insert_eq (ks : List κ) (n : Numbering κ) : (ks.foldl insert n).keys =
    ks.foldl (fun keys k => if keys.contains k then keys else keys.push k) n.keys := by
  induction ks generalizing n with
  | nil => rfl
  | cons k ks ih => rw [List.foldl_cons, ih, keys_insert, List.foldl_cons]

theorem keys_ofList_eq (ks : List κ) : (ofList ks).keys =
    ks.foldl (fun keys k => if keys.contains k then keys else keys.push k) #[] :=
  keys_foldl_insert_eq ks empty

theorem mem_keys_foldl_insert {ks : List κ} {n : Numbering κ} {a : κ} :
    a ∈ (ks.foldl insert n).keys ↔ a ∈ n.keys ∨ a ∈ ks := by
  induction ks generalizing n with
  | nil => simp
  | cons k ks ih => rw [List.foldl_cons, ih, mem_keys_insert, List.mem_cons, or_assoc]

theorem mem_keys_ofList {ks : List κ} {a : κ} : a ∈ (ofList ks).keys ↔ a ∈ ks := by
  rw [ofList, mem_keys_foldl_insert]
  simp [empty]

theorem size_ofList_le (ks : List κ) : (ofList ks).size ≤ ks.length := by
  have hsubset : (ofList ks).keys.toList ⊆ ks :=
    fun k hk => mem_keys_ofList.mp (Array.mem_toList_iff.mp hk)
  exact (List.subperm_of_subset (ofList ks).keys_nodup hsubset).length_le

theorem getElem?_insert (n : Numbering κ) {i : Nat} {a k : κ} (h : n.keys[i]? = some a) :
    (n.insert k).keys[i]? = some a := by
  by_cases hk : k ∈ n.keys
  · rw [n.keys_insert_of_mem hk, h]
  · have hlt := (Array.getElem?_eq_some_iff.mp h).1
    rw [n.keys_insert_of_notMem hk, Array.getElem?_push, if_neg (by omega), h]

theorem getElem?_foldl_insert {ks : List κ} {n : Numbering κ} {i : Nat} {a : κ}
    (h : n.keys[i]? = some a) : (ks.foldl insert n).keys[i]? = some a := by
  induction ks generalizing n with
  | nil => exact h
  | cons k ks ih => exact ih (n.getElem?_insert h)

theorem find?_ofList_append (before after : List κ) (k : κ) :
    ∃ i, (ofList (before ++ k :: after)).find? k = some i ∧
      (i < (ofList before).size ∧ (ofList (before ++ [k])).size = (ofList before).size ∨
        i = (ofList before).size ∧
          (ofList (before ++ [k])).size = (ofList before).size + 1) := by
  have hone : ofList (before ++ [k]) = (ofList before).insert k := by
    simp [ofList, List.foldl_append]
  have hall : ofList (before ++ k :: after) = after.foldl insert ((ofList before).insert k) := by
    simp [ofList, List.foldl_append]
  rw [hone, hall]
  by_cases hk : k ∈ (ofList before).keys
  · obtain ⟨i, hi⟩ := (ofList before).exists_find?_of_mem hk
    have hkey := (ofList before).getElem?_insert (k := k) (find?_eq_some_iff _ |>.mp hi)
    refine ⟨i, (find?_eq_some_iff _).mpr (getElem?_foldl_insert hkey), Or.inl ⟨?_, ?_⟩⟩
    · exact (ofList before).find?_lt hi
    · rw [size, size, (ofList before).keys_insert_of_mem hk]
  · have hkeys := (ofList before).keys_insert_of_notMem hk
    have hkey : ((ofList before).insert k).keys[(ofList before).size]? = some k := by
      rw [hkeys]
      exact Array.getElem?_push_size
    refine ⟨_, (find?_eq_some_iff _).mpr (getElem?_foldl_insert hkey), Or.inr ⟨rfl, ?_⟩⟩
    rw [size, hkeys, Array.size_push, size]

theorem keys_foldl_insert {ks : List κ} {n : Numbering κ} (nodup : ks.Nodup)
    (fresh : ∀ k ∈ ks, k ∉ n.keys) : (ks.foldl insert n).keys = n.keys ++ ks.toArray := by
  induction ks generalizing n with
  | nil => simp
  | cons k ks ih =>
    obtain ⟨hk, nodup⟩ := List.nodup_cons.mp nodup
    have step := n.keys_insert_of_notMem (fresh k List.mem_cons_self)
    rw [List.foldl_cons, ih nodup, step, ← Array.toList_inj]
    · simp
    · intro a ha hmem
      rcases n.mem_keys_insert.mp hmem with hmem | rfl
      · exact fresh a (List.mem_cons_of_mem _ ha) hmem
      · exact hk ha

theorem keys_ofList {ks : List κ} (nodup : ks.Nodup) : (ofList ks).keys = ks.toArray := by
  rw [ofList, keys_foldl_insert nodup (by simp [empty])]
  simp [empty]

theorem find?_ofList {ks : List κ} (nodup : ks.Nodup) {k : κ} {i : Nat} :
    (ofList ks).find? k = some i ↔ ks[i]? = some k := by
  rw [find?_eq_some_iff, keys_ofList nodup]
  simp

end TableParsing.Numbering
