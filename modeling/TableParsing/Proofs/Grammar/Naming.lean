import Mathlib.Algebra.Group.Nat.Defs
import Mathlib.Data.List.Find
import Mathlib.Data.List.Induction
import TableParsing.Engine.Action
import TableParsing.Grammar.Completion

/-! The names of the positions of a right side. A name is looked up at the first position that
binds it, and a position binds two names: the one it is called by, unless an earlier position is
called so too, and that name with a number. The numbers are not kept apart from the names that
are given, so that a position called by the numbered name of an earlier one is out of reach. -/

namespace TableParsing

theorem resolveAlias_append (l l' : List Alias) (name : String) :
    resolveAlias (l ++ l') name = (resolveAlias l name).or (resolveAlias l' name) := by
  simp only [resolveAlias, List.find?_append]
  cases l.find? (·.name == name) <;> rfl

theorem resolveAlias_cons (a : Alias) (l : List Alias) (name : String) :
    resolveAlias (a :: l) name =
      if a.name = name then some a.position else resolveAlias l name := by
  rw [resolveAlias]
  by_cases h : a.name = name
  · rw [List.find?_cons_of_pos (by simpa using h), if_pos h]
    rfl
  · rw [List.find?_cons_of_neg (by simpa using h), if_neg h]
    rfl

namespace Definition

def calledNames (right : List SymbolUse) : List String := right.map (·.calledName)

def numberedAt (names : List String) (i : Nat) : Option String :=
  names[i]?.map fun called => numbered called ((names.take i).count called + 1)

/-- The position is called by the name, as none before it is, or gets it by its number. -/
def BindsAt (names : List String) (name : String) (i : Nat) : Prop :=
  names[i]? = some name ∧ name ∉ names.take i ∨ numberedAt names i = some name

instance (names : List String) (name : String) (i : Nat) : Decidable (BindsAt names name i) :=
  inferInstanceAs (Decidable (_ ∨ _))

def bindings (before : List String) (called : String) : List Alias :=
  let position := UInt64.ofNat (before.length + 1)
  (if called ∈ before then [] else [⟨called, position⟩]) ++
    [⟨numbered called (before.count called + 1), position⟩]

theorem foldl_add (right : List SymbolUse) :
    (right.foldl Naming.add ⟨1, ∅, #[]⟩).position = right.length + 1 ∧
      ∀ name, (right.foldl Naming.add ⟨1, ∅, #[]⟩).counts.getD name 0 =
        (calledNames right).count name := by
  induction right using List.reverseRecOn with
  | nil => exact ⟨rfl, fun name => Std.HashMap.getD_empty⟩
  | append_singleton right use ih =>
    obtain ⟨hposition, hcounts⟩ := ih
    rw [List.foldl_append, List.foldl_cons, List.foldl_nil, Naming.add]
    refine ⟨?_, fun name => ?_⟩
    · rw [hposition, List.length_append, List.length_singleton]
    · rw [calledNames, List.map_append, List.count_append, List.map_singleton,
        List.count_singleton, Std.HashMap.getD_insert, hcounts, hcounts]
      by_cases hname : use.calledName = name
      · simp [hname, calledNames]
      · simp [hname, calledNames]

theorem aliases_concat (right : List SymbolUse) (use : SymbolUse) :
    aliases (right ++ [use]) = aliases right ++ bindings (calledNames right) use.calledName := by
  obtain ⟨hposition, hcounts⟩ := foldl_add right
  have hlength : (calledNames right).length = right.length := List.length_map _
  rw [aliases, List.foldl_append, List.foldl_cons, List.foldl_nil, Naming.add, aliases]
  simp only [hposition, hcounts, bindings, hlength, Array.toList_push]
  by_cases hmem : use.calledName ∈ calledNames right
  · have hcount : (calledNames right).count use.calledName + 1 ≠ 1 := by
      simpa [List.count_eq_zero] using hmem
    simp only [hmem, hcount, if_true, if_false, List.nil_append]
  · simp [hmem, List.count_eq_zero.mpr hmem]

theorem resolveAlias_bindings (before : List String) (called name : String) :
    resolveAlias (bindings before called) name =
      if BindsAt (before ++ [called]) name before.length then
        some (UInt64.ofNat (before.length + 1))
      else none := by
  have hbinds : BindsAt (before ++ [called]) name before.length ↔
      called = name ∧ name ∉ before ∨ numbered called (before.count called + 1) = name := by
    simp [BindsAt, numberedAt]
  have hnone : resolveAlias [] name = none := rfl
  simp only [hbinds, bindings]
  by_cases hmem : called ∈ before
  · have hcalled : ¬ (called = name ∧ name ∉ before) := by
      rintro ⟨rfl, hname⟩
      exact hname hmem
    rw [if_pos hmem, List.nil_append, resolveAlias_cons, hnone]
    simp only [hcalled, false_or]
  · rw [if_neg hmem, List.singleton_append, resolveAlias_cons, resolveAlias_cons, hnone]
    by_cases hname : called = name
    · subst hname
      simp [hmem]
    · simp [hname]

theorem bindsAt_append {before : List String} {i : Nat} (hi : i < before.length)
    (after : List String) (name : String) :
    BindsAt (before ++ after) name i ↔ BindsAt before name i := by
  rw [BindsAt, BindsAt, numberedAt, numberedAt, List.getElem?_append_left hi,
    List.take_append_of_le_length (by omega)]

theorem resolveAlias_aliases (right : List SymbolUse) (name : String) :
    resolveAlias (aliases right) name =
      ((List.range right.length).find? (BindsAt (calledNames right) name ·)).map
        fun i => UInt64.ofNat (i + 1) := by
  induction right using List.reverseRecOn with
  | nil => rfl
  | append_singleton right use ih =>
    have hlength : (calledNames right).length = right.length := List.length_map _
    have hcalled : calledNames (right ++ [use]) = calledNames right ++ [use.calledName] := by
      simp [calledNames]
    have hbefore : (List.range right.length).find?
        (BindsAt (calledNames right ++ [use.calledName]) name ·) =
        (List.range right.length).find? (BindsAt (calledNames right) name ·) := by
      refine List.find?_congr fun i hi => ?_
      rw [List.mem_range, ← hlength] at hi
      exact decide_eq_decide.mpr (bindsAt_append hi _ name)
    rw [aliases_concat, resolveAlias_append, ih, resolveAlias_bindings, hcalled, hlength,
      List.length_append, List.length_singleton, List.range_succ, List.find?_append, hbefore]
    cases (List.range right.length).find? (BindsAt (calledNames right) name ·) with
    | some i => rfl
    | none =>
      by_cases hbinds : BindsAt (calledNames right ++ [use.calledName]) name right.length
      · simp [hbinds]
      · simp [hbinds]

theorem exists_first_binding {names : List String} {called : String} {i : Nat}
    (hi : names[i]? = some called) (hfirst : called ∉ names.take i) :
    ∃ k ≤ i, (List.range names.length).find? (BindsAt names called ·) = some k ∧
      (k = i ↔ ∀ j < i, numberedAt names j ≠ some called) ∧
      (k < i → numberedAt names k = some called ∧ ∀ j < k, numberedAt names j ≠ some called) := by
  have hlt : i < names.length := (List.getElem?_eq_some_iff.mp hi).1
  have hbinds : BindsAt names called i := Or.inl ⟨hi, hfirst⟩
  -- before the position only a numbered name can be the one looked up
  have hbefore : ∀ j < i, (BindsAt names called j ↔ numberedAt names j = some called) := by
    intro j hj
    refine or_iff_right fun hcalled => hfirst ?_
    refine List.mem_of_getElem? (i := j) ?_
    rw [List.getElem?_take_of_lt hj]
    exact hcalled.1
  cases hfind : (List.range names.length).find? (BindsAt names called ·) with
  | none =>
    rw [List.find?_eq_none] at hfind
    exact absurd hbinds (by simpa using hfind i (List.mem_range.mpr hlt))
  | some k =>
    simp only [List.find?_range_eq_some, decide_eq_true_eq, Bool.not_eq_true',
      decide_eq_false_iff_not] at hfind
    obtain ⟨hk, -, hleast⟩ := hfind
    have hle : k ≤ i := by
      by_contra hgt
      exact hleast i (by omega) hbinds
    have hnone : ∀ j < k, numberedAt names j ≠ some called := fun j hj heq =>
      hleast j hj (Or.inr heq)
    refine ⟨k, hle, rfl, ⟨?_, ?_⟩, fun hki => ⟨(hbefore k hki).mp hk, hnone⟩⟩
    · rintro rfl
      exact hnone
    · intro hall
      by_contra hne
      exact hall k (by omega) ((hbefore k (by omega)).mp hk)

end Definition

theorem Context.named_eq {V P : Type} {c : Context V P} {name : String} {k : Nat}
    (hk : k + 1 < 2 ^ 63) (h : resolveAlias c.aliases name = some (UInt64.ofNat (k + 1))) :
    c.named name = c.handle[k]?.bind (·.value) ∧ c.takeNamed name = c.take (k + 1) := by
  have hnat : (UInt64.ofNat (k + 1)).toNat = k + 1 := UInt64.toNat_ofNat_of_lt (by
    have hsize : UInt64.size = 2 ^ 64 := rfl
    omega)
  have hint : (UInt64.ofNat (k + 1)).toInt64.toInt = (k + 1 : Nat) := Int64.toInt_ofNat_of_lt hk
  rw [Context.named, Context.takeNamed, h]
  simp only [hnat, hint, and_true]
  rw [Context.get, Context.entry?, if_pos (by omega)]
  rfl

namespace Definition

/-- A position called as none before it is called is reached by its name exactly if no earlier
position has that name as its numbered name; otherwise the name reaches the first of those. -/
theorem calledName_reaches (right : List SymbolUse) (i : Nat) (use : SymbolUse)
    (hi : right[i]? = some use) (hfirst : use.calledName ∉ (calledNames right).take i) :
    ∃ k ≤ i, resolveAlias (aliases right) use.calledName = some (UInt64.ofNat (k + 1)) ∧
      (k = i ↔ ∀ j < i, numberedAt (calledNames right) j ≠ some use.calledName) ∧
      (k < i → numberedAt (calledNames right) k = some use.calledName ∧
        ∀ j < k, numberedAt (calledNames right) j ≠ some use.calledName) ∧
      ∀ (V P : Type) (c : Context V P), right.length < 2 ^ 63 → c.aliases = aliases right →
        c.named use.calledName = c.handle[k]?.bind (·.value) ∧
        c.takeNamed use.calledName = c.take (k + 1) := by
  have hlt : i < right.length := (List.getElem?_eq_some_iff.mp hi).1
  have hcalled : (calledNames right)[i]? = some use.calledName := by
    rw [calledNames, List.getElem?_map, hi, Option.map_some]
  have hlength : (calledNames right).length = right.length := List.length_map _
  obtain ⟨k, hle, hfind, hexact, hcaptured⟩ := exists_first_binding hcalled hfirst
  have hresolve : resolveAlias (aliases right) use.calledName = some (UInt64.ofNat (k + 1)) := by
    rw [resolveAlias_aliases, ← hlength, hfind, Option.map_some]
  refine ⟨k, hle, hresolve, hexact, hcaptured, fun V P c hbound haliases => ?_⟩
  exact Context.named_eq (by omega) (haliases ▸ hresolve)

theorem calledName_reaches_alias :
    numberedAt ["e", "e2", "e"] 2 = some "e2" ∧
    resolveAlias (aliases [⟨"e", none⟩, ⟨"x", some "e2"⟩, ⟨"e", none⟩]) "e2" = some 2 := by
  refine ⟨by decide +kernel, ?_⟩
  obtain ⟨k, -, hresolve, hexact, -⟩ := calledName_reaches
    [⟨"e", none⟩, ⟨"x", some "e2"⟩, ⟨"e", none⟩] 1 ⟨"x", some "e2"⟩ rfl (by decide +kernel)
  have hnone : ∀ j < 1, numberedAt (calledNames
      [⟨"e", none⟩, ⟨"x", some "e2"⟩, ⟨"e", none⟩]) j ≠ some "e2" := by
    decide +kernel
  obtain rfl := hexact.mpr hnone
  exact hresolve

theorem calledName_captured :
    ¬ ∀ (right : List SymbolUse) (i : Nat) (use : SymbolUse), right[i]? = some use →
      use.calledName ∉ (calledNames right).take i →
      resolveAlias (aliases right) use.calledName = some (UInt64.ofNat (i + 1)) := by
  intro h
  have hsecond := h [⟨"e", none⟩, ⟨"e1", none⟩] 1 ⟨"e1", none⟩ rfl (by decide +kernel)
  rw [resolveAlias_aliases] at hsecond
  revert hsecond
  decide +kernel

end Definition

end TableParsing
