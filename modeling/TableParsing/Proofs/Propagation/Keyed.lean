import TableParsing.Proofs.Numbering
import TableParsing.Proofs.Propagation.Traversal
import TableParsing.Propagation.Keyed

/-! Propagation over named nodes: a map keeps its keys and their order, and the set of a key
becomes the union of the sets of all keys that it reaches. -/

namespace TableParsing.Propagation

variable {κ α τ : Type} [BEq κ] [Hashable κ] [LawfulBEq κ] [Membership τ α]

/-- Key `y` of the map is a successor of `x`. -/
def KeyEdge (nodes : List (κ × α)) (successors : κ → List κ) (x y : κ) : Prop :=
  y ∈ successors x ∧ y ∈ nodes.map Prod.fst

section Positions

variable {nodes : List (κ × α)} {successors : κ → List κ} (distinct : (nodes.map Prod.fst).Nodup)
  {i j : Nat} {x y : κ}

include distinct

theorem edge_positions_iff :
    Edge (positions nodes successors) nodes.length i j ↔ ∃ x y,
      (nodes.map Prod.fst)[i]? = some x ∧ (nodes.map Prod.fst)[j]? = some y ∧
        y ∈ successors x := by
  have hlt {y : κ} (hy : (nodes.map Prod.fst)[j]? = some y) : j < nodes.length := by
    simpa using (List.getElem?_eq_some_iff.mp hy).1
  rw [Edge, positions, Numbering.keys_ofList distinct, Array.getD_eq_getD_getElem?,
    Array.getElem?_map, List.getElem?_toArray]
  cases hx : (nodes.map Prod.fst)[i]? with
  | none => simp
  | some x =>
    simp only [Option.map_some, Option.getD_some, List.mem_filterMap,
      Numbering.find?_ofList distinct, Option.some.injEq]
    constructor
    · rintro ⟨⟨y, hmem, hy⟩, -⟩
      exact ⟨x, y, rfl, hy, hmem⟩
    · rintro ⟨_, y, rfl, hy, hmem⟩
      exact ⟨⟨y, hmem, hy⟩, hlt hy⟩

theorem Reaches.exists_key (h : Reaches (positions nodes successors) nodes.length i j)
    (hi : (nodes.map Prod.fst)[i]? = some x) : ∃ y, (nodes.map Prod.fst)[j]? = some y ∧
      Relation.ReflTransGen (KeyEdge nodes successors) x y := by
  induction h with
  | refl => exact ⟨x, hi, .refl⟩
  | tail _ hedge ih =>
    obtain ⟨y, hy, hreach⟩ := ih
    obtain ⟨y', z, hy', hz, hmem⟩ := (edge_positions_iff distinct).mp hedge
    cases hy.symm.trans hy'
    exact ⟨z, hz, hreach.tail ⟨hmem, List.mem_of_getElem? hz⟩⟩

theorem exists_reaches (h : Relation.ReflTransGen (KeyEdge nodes successors) x y)
    (hi : (nodes.map Prod.fst)[i]? = some x) : ∃ j, (nodes.map Prod.fst)[j]? = some y ∧
      Reaches (positions nodes successors) nodes.length i j := by
  induction h with
  | refl => exact ⟨i, hi, .refl⟩
  | tail _ hedge ih =>
    obtain ⟨j, hj, hreach⟩ := ih
    obtain ⟨k, hk⟩ := List.mem_iff_getElem?.mp hedge.2
    exact ⟨k, hk, hreach.tail ((edge_positions_iff distinct).mpr ⟨_, _, hj, hk, hedge.1⟩)⟩

end Positions

omit [BEq κ] [Hashable κ] [LawfulBEq κ] in
theorem holds_values_iff {nodes : List (κ × α)} {j : Nat} {y : κ} {a : τ}
    (hj : (nodes.map Prod.fst)[j]? = some y) :
    Holds (nodes.map Prod.snd).toArray j a ↔ ∃ u, nodes[j]? = some (y, u) ∧ a ∈ u := by
  rw [List.getElem?_map, Option.map_eq_some_iff] at hj
  obtain ⟨⟨_, u⟩, hj, rfl⟩ := hj
  simp [Holds, hj]

/-- Propagation computes the reflexive and transitive union over the keys, for any map and any
successors. -/
theorem closeMap_exact [Union α]
    (mem_union : ∀ {t : τ} {a b : α}, t ∈ a ∪ b ↔ t ∈ a ∨ t ∈ b) (nodes : List (κ × α))
    (successors : κ → List κ) (distinct : (nodes.map Prod.fst).Nodup) :
    (closeMap nodes successors).map Prod.fst = nodes.map Prod.fst ∧
      ∀ x s, (x, s) ∈ closeMap nodes successors → ∀ a : τ, a ∈ s ↔
        ∃ y u, Relation.ReflTransGen (KeyEdge nodes successors) x y ∧ (y, u) ∈ nodes ∧ a ∈ u := by
  have hsize : (nodes.map Prod.snd).toArray.size = nodes.length := by simp
  have hlength : (traverse (positions nodes successors)
      (nodes.map Prod.snd).toArray).toList.length = nodes.length := by
    rw [Array.length_toList, size_traverse mem_union, hsize]
  constructor
  · exact List.map_fst_zip (by rw [hlength, List.length_map])
  · intro x s hmem a
    obtain ⟨i, hi⟩ := List.mem_iff_getElem?.mp hmem
    obtain ⟨hkey, hset⟩ := List.getElem?_zip_eq_some.mp hi
    have hs : a ∈ s ↔ Holds (traverse (positions nodes successors)
        (nodes.map Prod.snd).toArray) i a := by
      rw [Holds, ← Array.getElem?_toList, hset]
      simp
    have hlt : i < nodes.length := by simpa using (List.getElem?_eq_some_iff.mp hkey).1
    rw [hs, holds_traverse mem_union, hsize]
    constructor
    · rintro ⟨-, j, hreach, ha⟩
      obtain ⟨y, hj, hpath⟩ := hreach.exists_key distinct hkey
      obtain ⟨u, hu, ha⟩ := (holds_values_iff hj).mp ha
      exact ⟨y, u, hpath, List.mem_of_getElem? hu, ha⟩
    · rintro ⟨y, u, hpath, hu, ha⟩
      obtain ⟨j, hj, hreach⟩ := exists_reaches distinct hpath hkey
      obtain ⟨k, hk⟩ := List.mem_iff_getElem?.mp hu
      have hkj : k = j := by
        have hk' : (nodes.map Prod.fst)[k]? = some y := by rw [List.getElem?_map, hk]; rfl
        exact (List.getElem?_inj (List.getElem?_eq_some_iff.mp hk').1 distinct).mp
          (hk'.trans hj.symm)
      exact ⟨hlt, j, hreach, (holds_values_iff hj).mpr ⟨u, hkj ▸ hk, ha⟩⟩

def entangled : List (Nat × TerminalSet) :=
  [(10, .singleton 0), (20, .singleton 1), (30, .singleton 2), (40, .singleton 3),
    (50, .singleton 4)]

def entangledSuccessors : Nat → List Nat
  | 10 => [20, 20]
  | 20 => [30]
  | 30 => [20, 40, 99]
  | 40 => [40, 30, 20]
  | 50 => [10]
  | _ => []

theorem closeMap_entangled :
    closeMap entangled entangledSuccessors =
        [(10, .ofList [0, 1, 2, 3]), (20, .ofList [1, 2, 3]), (30, .ofList [1, 2, 3]),
          (40, .ofList [1, 2, 3]), (50, .ofList [0, 1, 2, 3, 4])] ∧
      ∃ y u, Relation.ReflTransGen (KeyEdge entangled entangledSuccessors) 50 y ∧
        (y, u) ∈ entangled ∧ 3 ∈ u := by
  have hclosed : closeMap entangled entangledSuccessors =
      [(10, .ofList [0, 1, 2, 3]), (20, .ofList [1, 2, 3]), (30, .ofList [1, 2, 3]),
        (40, .ofList [1, 2, 3]), (50, .ofList [0, 1, 2, 3, 4])] := by
    simp only [closeMap, positions, Numbering.find?_eq_findIdx?, Numbering.keys_ofList_eq]
    decide +kernel
  refine ⟨hclosed, ?_⟩
  have hexact := closeMap_exact TerminalSet.mem_union entangled entangledSuccessors (by decide)
  exact (hexact.2 50 (.ofList [0, 1, 2, 3, 4]) (by simp [hclosed]) 3).mp
    (TerminalSet.mem_ofList.mpr (by decide))

end TableParsing.Propagation
