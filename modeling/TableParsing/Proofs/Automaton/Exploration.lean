import Mathlib.Data.List.Forall2
import TableParsing.Automaton.Exploration
import TableParsing.Proofs.Numbering

/-! A finished exploration lists every reachable kernel once. The state reached by reading a
prefix is the number of the kernel that the prefix leads to, so what a construction says about
kernels carries over to the numbered states. -/

namespace TableParsing

theorem lookup_iff_mem {κ α : Type} [BEq κ] [LawfulBEq κ] {l : List (κ × α)}
    (nodup : (l.map (·.1)).Nodup) {x : κ} {a : α} : l.lookup x = some a ↔ (x, a) ∈ l := by
  constructor
  · intro h
    obtain ⟨before, after, rfl, -⟩ := List.lookup_eq_some_iff.mp h
    simp
  · intro h
    induction l with
    | nil => exact absurd h List.not_mem_nil
    | cons e l ih =>
      obtain ⟨hfresh, nodup⟩ := List.nodup_cons.mp nodup
      rcases List.mem_cons.mp h with rfl | h
      · simp
      · have hne : (x == e.1) = false := by
          refine beq_false_of_ne fun heq => hfresh ?_
          exact List.mem_map.mpr ⟨(x, a), h, heq⟩
        rw [List.lookup_cons, hne]
        exact ih nodup h

theorem lookup_of_perm {κ α : Type} [BEq κ] [LawfulBEq κ] {l l' : List (κ × α)} (h : l.Perm l')
    (nodup : (l.map (·.1)).Nodup) (x : κ) : l.lookup x = l'.lookup x := by
  apply Option.ext
  intro a
  rw [lookup_iff_mem nodup, lookup_iff_mem ((h.map _).nodup nodup), h.mem_iff]

theorem perm_of_agree {κ α : Type} {l l' : List (κ × α)} (nodup : (l.map (·.1)).Nodup)
    (nodup' : (l'.map (·.1)).Nodup) (keys : ∀ x, x ∈ l.map (·.1) ↔ x ∈ l'.map (·.1))
    (agree : ∀ x a b, (x, a) ∈ l → (x, b) ∈ l' → a = b) : l.Perm l' := by
  rw [List.perm_ext_iff_of_nodup nodup.of_map nodup'.of_map]
  rintro ⟨x, a⟩
  constructor
  · intro h
    obtain ⟨⟨y, b⟩, hb, rfl⟩ := List.mem_map.mp ((keys x).mp (List.mem_map_of_mem h))
    exact agree y a b h hb ▸ hb
  · intro h
    obtain ⟨⟨y, b⟩, hb, rfl⟩ := List.mem_map.mp ((keys x).mpr (List.mem_map_of_mem h))
    exact agree y b a hb h ▸ hb

/-- The state reached from state `0` by a prefix, whose latest symbol stands first. -/
def stateAfter (step : Nat → Symbol → Option Nat) : List Symbol → Option Nat
  | [] => some 0
  | x :: γ => (stateAfter step γ).bind (step · x)

def stateFrom (step : Nat → Symbol → Option Nat) (s : Nat) : List Symbol → Option Nat
  | [] => some s
  | x :: γ => (stateFrom step s γ).bind (step · x)

theorem stateAfter_append (step : Nat → Symbol → Option Nat) (γ δ : List Symbol) :
    stateAfter step (γ ++ δ) = (stateAfter step δ).bind (stateFrom step · γ) := by
  induction γ with
  | nil => exact (Option.bind_fun_some _).symm
  | cons x γ ih =>
    rw [List.cons_append, stateAfter, ih, Option.bind_assoc]
    rfl

theorem stateFrom_append (step : Nat → Symbol → Option Nat) (s : Nat) (γ δ : List Symbol) :
    stateFrom step s (γ ++ δ) = (stateFrom step s δ).bind (stateFrom step · γ) := by
  induction γ with
  | nil => exact (Option.bind_fun_some _).symm
  | cons x γ ih =>
    rw [List.cons_append, stateFrom, ih, Option.bind_assoc]
    rfl

namespace Exploration

variable {κ σ : Type}

abbrev Targets (number? : Nat → Option κ) : List (Symbol × κ) → List (Symbol × Nat) → Prop :=
  List.Forall₂ fun e t => e.1 = t.1 ∧ number? t.2 = some e.2

theorem Targets.mono {f f' : Nat → Option κ} (h : ∀ j k, f j = some k → f' j = some k)
    {l : List (Symbol × κ)} {ts : List (Symbol × Nat)} (ht : Targets f l ts) :
    Targets f' l ts :=
  List.Forall₂.imp (fun _ _ he => ⟨he.1, h _ _ he.2⟩) ht

theorem Targets.lookup {f : Nat → Option κ} {l : List (Symbol × κ)} {ts : List (Symbol × Nat)}
    (h : Targets f l ts) (x : Symbol) :
    l.lookup x = none ∧ ts.lookup x = none ∨
      ∃ k j, l.lookup x = some k ∧ ts.lookup x = some j ∧ f j = some k := by
  induction h with
  | nil => exact Or.inl ⟨rfl, rfl⟩
  | @cons e t l ts he _ ih =>
    obtain ⟨y, k⟩ := e
    obtain ⟨z, j⟩ := t
    obtain ⟨rfl, hj⟩ := he
    by_cases hx : x = y
    · exact Or.inr ⟨k, j, by simp [hx], by simp [hx], hj⟩
    · have hne : (x == y) = false := beq_false_of_ne hx
      simp only [List.lookup_cons, hne]
      exact ih

theorem Targets.symbols {f : Nat → Option κ} {l : List (Symbol × κ)} {ts : List (Symbol × Nat)}
    (h : Targets f l ts) : l.map (·.1) = ts.map (·.1) := by
  induction h with
  | nil => rfl
  | cons he _ ih => rw [List.map_cons, List.map_cons, he.1, ih]

theorem Targets.exists_of_mem {f : Nat → Option κ} {l : List (Symbol × κ)}
    {ts : List (Symbol × Nat)} (h : Targets f l ts) {x : Symbol} {j : Nat} (hj : (x, j) ∈ ts) :
    ∃ k, (x, k) ∈ l ∧ f j = some k := by
  induction h with
  | nil => cases hj
  | @cons e t l ts he _ ih =>
    rcases List.mem_cons.mp hj with rfl | hj
    · exact ⟨e.2, List.mem_cons.mpr (.inl (Prod.ext he.1.symm rfl)), he.2⟩
    · obtain ⟨k, hk, hf⟩ := ih hj
      exact ⟨k, List.mem_cons_of_mem _ hk, hf⟩

variable {contents : κ → σ} {next : σ → List (Symbol × κ)} {start : κ}

/-- A finished exploration: every kernel that follows is among the nodes, each once. -/
structure Complete (contents : κ → σ) (next : σ → List (Symbol × κ)) (start : κ)
    (nodes : Array (Node κ σ)) : Prop where
  first : (nodes[0]?).map (·.kernel) = some start
  contents_eq : ∀ (s : Nat) (node : Node κ σ), nodes[s]? = some node →
    node.contents = contents node.kernel
  targets : ∀ (s : Nat) (node : Node κ σ), nodes[s]? = some node →
    Targets (fun j => (nodes[j]?).map (·.kernel)) (next node.contents) node.transitions
  injective : ∀ (s s' : Nat) (node node' : Node κ σ), nodes[s]? = some node →
    nodes[s']? = some node' → node.kernel = node'.kernel → s = s'
  reached : ∀ j, j < nodes.size →
    j = 0 ∨ ∃ s node x, s < j ∧ nodes[s]? = some node ∧ (x, j) ∈ node.transitions

def kernelAfter (contents : κ → σ) (next : σ → List (Symbol × κ)) (start : κ) :
    List Symbol → Option κ
  | [] => some start
  | x :: γ => (kernelAfter contents next start γ).bind fun k => (next (contents k)).lookup x

def step (nodes : Array (Node κ σ)) (s : Nat) (x : Symbol) : Option Nat :=
  (nodes[s]?).bind (·.transitions.lookup x)

namespace Complete

variable {nodes : Array (Node κ σ)} (h : Complete contents next start nodes)

include h

theorem kernelAfter_eq (γ : List Symbol) :
    kernelAfter contents next start γ =
      (stateAfter (step nodes) γ).bind fun s => (nodes[s]?).map (·.kernel) := by
  induction γ with
  | nil => exact h.first.symm
  | cons x γ ih =>
    simp only [kernelAfter, ih, stateAfter]
    cases hs : stateAfter (step nodes) γ with
    | none => rfl
    | some s =>
      simp only [Option.bind_some, step]
      cases hnode : nodes[s]? with
      | none => rfl
      | some node =>
        simp only [Option.map_some, Option.bind_some, ← h.contents_eq s node hnode]
        rcases (h.targets s node hnode).lookup x with ⟨hl, ht⟩ | ⟨k, j, hl, ht, hj⟩
        · rw [hl, ht]
          rfl
        · rw [hl, ht]
          exact hj.symm

theorem exists_node {γ : List Symbol} {s : Nat} (hs : stateAfter (step nodes) γ = some s) :
    ∃ node, nodes[s]? = some node ∧
      kernelAfter contents next start γ = some node.kernel := by
  have hlt : s < nodes.size := by
    cases γ with
    | nil =>
      cases hs
      obtain ⟨node, hnode, -⟩ := Option.map_eq_some_iff.mp h.first
      exact (Array.getElem?_eq_some_iff.mp hnode).1
    | cons x γ =>
      simp only [stateAfter, Option.bind_eq_some_iff, step] at hs
      obtain ⟨s', -, node, hnode, hs⟩ := hs
      rcases (h.targets s' node hnode).lookup x with ⟨-, ht⟩ | ⟨k, j, -, ht, hj⟩
      · rw [ht] at hs
        cases hs
      · rw [ht] at hs
        cases hs
        obtain ⟨node, hnode, -⟩ := Option.map_eq_some_iff.mp hj
        exact (Array.getElem?_eq_some_iff.mp hnode).1
  refine ⟨nodes[s], Array.getElem?_eq_getElem hlt, ?_⟩
  rw [h.kernelAfter_eq, hs, Option.bind_some, Array.getElem?_eq_getElem hlt]
  rfl

theorem exists_stateAfter (nodup : ∀ c, ((next c).map (·.1)).Nodup) {s : Nat}
    (hs : s < nodes.size) : ∃ γ, stateAfter (step nodes) γ = some s := by
  induction s using Nat.strongRecOn with
  | ind s ih =>
    rcases h.reached s hs with rfl | ⟨s', node, x, hlt, hnode, hx⟩
    · exact ⟨[], rfl⟩
    · obtain ⟨γ, hγ⟩ := ih s' hlt (Array.getElem?_eq_some_iff.mp hnode).1
      refine ⟨x :: γ, ?_⟩
      simp only [stateAfter, hγ, Option.bind_some, step, hnode]
      refine (lookup_iff_mem ?_).mpr hx
      rw [← (h.targets s' node hnode).symbols]
      exact nodup _

end Complete

section Search

variable [BEq κ] [Hashable κ] [LawfulBEq κ]

structure Numbers (limit : Nat) (l : List (Symbol × κ)) (known known' : Numbering κ)
    (ts : List (Symbol × Nat)) : Prop where
  keep : ∀ (j : Nat) (k : κ), known.keys[j]? = some k → known'.keys[j]? = some k
  targets : Targets (fun j => known'.keys[j]?) l ts
  fresh : ∀ (j : Nat) (k : κ), known'.keys[j]? = some k →
    known.keys[j]? = some k ∨ known.size ≤ j ∧ ∃ x, (x, j) ∈ ts
  size_le : known.size ≤ known'.size
  bound : known.size ≤ limit → known'.size ≤ limit

omit [LawfulBEq κ] in
theorem Numbers.found {limit : Nat} {l : List (Symbol × κ)} {known known' : Numbering κ}
    {ts : List (Symbol × Nat)} (rest : Numbers limit l known known' ts) (x : Symbol) {k : κ}
    {i : Nat} (hi : known.find? k = some i) :
    Numbers limit ((x, k) :: l) known known' ((x, i) :: ts) := by
  have hkey := rest.keep i k (known.find?_eq_some_iff.mp hi)
  refine ⟨rest.keep, .cons ⟨rfl, hkey⟩ rest.targets, ?_, rest.size_le, rest.bound⟩
  intro j k' hj
  rcases rest.fresh j k' hj with hj | ⟨hle, y, hy⟩
  · exact Or.inl hj
  · exact Or.inr ⟨hle, y, List.mem_cons_of_mem _ hy⟩

theorem Numbers.push {limit : Nat} {l : List (Symbol × κ)} {known known' : Numbering κ}
    {ts : List (Symbol × Nat)} (x : Symbol) {k : κ} (hnew : known.find? k = none)
    (hlt : known.size < limit) (rest : Numbers limit l (known.push k hnew) known' ts) :
    Numbers limit ((x, k) :: l) known known' ((x, known.size) :: ts) := by
  have hpush : (known.push k hnew).keys = known.keys.push k := rfl
  have hsize : (known.push k hnew).size = known.size + 1 := by
    simp only [Numbering.size, hpush, Array.size_push]
  have hkey : (known.push k hnew).keys[known.size]? = some k := by
    rw [hpush]
    exact Array.getElem?_push_size
  have hle := rest.size_le
  refine ⟨?_, .cons ⟨rfl, rest.keep _ _ hkey⟩ rest.targets, ?_, by omega,
    fun _ => rest.bound (by omega)⟩
  · intro j k' hj
    apply rest.keep j k'
    have hlt := (Array.getElem?_eq_some_iff.mp hj).1
    rw [hpush, Array.getElem?_push_lt hlt, ← hj, Array.getElem?_eq_getElem]
  · intro j k' hj
    rcases rest.fresh j k' hj with hj | ⟨hle, y, hy⟩
    · rw [hpush, Array.getElem?_push] at hj
      split at hj
      case isTrue hjs => exact Or.inr ⟨hjs ▸ Nat.le_refl _, x, by simp [hjs, Numbering.size]⟩
      case isFalse => exact Or.inl hj
    · exact Or.inr ⟨by omega, y, List.mem_cons_of_mem _ hy⟩

theorem number_ok {limit : Nat} {l : List (Symbol × κ)} {known known' : Numbering κ}
    {ts : List (Symbol × Nat)} (h : number limit l known = .ok (known', ts)) :
    Numbers limit l known known' ts := by
  induction l generalizing known ts with
  | nil =>
    cases h
    exact ⟨fun _ _ hk => hk, .nil, fun _ _ hk => Or.inl hk, Nat.le_refl _, fun hb => hb⟩
  | cons e l ih =>
    obtain ⟨x, k⟩ := e
    simp only [number] at h
    split at h
    case h_1 i hi =>
      split at h
      case h_1 known'' ts' hrest =>
        cases h
        exact (ih hrest).found x hi
      case h_2 => cases h
    case h_2 hnew =>
      split at h
      case isTrue hlt =>
        split at h
        case h_1 known'' ts' hrest =>
          cases h
          exact (ih hrest).push x hnew hlt
        case h_2 => cases h
      case isFalse => cases h

structure Progress (contents : κ → σ) (next : σ → List (Symbol × κ)) (start : κ)
    (known : Numbering κ) (nodes : Array (Node κ σ)) : Prop where
  size_le : nodes.size ≤ known.size
  first : known.keys[0]? = some start
  kernel : ∀ (s : Nat) (node : Node κ σ), nodes[s]? = some node → known.keys[s]? = some node.kernel
  contents_eq : ∀ (s : Nat) (node : Node κ σ), nodes[s]? = some node →
    node.contents = contents node.kernel
  targets : ∀ (s : Nat) (node : Node κ σ), nodes[s]? = some node →
    Targets (fun j => known.keys[j]?) (next node.contents) node.transitions
  reached : ∀ (j : Nat) (k : κ), known.keys[j]? = some k →
    j = 0 ∨ ∃ s node x, s < j ∧ nodes[s]? = some node ∧ (x, j) ∈ node.transitions

theorem Progress.expand_one {limit : Nat} {known known' : Numbering κ}
    {nodes : Array (Node κ σ)} {kernel : κ} {ts : List (Symbol × Nat)}
    (h : Progress contents next start known nodes)
    (hkernel : known.keys[nodes.size]? = some kernel)
    (hnumber : number limit (next (contents kernel)) known = .ok (known', ts)) :
    Progress contents next start known' (nodes.push ⟨kernel, contents kernel, ts⟩) := by
  have hn := number_ok hnumber
  have hlt : nodes.size < known.size := (Array.getElem?_eq_some_iff.mp hkernel).1
  have hle := hn.size_le
  have node_cases : ∀ (s : Nat) (node : Node κ σ),
      (nodes.push ⟨kernel, contents kernel, ts⟩)[s]? = some node →
      nodes[s]? = some node ∨ s = nodes.size ∧ node = ⟨kernel, contents kernel, ts⟩ := by
    intro s node hs
    rw [Array.getElem?_push] at hs
    split at hs
    case isTrue heq =>
      cases hs
      exact Or.inr ⟨heq, rfl⟩
    case isFalse => exact Or.inl hs
  have keep_node : ∀ (s : Nat) (node : Node κ σ), nodes[s]? = some node →
      (nodes.push ⟨kernel, contents kernel, ts⟩)[s]? = some node := by
    intro s node hs
    have hs' := (Array.getElem?_eq_some_iff.mp hs).1
    rw [Array.getElem?_push, if_neg (by omega), hs]
  refine ⟨?_, hn.keep _ _ h.first, ?_, ?_, ?_, ?_⟩
  · rw [Array.size_push]
    omega
  · intro s node hs
    rcases node_cases s node hs with hs | ⟨rfl, rfl⟩
    · exact hn.keep _ _ (h.kernel s node hs)
    · exact hn.keep _ _ hkernel
  · intro s node hs
    rcases node_cases s node hs with hs | ⟨rfl, rfl⟩
    · exact h.contents_eq s node hs
    · rfl
  · intro s node hs
    rcases node_cases s node hs with hs | ⟨rfl, rfl⟩
    · exact (h.targets s node hs).mono hn.keep
    · exact hn.targets
  · intro j k hj
    rcases hn.fresh j k hj with hj | ⟨hsize, x, hx⟩
    · rcases h.reached j k hj with rfl | ⟨s, node, x, hs, hnode, hx⟩
      · exact Or.inl rfl
      · exact Or.inr ⟨s, node, x, hs, keep_node s node hnode, hx⟩
    · exact Or.inr ⟨nodes.size, _, x, by omega, Array.getElem?_push_size, hx⟩

theorem expand_ok {limit fuel : Nat} {known : Numbering κ} {nodes out : Array (Node κ σ)}
    (h : Progress contents next start known nodes) (hbound : known.size ≤ limit)
    (hfuel : limit < fuel + nodes.size)
    (hout : expand limit contents next fuel known nodes = .ok out) :
    ∃ known' : Numbering κ, Progress contents next start known' out ∧ known'.size ≤ out.size := by
  induction fuel generalizing known nodes with
  | zero =>
    have hsize := h.size_le
    omega
  | succ fuel ih =>
    simp only [expand] at hout
    split at hout
    case h_1 hnone =>
      cases hout
      exact ⟨known, h, Array.getElem?_eq_none_iff.mp hnone⟩
    case h_2 kernel hkernel =>
      split at hout
      case h_1 => cases hout
      case h_2 known' ts hnumber =>
        refine ih (h.expand_one hkernel hnumber) ((number_ok hnumber).bound hbound) ?_ hout
        rw [Array.size_push]
        omega

theorem explore_ok {limit : Nat} {nodes : Array (Node κ σ)} (hlimit : 0 < limit)
    (h : explore limit contents next start = .ok nodes) :
    Complete contents next start nodes := by
  have hkeys : (Numbering.empty.insert start).keys = #[start] := by
    rw [Numbering.keys_insert_of_notMem _ (by simp [Numbering.empty])]
    rfl
  have hsize : (Numbering.empty.insert start).size = 1 := by
    simp only [Numbering.size, hkeys]
    rfl
  have begun : Progress contents next start (Numbering.empty.insert start) #[] := by
    refine ⟨Nat.zero_le _, by rw [hkeys]; rfl, by simp, by simp, by simp, ?_⟩
    intro j k hj
    have hlt := (Array.getElem?_eq_some_iff.mp hj).1
    simp only [hkeys, Array.size_singleton] at hlt
    exact Or.inl (by omega)
  obtain ⟨known, done, hle⟩ := expand_ok begun (by omega) (by simp) h
  have hkernel : ∀ j : Nat, known.keys[j]? = (nodes[j]?).map (·.kernel) := by
    intro j
    by_cases hj : j < nodes.size
    · rw [Array.getElem?_eq_getElem hj, Option.map_some]
      exact done.kernel j _ (Array.getElem?_eq_getElem hj)
    · have hkeys : known.keys.size ≤ j := by
        have hle : known.keys.size ≤ nodes.size := hle
        omega
      have hnodes : nodes.size ≤ j := by omega
      rw [Array.getElem?_eq_none hkeys, Array.getElem?_eq_none hnodes, Option.map_none]
  refine ⟨by rw [← hkernel]; exact done.first, done.contents_eq, ?_, ?_, ?_⟩
  · intro s node hs
    simpa only [hkernel] using done.targets s node hs
  · intro s s' node node' hs hs' heq
    have hk := done.kernel s node hs
    have hk' := done.kernel s' node' hs'
    rw [← heq] at hk'
    exact known.eq_of_getElem? hk hk'
  · intro j hj
    exact done.reached j _ (done.kernel j _ (Array.getElem?_eq_getElem hj))

theorem expand_size_le {limit fuel : Nat} {known : Numbering κ} {nodes out : Array (Node κ σ)}
    (hsize : nodes.size ≤ known.size) (hbound : known.size ≤ limit)
    (hout : expand limit contents next fuel known nodes = .ok out) : out.size ≤ limit := by
  induction fuel generalizing known nodes with
  | zero =>
    cases hout
    omega
  | succ fuel ih =>
    simp only [expand] at hout
    split at hout
    case h_1 =>
      cases hout
      omega
    case h_2 kernel hkernel =>
      have hlt : nodes.size < known.size := (Array.getElem?_eq_some_iff.mp hkernel).1
      split at hout
      case h_1 => cases hout
      case h_2 known' ts hnumber =>
        have hn := number_ok hnumber
        have hle := hn.size_le
        refine ih ?_ (hn.bound hbound) hout
        rw [Array.size_push]
        omega

theorem explore_size_le {limit : Nat} {nodes : Array (Node κ σ)} (hlimit : 0 < limit)
    (h : explore limit contents next start = .ok nodes) : nodes.size ≤ limit := by
  refine expand_size_le (Nat.zero_le _) ?_ h
  rw [Numbering.size, Numbering.keys_insert_of_notMem _ (by simp [Numbering.empty])]
  exact hlimit

abbrev Led (contents : κ → σ) (next : σ → List (Symbol × κ)) (start k : κ) : Prop :=
  ∃ γ, kernelAfter contents next start γ = some k

omit [LawfulBEq κ] in
theorem Numbers.mem_keys {limit : Nat} {l : List (Symbol × κ)} {known known' : Numbering κ}
    {ts : List (Symbol × Nat)} (h : Numbers limit l known known' ts) {k : κ}
    (hk : k ∈ known'.keys) : k ∈ known.keys ∨ ∃ x, (x, k) ∈ l := by
  obtain ⟨j, hj⟩ := Array.mem_iff_getElem?.mp hk
  rcases h.fresh j k hj with hold | ⟨-, x, hx⟩
  · exact Or.inl (Array.mem_of_getElem? hold)
  · obtain ⟨k', hk', hj'⟩ := h.targets.exists_of_mem hx
    cases hj.symm.trans hj'
    exact Or.inr ⟨x, hk'⟩

theorem number_error {limit : Nat} {l : List (Symbol × κ)} {known : Numbering κ}
    {e : TooManyStates} (h : number limit l known = .error e) :
    ∃ keys : List κ, keys.Nodup ∧ limit < keys.length ∧
      ∀ k ∈ keys, k ∈ known.keys ∨ ∃ x, (x, k) ∈ l := by
  induction l generalizing known with
  | nil => cases h
  | cons entry l ih =>
    obtain ⟨x, k⟩ := entry
    simp only [number] at h
    split at h
    case h_1 i hi =>
      split at h
      case h_1 => cases h
      case h_2 hrest =>
        obtain ⟨keys, nodup, hlt, hkeys⟩ := ih hrest
        refine ⟨keys, nodup, hlt, fun k' hk' => ?_⟩
        exact (hkeys k' hk').imp_right fun ⟨y, hy⟩ => ⟨y, List.mem_cons_of_mem _ hy⟩
    case h_2 hnew =>
      split at h
      case isTrue hroom =>
        split at h
        case h_1 => cases h
        case h_2 hrest =>
          obtain ⟨keys, nodup, hlt, hkeys⟩ := ih hrest
          refine ⟨keys, nodup, hlt, fun k' hk' => ?_⟩
          rcases hkeys k' hk' with hk' | ⟨y, hy⟩
          · rcases Array.mem_push.mp hk' with hk' | rfl
            · exact Or.inl hk'
            · exact Or.inr ⟨x, List.mem_cons_self⟩
          · exact Or.inr ⟨y, List.mem_cons_of_mem _ hy⟩
      case isFalse hfull =>
        have hnotMem := known.find?_eq_none_iff.mp hnew
        refine ⟨k :: known.keys.toList, ?_, ?_, fun k' hk' => ?_⟩
        · exact List.nodup_cons.mpr ⟨by simpa using hnotMem, known.keys_nodup⟩
        · have hsize : known.keys.toList.length = known.size := Array.length_toList
          rw [List.length_cons]
          omega
        · rcases List.mem_cons.mp hk' with rfl | hk'
          · exact Or.inr ⟨x, List.mem_cons_self⟩
          · exact Or.inl (Array.mem_toList_iff.mp hk')

section Overflow

variable (nodup : ∀ c, ((next c).map (·.1)).Nodup)

include nodup

omit [BEq κ] [Hashable κ] [LawfulBEq κ] in
theorem led_next {k k' : κ} {x : Symbol} (h : Led contents next start k)
    (hk' : (x, k') ∈ next (contents k)) : Led contents next start k' := by
  obtain ⟨γ, hγ⟩ := h
  refine ⟨x :: γ, ?_⟩
  rw [kernelAfter, hγ, Option.bind_some]
  exact (lookup_iff_mem (nodup _)).mpr hk'

theorem expand_error {limit fuel : Nat} {known : Numbering κ} {nodes : Array (Node κ σ)}
    {e : TooManyStates} (hknown : ∀ k ∈ known.keys, Led contents next start k)
    (h : expand limit contents next fuel known nodes = .error e) :
    ∃ keys : List κ, keys.Nodup ∧ limit < keys.length ∧
      ∀ k ∈ keys, Led contents next start k := by
  induction fuel generalizing known nodes with
  | zero => cases h
  | succ fuel ih =>
    simp only [expand] at h
    split at h
    case h_1 => cases h
    case h_2 kernel hkernel =>
      have hled := hknown kernel (Array.mem_of_getElem? hkernel)
      have hnext : ∀ k, (k ∈ known.keys ∨ ∃ x, (x, k) ∈ next (contents kernel)) →
          Led contents next start k := by
        rintro k (hk | ⟨x, hx⟩)
        · exact hknown k hk
        · exact led_next nodup hled hx
      split at h
      case h_1 hnumber =>
        obtain ⟨keys, hnodup, hlt, hkeys⟩ := number_error hnumber
        exact ⟨keys, hnodup, hlt, fun k hk => hnext k (hkeys k hk)⟩
      case h_2 known' ts hnumber =>
        exact ih (fun k hk => hnext k ((number_ok hnumber).mem_keys hk)) h

theorem explore_error {limit : Nat} {e : TooManyStates}
    (h : explore limit contents next start = .error e) :
    ∃ keys : List κ, keys.Nodup ∧ limit < keys.length ∧
      ∀ k ∈ keys, Led contents next start k := by
  refine expand_error nodup (fun k hk => ?_) h
  rcases (Numbering.mem_keys_insert _).mp hk with hk | rfl
  · simp [Numbering.empty] at hk
  · exact ⟨[], rfl⟩

end Overflow

end Search

/-- What an exploration finds depends only on the list of kernels, so it can be computed by
searching the list. -/
def numberKeys [BEq κ] (limit : Nat) : List (Symbol × κ) → Array κ →
    Except TooManyStates (Array κ × List (Symbol × Nat))
  | [], keys => .ok (keys, [])
  | (x, k) :: rest, keys =>
    match keys.findIdx? (· == k) with
    | some i => (numberKeys limit rest keys).map fun r => (r.1, (x, i) :: r.2)
    | none =>
      if keys.size < limit then
        (numberKeys limit rest (keys.push k)).map fun r => (r.1, (x, keys.size) :: r.2)
      else .error ⟨⟩

def expandKeys [BEq κ] (limit : Nat) (contents : κ → σ) (next : σ → List (Symbol × κ)) :
    Nat → Array κ → Array (Node κ σ) → Except TooManyStates (Array (Node κ σ))
  | 0, _, nodes => .ok nodes
  | fuel + 1, keys, nodes =>
    match keys[nodes.size]? with
    | none => .ok nodes
    | some kernel =>
      match numberKeys limit (next (contents kernel)) keys with
      | .error e => .error e
      | .ok (keys, transitions) =>
        expandKeys limit contents next fuel keys
          (nodes.push ⟨kernel, contents kernel, transitions⟩)

section Listed

variable [BEq κ] [Hashable κ] [LawfulBEq κ]

theorem number_eq (limit : Nat) (l : List (Symbol × κ)) (known : Numbering κ) :
    (number limit l known).map (fun r => (r.1.keys, r.2)) = numberKeys limit l known.keys := by
  induction l generalizing known with
  | nil => rfl
  | cons e rest ih =>
    obtain ⟨x, k⟩ := e
    have hfind := known.find?_eq_findIdx? k
    rw [number, numberKeys, ← hfind]
    split
    case h_1 i hi =>
      rw [hi, ← ih]
      cases number limit rest known <;> rfl
    case h_2 hk =>
      have hpush : (known.push k hk).keys = known.keys.push k := rfl
      have hsize : known.keys.size = known.size := rfl
      simp only [hk, hsize, ← hpush, ← ih]
      by_cases hlt : known.size < limit
      · simp only [if_pos hlt]
        cases number limit rest (known.push k hk) <;> rfl
      · simp only [if_neg hlt]
        rfl

theorem expand_eq (limit : Nat) (contents : κ → σ) (next : σ → List (Symbol × κ)) (fuel : Nat)
    (known : Numbering κ) (nodes : Array (Node κ σ)) :
    expand limit contents next fuel known nodes =
      expandKeys limit contents next fuel known.keys nodes := by
  induction fuel generalizing known nodes with
  | zero => rfl
  | succ fuel ih =>
    rw [expand, expandKeys]
    cases known.keys[nodes.size]? with
    | none => rfl
    | some kernel =>
      simp only [← number_eq]
      cases number limit (next (contents kernel)) known with
      | error e => rfl
      | ok r => exact ih r.1 _

theorem explore_eq (limit : Nat) (contents : κ → σ) (next : σ → List (Symbol × κ)) (start : κ) :
    explore limit contents next start =
      expandKeys limit contents next (limit + 1) #[start] #[] := by
  rw [explore, expand_eq, Numbering.keys_insert]
  simp [Numbering.empty]

end Listed

end Exploration

end TableParsing
