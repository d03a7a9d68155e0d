import Mathlib.Logic.Relation
import TableParsing.Proofs.Grammar.FirstFollow

/-! Derivations and derivation trees. A forest that yields a word completes its productions
from left to right and from the leaves up; read backwards, they are those of a rightmost
derivation, and every rightmost derivation comes from a forest in this way. -/

namespace TableParsing

/-- A leaf is a terminal with what was read for it. -/
inductive Tree (α : Type)
  | leaf (t : Nat) (read : α)
  | node (production : Nat) (children : List (Tree α))

namespace Grammar

inductive Rewrites (g : Grammar) : List Symbol → List Symbol → Prop
  | rule (α β : List Symbol) {p : Nat} : p < g.productions.size →
      Rewrites g (α ++ .nonterminal (g.production p).left :: β)
        (α ++ (g.production p).right.toList ++ β)

def Derives (g : Grammar) : List Symbol → List Symbol → Prop := Relation.ReflTransGen g.Rewrites

/-- A derivation by the given productions in which only terminals stand to the right of the
nonterminal replaced. -/
inductive Rightmost (g : Grammar) : List Symbol → List Nat → List Symbol → Prop
  | refl (α : List Symbol) : Rightmost g α [] α
  | head {α β : List Symbol} {u ps : List Nat} {p : Nat} : p < g.productions.size →
      Rightmost g (α ++ (g.production p).right.toList ++ u.map .terminal) ps β →
      Rightmost g (α ++ .nonterminal (g.production p).left :: u.map .terminal) (p :: ps) β

/-- The trees have the given roots and leaves and complete the given productions, each after
those of its right side. -/
inductive Yields (g : Grammar) {α : Type} :
    List (Tree α) → List Symbol → List (Nat × α) → List Nat → Prop
  | nil : Yields g [] [] [] []
  | leaf {trees : List (Tree α)} {γ : List Symbol} {w : List (Nat × α)} {ps : List Nat}
      (t : Nat) (read : α) : Yields g trees γ w ps →
      Yields g (.leaf t read :: trees) (.terminal t :: γ) ((t, read) :: w) ps
  | node {children trees : List (Tree α)} {γ : List Symbol} {w w' : List (Nat × α)}
      {p : Nat} {ps ps' : List Nat} : p < g.productions.size →
      Yields g children (g.production p).right.toList w ps → Yields g trees γ w' ps' →
      Yields g (.node p children :: trees) (.nonterminal (g.production p).left :: γ)
        (w ++ w') (ps ++ p :: ps')

variable {g : Grammar}

theorem Rightmost.trans {α β γ : List Symbol} {ps qs : List Nat} (h : g.Rightmost α ps β)
    (h' : g.Rightmost β qs γ) : g.Rightmost α (ps ++ qs) γ := by
  induction h with
  | refl => exact h'
  | head hp _ ih => exact .head hp (ih h')

theorem Rightmost.derives {α β : List Symbol} {ps : List Nat} (h : g.Rightmost α ps β) :
    g.Derives α β := by
  induction h with
  | refl => exact .refl
  | head hp _ ih => exact .head (.rule _ _ hp) ih

namespace Yields

variable {α : Type} {trees : List (Tree α)} {γ : List Symbol} {w : List (Nat × α)} {ps : List Nat}

theorem append (h : g.Yields trees γ w ps) {trees' : List (Tree α)} {γ' : List Symbol}
    {w' : List (Nat × α)} {ps' : List Nat} (h' : g.Yields trees' γ' w' ps') :
    g.Yields (trees ++ trees') (γ ++ γ') (w ++ w') (ps ++ ps') := by
  induction h with
  | nil => exact h'
  | leaf t read _ ih => exact .leaf t read ih
  | node hp hchildren _ _ ih =>
    rw [List.append_assoc, List.append_assoc]
    exact .node hp hchildren ih

theorem split {γ γ' : List Symbol} (h : g.Yields trees (γ ++ γ') w ps) :
    ∃ before after u v qs rs, trees = before ++ after ∧ w = u ++ v ∧ ps = qs ++ rs ∧
      before.length = γ.length ∧ g.Yields before γ u qs ∧ g.Yields after γ' v rs := by
  induction γ generalizing trees w ps with
  | nil => exact ⟨[], trees, [], w, [], ps, rfl, rfl, rfl, rfl, .nil, h⟩
  | cons x γ ih =>
    cases h with
    | leaf t read h =>
      obtain ⟨before, after, u, v, qs, rs, rfl, rfl, rfl, hlen, hbefore, hafter⟩ := ih h
      exact ⟨_ :: before, after, _ :: u, v, qs, rs, rfl, rfl, rfl, by simp [hlen],
        .leaf t read hbefore, hafter⟩
    | node hp hchildren h =>
      obtain ⟨before, after, u, v, qs, rs, rfl, rfl, rfl, hlen, hbefore, hafter⟩ := ih h
      exact ⟨_ :: before, after, _, v, _, rs, rfl, (List.append_assoc _ _ _).symm, by simp,
        by simp [hlen], .node hp hchildren hbefore, hafter⟩

theorem length_eq (h : g.Yields trees γ w ps) : trees.length = γ.length := by
  induction h with
  | nil => rfl
  | leaf _ _ _ ih => rw [List.length_cons, List.length_cons, ih]
  | node _ _ _ _ ih => rw [List.length_cons, List.length_cons, ih]

theorem word (w : List (Nat × α)) :
    g.Yields (w.map fun e => .leaf e.1 e.2) (w.map fun e => .terminal e.1) w [] := by
  induction w with
  | nil => exact .nil
  | cons e w ih => exact .leaf e.1 e.2 ih

theorem eq_nil_of_terminals {u : List Nat} (h : g.Yields trees (u.map .terminal) w ps) :
    ps = [] := by
  induction u generalizing trees w ps with
  | nil =>
    cases h
    rfl
  | cons t u ih =>
    cases h with
    | leaf t read h => exact ih h

theorem rightmost (h : g.Yields trees γ w ps) (β : List Symbol) (u : List Nat) :
    g.Rightmost (β ++ γ ++ u.map .terminal) ps.reverse
      (β ++ w.map (fun e => .terminal e.1) ++ u.map .terminal) := by
  induction h generalizing β u with
  | nil => exact .refl _
  | @leaf trees γ w ps t read _ ih =>
    have hrest := ih (β ++ [.terminal t]) u
    simpa using hrest
  | @node children trees γ w w' p ps ps' hp _ _ ihchildren ihrest =>
    have hrest := ihrest (β ++ [.nonterminal (g.production p).left]) u
    have hfirst := Rightmost.head (u := w'.map (·.1) ++ u) hp
      (ihchildren β (w'.map (·.1) ++ u))
    simp only [List.map_append, List.map_map, Function.comp_def, List.append_assoc,
      List.cons_append, List.nil_append, List.reverse_append, List.reverse_cons]
      at hrest hfirst ⊢
    exact hrest.trans hfirst

theorem fold {γ β : List Symbol} {p : Nat} (hp : p < g.productions.size)
    (h : g.Yields trees (γ ++ (g.production p).right.toList ++ β) w ps) :
    ∃ before children after qs rs, trees = before ++ children ++ after ∧ ps = qs ++ rs ∧
      children.length = (g.production p).right.size ∧
      g.Yields (before ++ .node p children :: after)
        (γ ++ .nonterminal (g.production p).left :: β) w (qs ++ p :: rs) ∧
      ∃ v, g.Yields after β v rs := by
  obtain ⟨front, after, u, v, qs, rs, rfl, rfl, rfl, -, hfront, hafter⟩ := h.split
  obtain ⟨before, children, u, u', qs, qs', rfl, rfl, rfl, -, hbefore, hchildren⟩ :=
    hfront.split
  refine ⟨before, children, after, qs ++ qs', rs, rfl, rfl, ?_, ?_, v, hafter⟩
  · simpa using hchildren.length_eq
  · have hall := hbefore.append (.node hp hchildren hafter)
    simpa using hall

end Yields

theorem Rightmost.exists_yields {α : Type} {γ : List Symbol} {ps : List Nat}
    {w : List (Nat × α)} (h : g.Rightmost γ ps (w.map fun e => .terminal e.1)) :
    ∃ trees : List (Tree α), g.Yields trees γ w ps.reverse := by
  generalize hβ : w.map (fun e => Symbol.terminal e.1) = β at h
  induction h with
  | refl =>
    subst hβ
    exact ⟨_, .word w⟩
  | @head γ β u ps p hp _ ih =>
    obtain ⟨trees, htrees⟩ := ih hβ
    obtain ⟨before, children, after, qs, rs, -, hps, -, hyields, v, hafter⟩ := htrees.fold hp
    -- only terminals stand to the right, so nothing is completed after the new node
    have hrs := hafter.eq_nil_of_terminals
    subst hrs
    rw [List.reverse_cons, hps, List.append_nil]
    exact ⟨_, hyields⟩

theorem Derives.exists_yields {α : Type} {γ : List Symbol} {w : List (Nat × α)}
    (h : g.Derives γ (w.map fun e => .terminal e.1)) :
    ∃ (trees : List (Tree α)) (ps : List Nat), g.Yields trees γ w ps := by
  induction h using Relation.ReflTransGen.head_induction_on with
  | refl => exact ⟨_, _, .word w⟩
  | head hstep _ ih =>
    obtain ⟨trees, ps, htrees⟩ := ih
    cases hstep with
    | rule β δ hp =>
      obtain ⟨before, children, after, qs, rs, -, -, -, hyields, -⟩ := htrees.fold hp
      exact ⟨_, _, hyields⟩

theorem exists_yields_nil {α : Type} {γ : List Symbol}
    (h : ∀ x ∈ γ, ∃ (trees : List (Tree α)) (ps : List Nat), g.Yields trees [x] [] ps) :
    ∃ (trees : List (Tree α)) (ps : List Nat), g.Yields trees γ [] ps := by
  induction γ with
  | nil => exact ⟨[], [], .nil⟩
  | cons x γ ih =>
    rw [List.forall_mem_cons] at h
    obtain ⟨trees, ps, htrees⟩ := h.1
    obtain ⟨rest, qs, hrest⟩ := ih h.2
    exact ⟨_, _, htrees.append hrest⟩

theorem Nullable.exists_yields {α : Type} {x : Symbol} (h : g.Nullable x) :
    ∃ (trees : List (Tree α)) (ps : List Nat), g.Yields trees [x] [] ps := by
  cases x with
  | terminal t => exact absurd h (not_nullable_terminal t)
  | nonterminal n =>
    have hmark : (FirstFollow.nullableSettle g.productions g.nonterminals.size
        (Array.replicate g.nonterminals.size false)).getD n false = true := by
      rw [← sets_nullable]
      exact h
    refine FirstFollow.nullableSettle_least
      (Q := fun n => ∃ (trees : List (Tree α)) (ps : List Nat),
        g.Yields trees [.nonterminal n] [] ps) ?_ ?_ _ n hmark
    · intro q hq hright
      obtain ⟨p, hp, rfl⟩ := exists_production hq
      have hall : ∀ x ∈ (g.production p).right.toList,
          ∃ (trees : List (Tree α)) (ps : List Nat), g.Yields trees [x] [] ps := by
        intro x hx
        obtain ⟨m, rfl, hm⟩ := hright x (Array.mem_toList_iff.mp hx)
        exact hm
      obtain ⟨children, ps, hchildren⟩ := exists_yields_nil hall
      exact ⟨_, _, .node hp hchildren .nil⟩
    · intro m hm
      rw [Array.getD_eq_getD_getElem?, Array.getElem?_replicate] at hm
      split at hm <;> simp at hm

namespace Yields

variable (wf : g.WellFormed) {α : Type} {trees : List (Tree α)} {γ : List Symbol}
  {w : List (Nat × α)} {ps : List Nat}

include wf

theorem proper (h : g.Yields trees γ w ps) (hγ : ∀ x ∈ γ, g.Proper x) :
    ∀ e ∈ w, g.Proper (.terminal e.1) := by
  induction h with
  | nil => simp
  | leaf t read _ ih =>
    rw [List.forall_mem_cons] at hγ ⊢
    exact ⟨hγ.1, ih hγ.2⟩
  | @node children trees γ w w' p ps ps' hp _ _ ihchildren ihrest =>
    rw [List.forall_mem_cons] at hγ
    have hzero : p ≠ 0 := by
      intro hzero
      have hleft := hγ.1.1
      rw [hzero, wf.accepting] at hleft
      exact hleft rfl
    have hright : ∀ x ∈ (g.production p).right.toList, g.Proper x :=
      fun x hx => wf.right_proper p hzero x (Array.mem_toList_iff.mp hx)
    intro e he
    rcases List.mem_append.mp he with he | he
    · exact ihchildren hright e he
    · exact ihrest hγ.2 e he

theorem nullable_of_nil (h : g.Yields trees γ [] ps) : ∀ x ∈ γ, g.Nullable x := by
  generalize hw : ([] : List (Nat × α)) = w at h
  induction h with
  | nil => simp
  | leaf => cases hw
  | @node children trees γ w w' p ps ps' hp _ _ ihchildren ihrest =>
    obtain ⟨rfl, rfl⟩ := List.append_eq_nil_iff.mp hw.symm
    rw [List.forall_mem_cons]
    refine ⟨wf.nullable_left hp fun x hx => ?_, ihrest rfl⟩
    exact ihchildren rfl x (Array.mem_toList_iff.mpr hx)

theorem mem_first {e : Nat × α} (h : g.Yields trees γ (e :: w) ps) :
    e.1 ∈ (g.prefixes γ).first := by
  generalize hw : e :: w = w' at h
  induction h generalizing w with
  | nil => cases hw
  | leaf t read _ _ =>
    cases hw
    exact wf.mem_prefixes_cons.mpr (Or.inl (.terminal t))
  | @node children trees γ u u' p ps ps' hp hchildren _ ihchildren ihrest =>
    rw [wf.mem_prefixes_cons]
    cases u with
    | nil =>
      refine Or.inr ⟨wf.nullable_left hp fun x hx => ?_, ihrest hw⟩
      exact hchildren.nullable_of_nil wf x (Array.mem_toList_iff.mpr hx)
    | cons f u =>
      cases hw
      obtain ⟨β, x, δ, hright, hβ, hx⟩ := wf.mem_prefixes.mp (ihchildren rfl)
      refine Or.inl (.nonterminal ⟨p, ?_, β, δ, hright, hβ⟩ hx)
      exact mem_productionsOf.mpr ⟨hp, rfl⟩

end Yields

end Grammar

end TableParsing
