import TableParsing.Engine.Action
import TableParsing.Proofs.Grammar.Derivation

/-! What an engine does apart from how it finds out what to do: it takes the next token or the
end of input, or it reduces a production and runs its action. Two engines that perform the same
acts on the same tokens run their actions in the same contexts. -/

namespace TableParsing

inductive Act
  | shift
  | finish
  | reduce (production : Nat)

mutual

/-- What a parse from the leaves up does to build the tree. -/
def Tree.acts {α : Type} : Tree α → List Act
  | .leaf t _ => [if t = Symbol.endOfInput then .finish else .shift]
  | .node p children => Tree.actsOf children ++ [.reduce p]

def Tree.actsOf {α : Type} : List (Tree α) → List Act
  | [] => []
  | tree :: trees => tree.acts ++ Tree.actsOf trees

end

theorem Tree.actsOf_append {α : Type} (trees trees' : List (Tree α)) :
    Tree.actsOf (trees ++ trees') = Tree.actsOf trees ++ Tree.actsOf trees' := by
  induction trees with
  | nil => rfl
  | cons tree trees ih => rw [List.cons_append, actsOf, ih, actsOf, List.append_assoc]

theorem Tree.actsOf_accepted {α : Type} (tree : Tree α) (read : α) :
    Tree.actsOf [.node 0 [tree, .leaf Symbol.endOfInput read]] =
      Tree.actsOf [tree] ++ [.finish, .reduce 0] := by
  simp [Tree.actsOf, Tree.acts]

def Act.reduction? : Act → Option Nat
  | shift => none
  | finish => none
  | reduce p => some p

def reductionsOf (acts : List Act) : List Nat := acts.filterMap Act.reduction?

theorem reductionsOf_append (acts acts' : List Act) :
    reductionsOf (acts ++ acts') = reductionsOf acts ++ reductionsOf acts' :=
  List.filterMap_append

theorem Grammar.Yields.reductionsOf_acts {g : Grammar} {α : Type} {trees : List (Tree α)}
    {γ : List Symbol} {w : List (Nat × α)} {ps : List Nat} (h : g.Yields trees γ w ps) :
    reductionsOf (Tree.actsOf trees) = ps := by
  induction h with
  | nil => rfl
  | leaf t read _ ih =>
    rw [Tree.actsOf, reductionsOf_append, ih, Tree.acts]
    split <;> rfl
  | @node children trees γ w w' p ps ps' _ _ _ ihchildren ihrest =>
    rw [Tree.actsOf, Tree.acts, reductionsOf_append, reductionsOf_append, ihchildren, ihrest,
      List.append_assoc]
    rfl

variable {V P : Type}

structure Store (V P : Type) where
  rest : List (Token V)
  entries : List (Entry V)
  params : P

namespace Store

def taken (s : Store V P) (token : Token V) (later : List (Token V)) : Store V P :=
  { s with rest := later, entries := ⟨some token.value, token.location⟩ :: s.entries }

def ended (s : Store V P) : Store V P :=
  { s with entries := ⟨none, topLocation s.entries⟩ :: s.entries }

def context (g : Grammar) (s : Store V P) (p : Nat) : Context V P :=
  .ofReduction p (g.production p).aliases
    (s.entries.take (g.production p).right.size).reverse
    (s.entries.drop (g.production p).right.size) s.params

def reduced (g : Grammar) (s : Store V P) (p : Nat) (v : Option V) (after : Context V P) :
    Store V P :=
  { s with
    entries := ⟨v, after.location⟩ :: s.entries.drop (g.production p).right.size
    params := after.params }

end Store

inductive Performs (g : Grammar) (actions : Actions V P) (nested : Nested V P) :
    Store V P → List Act → List (Context V P) → Store V P → Prop
  | done (s : Store V P) : Performs g actions nested s [] [] s
  | shift {s s' : Store V P} {token : Token V} {later : List (Token V)} {acts : List Act}
      {contexts : List (Context V P)} : s.rest = token :: later →
      Performs g actions nested (s.taken token later) acts contexts s' →
      Performs g actions nested s (.shift :: acts) contexts s'
  | finish {s s' : Store V P} {acts : List Act} {contexts : List (Context V P)} : s.rest = [] →
      Performs g actions nested s.ended acts contexts s' →
      Performs g actions nested s (.finish :: acts) contexts s'
  | reduce {s s' : Store V P} {p : Nat} {v : Option V} {after : Context V P} {acts : List Act}
      {contexts : List (Context V P)} : actions.run nested (s.context g p) = (.value v, after) →
      Performs g actions nested (s.reduced g p v after) acts contexts s' →
      Performs g actions nested s (.reduce p :: acts) (s.context g p :: contexts) s'

namespace Performs

variable {g : Grammar} {actions : Actions V P} {nested nested' : Nested V P}

theorem trans {s s₁ s₂ : Store V P} {acts acts' : List Act}
    {contexts contexts' : List (Context V P)} (h : Performs g actions nested s acts contexts s₁)
    (h' : Performs g actions nested s₁ acts' contexts' s₂) :
    Performs g actions nested s (acts ++ acts') (contexts ++ contexts') s₂ := by
  induction h with
  | done => exact h'
  | shift hrest _ ih => exact .shift hrest (ih h')
  | finish hrest _ ih => exact .finish hrest (ih h')
  | reduce hrun _ ih => exact .reduce hrun (ih h')

theorem split {s s₂ : Store V P} {acts acts' : List Act} {contexts : List (Context V P)}
    (h : Performs g actions nested s (acts ++ acts') contexts s₂) :
    ∃ s₁ before after, contexts = before ++ after ∧
      Performs g actions nested s acts before s₁ ∧
      Performs g actions nested s₁ acts' after s₂ := by
  induction acts generalizing s contexts with
  | nil => exact ⟨s, [], contexts, rfl, .done s, h⟩
  | cons act acts ih =>
    cases h with
    | shift hrest h =>
      obtain ⟨s₁, before, after, rfl, hbefore, hafter⟩ := ih h
      exact ⟨s₁, before, after, rfl, .shift hrest hbefore, hafter⟩
    | finish hrest h =>
      obtain ⟨s₁, before, after, rfl, hbefore, hafter⟩ := ih h
      exact ⟨s₁, before, after, rfl, .finish hrest hbefore, hafter⟩
    | reduce hrun h =>
      obtain ⟨s₁, before, after, rfl, hbefore, hafter⟩ := ih h
      exact ⟨s₁, _ :: before, after, rfl, .reduce hrun hbefore, hafter⟩

theorem productions {s s' : Store V P} {acts : List Act} {contexts : List (Context V P)}
    (h : Performs g actions nested s acts contexts s') :
    contexts.map (·.production) = reductionsOf acts := by
  induction h with
  | done => rfl
  | shift _ _ ih => exact ih
  | finish _ _ ih => exact ih
  | reduce _ _ ih => exact congrArg (_ :: ·) ih

end Performs

end TableParsing
