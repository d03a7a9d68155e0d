import TableParsing.Engine.Predictive
import TableParsing.Proofs.Grammar.SententialForm
import TableParsing.Proofs.Table.Prediction

/-! The goals of the predictive engine are the rest of the right sides under recognition, one
inside the other, and the stack has what was recognised of each. What can come after a
nonterminal among the goals follows it in the grammar; so, where the table has no conflicts, a
prediction never leaves the forms that the goals derive. -/

namespace TableParsing.Predictive

/-- The goals are those after a nonterminal on a stack of symbols, the latest first. -/
inductive Awaits (g : Grammar) : Nat → List Symbol → List Goal → Prop
  | accept : Awaits g Symbol.accept [] []
  | inside {p n : Nat} {α β γ : List Symbol} {goals : List Goal} : p < g.productions.size →
      (g.production p).right.toList = α ++ .nonterminal n :: β →
      Awaits g (g.production p).left γ goals →
      Awaits g n (α.reverse ++ γ) (β.map .symbol ++ .reduce p :: goals)

theorem Awaits.eq_nil {g : Grammar} (wf : g.WellFormed) {γ : List Symbol} {goals : List Goal}
    (h : Awaits g Symbol.accept γ goals) : goals = [] := by
  generalize hn : Symbol.accept = n at h
  cases h with
  | accept => rfl
  | @inside p _ α β _ _ hp hright _ =>
    have hmem : .nonterminal Symbol.accept ∈ (g.production p).right.toList := by simp [hright, hn]
    exact absurd rfl (wf.nonterminal_proper (Array.mem_toList_iff.mp hmem)).1

inductive Open (g : Grammar) : List Symbol → List Goal → Prop
  | start : Open g [] [.symbol (.nonterminal Symbol.accept)]
  | inside {p : Nat} {α β γ : List Symbol} {goals : List Goal} : p < g.productions.size →
      (g.production p).right.toList = α ++ β → Awaits g (g.production p).left γ goals →
      Open g (α.reverse ++ γ) (β.map .symbol ++ .reduce p :: goals)
  | done : Open g [.nonterminal Symbol.accept] []

namespace Open

variable {g : Grammar} {γ : List Symbol} {goals : List Goal} {n p t : Nat}

theorem awaits (h : Open g γ (.symbol (.nonterminal n) :: goals)) : Awaits g n γ goals := by
  generalize hgoals : Goal.symbol (.nonterminal n) :: goals = all at h
  cases h with
  | start =>
    cases hgoals
    exact .accept
  | @inside p α β γ below hp hright hbelow =>
    cases β with
    | nil => cases hgoals
    | cons x β =>
      cases hgoals
      exact .inside hp hright hbelow
  | done => cases hgoals

theorem expand (h : Open g γ (.symbol (.nonterminal n) :: goals)) (hp : p < g.productions.size)
    (hleft : (g.production p).left = n) :
    Open g γ ((g.production p).right.toList.map .symbol ++ .reduce p :: goals) := by
  have hawaits := h.awaits
  rw [← hleft] at hawaits
  exact Open.inside (α := []) hp rfl hawaits

theorem consume (h : Open g γ (.symbol (.terminal t) :: goals)) :
    Open g (.terminal t :: γ) goals := by
  generalize hgoals : Goal.symbol (.terminal t) :: goals = all at h
  cases h with
  | start => cases hgoals
  | done => cases hgoals
  | @inside p α β γ below hp hright hbelow =>
    cases β with
    | nil => cases hgoals
    | cons x β =>
      cases hgoals
      have hsplit : (g.production p).right.toList = (α ++ [.terminal t]) ++ β := by
        rw [hright, List.append_assoc]
        rfl
      have hopen := Open.inside hp hsplit hbelow
      rwa [List.reverse_append] at hopen

theorem reduce (h : Open g γ (.reduce p :: goals)) : p < g.productions.size ∧
    ∃ δ, γ = (g.production p).right.toList.reverse ++ δ ∧
      Open g (.nonterminal (g.production p).left :: δ) goals := by
  generalize hgoals : Goal.reduce p :: goals = all at h
  cases h with
  | start => cases hgoals
  | done => cases hgoals
  | @inside q α β δ below hp hright hbelow =>
    cases β with
    | cons x β => cases hgoals
    | nil =>
      cases hgoals
      rw [List.append_nil] at hright
      refine ⟨hp, δ, by rw [hright], ?_⟩
      generalize (g.production p).left = n at hbelow
      cases hbelow with
      | accept => exact .done
      | @inside q n α β δ below hq hright' hbelow =>
        have hsplit : (g.production q).right.toList = (α ++ [.nonterminal n]) ++ β := by
          rw [hright', List.append_assoc]
          rfl
        have hopen := Open.inside hq hsplit hbelow
        rwa [List.reverse_append] at hopen

theorem eq_accept (h : Open g γ []) : γ = [.nonterminal Symbol.accept] := by
  generalize hgoals : ([] : List Goal) = all at h
  cases h with
  | start => cases hgoals
  | inside => simp at hgoals
  | done => rfl

theorem eq_zero_of_end (wf : g.WellFormed)
    (h : Open g γ (.symbol (.terminal Symbol.endOfInput) :: goals)) : goals = [.reduce 0] := by
  generalize hgoals : Goal.symbol (.terminal Symbol.endOfInput) :: goals = all at h
  cases h with
  | start => cases hgoals
  | done => cases hgoals
  | @inside p α β γ below hp hright hbelow =>
    cases β with
    | nil => cases hgoals
    | cons x β =>
      cases hgoals
      have hmem : Symbol.terminal Symbol.endOfInput ∈ (g.production p).right.toList := by
        simp [hright]
      obtain rfl := wf.eq_zero_of_end_mem (Array.mem_toList_iff.mp hmem)
      -- the right side of production zero ends with the end of input
      have hβ : β = [] := by
        rw [wf.right_zero] at hright
        cases α with
        | nil => cases hright
        | cons y α =>
          cases α with
          | nil => exact (List.cons.inj (List.cons.inj hright).2).2.symm
          | cons z α => simp at hright
      rw [wf.left_zero] at hbelow
      rw [hβ, hbelow.eq_nil wf]
      rfl

end Open

def goalSymbols (goals : List Goal) : List Symbol :=
  goals.filterMap fun
    | .symbol x => some x
    | .reduce _ => none

theorem goalSymbols_append (goals goals' : List Goal) :
    goalSymbols (goals ++ goals') = goalSymbols goals ++ goalSymbols goals' :=
  List.filterMap_append

theorem goalSymbols_map (γ : List Symbol) : goalSymbols (γ.map .symbol) = γ := by
  induction γ with
  | nil => rfl
  | cons x γ ih => exact congrArg (x :: ·) ih

theorem goalSymbols_expanded (γ : List Symbol) (p : Nat) (goals : List Goal) :
    goalSymbols (γ.map .symbol ++ .reduce p :: goals) = γ ++ goalSymbols goals := by
  rw [goalSymbols_append, goalSymbols_map]
  rfl

section Predictions

variable {g : Grammar} (wf : g.WellFormed) {n t : Nat} {γ : List Symbol} {goals : List Goal}

include wf

theorem Awaits.mem_follow (h : Awaits g n γ goals)
    (ht : t ∈ (g.prefixes (goalSymbols goals)).first) : t ∈ g.follow n := by
  induction h with
  | accept => exact absurd ht (TerminalSet.not_mem_empty t)
  | @inside p n α β γ goals hp hright _ ih =>
    have hoccurs : g.Occurs (g.production p).left n β :=
      ⟨p, Grammar.mem_productionsOf.mpr ⟨hp, rfl⟩, α, hright⟩
    rw [goalSymbols_expanded] at ht
    rcases wf.mem_prefixes_append.mp ht with hfirst | ⟨hnull, hrest⟩
    · exact wf.mem_follow_of_first hoccurs hfirst
    · exact wf.follow_subset hoccurs (Grammar.nullable_prefixes.mpr hnull) (ih hrest)

theorem Awaits.predicted (h : Awaits g n γ goals)
    (hconflicts : (PredictionTable.generate g).conflicts = []) {v : List Nat}
    (hbegins : g.BeginsWith (.nonterminal n :: goalSymbols goals) (t :: v)) :
    ∃ p, (PredictionTable.generate g).predict n t = some p ∧
      g.BeginsWith ((g.production p).right.toList ++ goalSymbols goals) (t :: v) := by
  generalize hγ : Symbol.nonterminal n :: goalSymbols goals = δ at hbegins
  generalize hu : t :: v = u at hbegins
  cases hbegins with
  | here => cases hγ
  | @expand p _ _ hp hright =>
    obtain ⟨hn, rfl⟩ := List.cons.inj hγ
    obtain rfl := Symbol.nonterminal.inj hn
    subst hu
    refine ⟨p, PredictionTable.predict_of_lookahead wf hconflicts hp ?_, hright.append _⟩
    exact PredictionTable.mem_lookaheads.mpr (Or.inl (hright.mem_first wf))
  | @skip _ _ trees w ps v' hyields hrest =>
    obtain ⟨rfl, rfl⟩ := List.cons.inj hγ
    cases hyields with
    | @node children _ _ w _ p ps _ hp hchildren hnil =>
      cases hnil
      rw [List.append_nil] at hu ⊢
      refine ⟨p, PredictionTable.predict_of_lookahead wf hconflicts hp ?_,
        hrest.skips hchildren⟩
      rw [PredictionTable.mem_lookaheads]
      -- the terminal is the first leaf, or comes after a right side without leaves
      cases w with
      | cons e w =>
        cases hu
        exact Or.inl (hchildren.mem_first wf)
      | nil =>
        cases hu
        refine Or.inr ⟨Grammar.nullable_prefixes.mpr (hchildren.nullable_of_nil wf), ?_⟩
        exact h.mem_follow wf (hrest.mem_first wf)

end Predictions

end TableParsing.Predictive
