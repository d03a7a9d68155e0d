import TableParsing.Proofs.Engine.Act
import TableParsing.Proofs.Grammar.SententialForm

/-! What a bottom-up parse can do with the terminals that come next, whatever finds it out. A
plan shifts where an item valid after the stack has the terminal after its dot, and reduces
where the next terminal can come after the reduction. The roots of a forest that an item
expects are reached by a plan that performs the acts of the forest; so is any terminal that
begins, after others, a form that an item expects. -/

namespace TableParsing

variable {g : Grammar}

def Expects (g : Grammar) (δ : List Symbol) (i : Item) (β : List Symbol) (t : Nat) : Prop :=
  t ∈ (g.prefixes β).first ∨ (g.prefixes β).nullable = true ∧ Ahead g δ i t

theorem Expects.advance {δ β : List Symbol} {i : Item} {x : Symbol} {t : Nat}
    (h : Expects g δ i β t) (hnext : i.next g = some x)
    (hx : x ≠ .terminal Symbol.endOfInput) : Expects g (x :: δ) i.advance β t :=
  h.imp id fun hnull => ⟨hnull.1, .advance hnull.2 hnext hx⟩

theorem ahead_of_expects (wf : g.WellFormed) {α : Type} {trees : List (Tree α)}
    {γ β δ : List Symbol} {w : List (Nat × α)} {ps : List Nat} (h : g.Yields trees γ w ps)
    {i : Item} {n p t u : Nat} {v v' : List Nat} (hi : Viable g δ i)
    (hnext : i.next g = some (.nonterminal n)) (hp : p ∈ g.productionsOf n)
    (hrest : (i.right g).drop (i.index + 1) = γ ++ β) (he : Expects g δ i β t)
    (hu : w.map (·.1) ++ t :: v = u :: v') : Ahead g δ (.start p) u := by
  have htail : g.tail i.production (i.index + 1) = g.prefixes (γ ++ β) := by
    rw [Item.tail_eq, hrest]
  cases w with
  | cons e w =>
    cases hu
    refine .first hi hnext hp ?_
    rw [htail]
    exact wf.mem_prefixes_append.mpr (Or.inl (h.mem_first wf))
  | nil =>
    cases hu
    have hnull := h.nullable_of_nil wf
    rcases he with hfirst | ⟨hβ, hahead⟩
    · refine .first hi hnext hp ?_
      rw [htail]
      exact wf.mem_prefixes_append.mpr (Or.inr ⟨hnull, hfirst⟩)
    · refine .inherit hahead hnext hp ?_
      rw [htail, Grammar.nullable_prefixes]
      intro x hx
      rcases List.mem_append.mp hx with hx | hx
      · exact hnull x hx
      · exact Grammar.nullable_prefixes.mp hβ x hx

/-- Acts that lead from one stack of symbols, the latest first, to another, and from the
terminals that come next to those after them. -/
inductive Plan (g : Grammar) : List Symbol → List Nat → List Act → List Symbol → List Nat → Prop
  | done (δ : List Symbol) (v : List Nat) : Plan g δ v [] δ v
  | shift {δ δ' : List Symbol} {i : Item} {t : Nat} {v v' : List Nat} {acts : List Act} :
      Viable g δ i → i.next g = some (.terminal t) → t ≠ Symbol.endOfInput →
      Plan g (.terminal t :: δ) v acts δ' v' → Plan g δ (t :: v) (.shift :: acts) δ' v'
  | reduce {δ δ' : List Symbol} {p t : Nat} {v v' : List Nat} {acts : List Act} :
      Ahead g ((g.production p).right.toList.reverse ++ δ) (.completed g p) t →
      Plan g (.nonterminal (g.production p).left :: δ) (t :: v) acts δ' v' →
      Plan g ((g.production p).right.toList.reverse ++ δ) (t :: v) (.reduce p :: acts) δ' v'

theorem Plan.trans {δ δ₁ δ₂ : List Symbol} {v v₁ v₂ : List Nat} {acts acts' : List Act}
    (h : Plan g δ v acts δ₁ v₁) (h' : Plan g δ₁ v₁ acts' δ₂ v₂) :
    Plan g δ v (acts ++ acts') δ₂ v₂ := by
  induction h with
  | done => exact h'
  | shift hi hnext hend _ ih => exact .shift hi hnext hend (ih h')
  | reduce hahead _ ih => exact .reduce hahead (ih h')

theorem Plan.suffix {δ δ' : List Symbol} {v v' : List Nat} {acts : List Act}
    (h : Plan g δ v acts δ' v') : v' <:+ v := by
  induction h with
  | done => exact List.suffix_rfl
  | shift _ _ _ _ ih => exact ih.trans (List.suffix_cons _ _)
  | reduce _ _ ih => exact ih

theorem Plan.split {δ δ' : List Symbol} {v w w' : List Nat} {acts : List Act}
    (h : Plan g δ (v ++ w) acts δ' w') (hw : w' <:+ w) :
    ∃ acts₁ acts₂ δ₁, Plan g δ v acts₁ δ₁ [] ∧ Plan g δ₁ w acts₂ δ' w' := by
  generalize hvw : v ++ w = all at h
  induction h generalizing v with
  | done δ all =>
    subst hvw
    have hlength := hw.length_le
    rw [List.length_append] at hlength
    obtain rfl : v = [] := List.eq_nil_of_length_eq_zero (by omega)
    exact ⟨[], [], δ, .done δ [], .done δ w⟩
  | @shift δ δ' i t rest v' acts hi hnext hend hplan ih =>
    cases v with
    | nil =>
      rw [List.nil_append] at hvw
      subst hvw
      exact ⟨[], _, δ, .done δ [], .shift hi hnext hend hplan⟩
    | cons u v =>
      cases hvw
      obtain ⟨acts₁, acts₂, δ₁, hfirst, hlater⟩ := ih hw rfl
      exact ⟨_, acts₂, δ₁, .shift hi hnext hend hfirst, hlater⟩
  | @reduce δ δ' p t rest v' acts hahead hplan ih =>
    cases v with
    | nil =>
      rw [List.nil_append] at hvw
      subst hvw
      exact ⟨[], _, _, .done _ [], .reduce hahead hplan⟩
    | cons u v =>
      obtain ⟨acts₁, acts₂, δ₁, hfirst, hlater⟩ := ih hw hvw
      cases hvw
      exact ⟨_, acts₂, δ₁, .reduce hahead hfirst, hlater⟩

theorem yields_plan (wf : g.WellFormed) {α : Type} {trees : List (Tree α)} {γ : List Symbol}
    {w : List (Nat × α)} {ps : List Nat} (h : g.Yields trees γ w ps)
    (hend : ∀ e ∈ w, e.1 ≠ Symbol.endOfInput) {δ β : List Symbol} {i : Item} {t : Nat}
    (hi : Viable g δ i) (hdrop : (i.right g).drop i.index = γ ++ β)
    (he : Expects g δ i β t) (v : List Nat) :
    Plan g δ (w.map (·.1) ++ t :: v) (Tree.actsOf trees) (γ.reverse ++ δ) (t :: v) := by
  -- one case for each way a forest begins; the item advances over the roots
  induction h generalizing δ β i t v with
  | nil => exact .done δ (t :: v)
  | @leaf trees γ w ps u read _ ih =>
    rw [List.forall_mem_cons] at hend
    obtain ⟨hnext, hlater⟩ := Item.next_of_drop hdrop
    have hu : Symbol.terminal u ≠ .terminal Symbol.endOfInput := by simpa using hend.1
    rw [List.reverse_cons, List.append_assoc, Tree.actsOf, Tree.acts, if_neg hend.1]
    exact .shift hi hnext hend.1
      (ih hend.2 (.advance hi hnext hu) hlater (he.advance hnext hu) v)
  | @node children trees γ w w' p ps ps' hp hchildren hrest ihchildren ihrest =>
    obtain ⟨hnext, hlater⟩ := Item.next_of_drop hdrop
    have hmem := Grammar.mem_productionsOf.mpr ⟨hp, rfl⟩
    have hzero := wf.ne_zero_of_needed ⟨i, hi, hnext⟩ hmem
    obtain ⟨u, v', hu⟩ : ∃ u v', w'.map (·.1) ++ t :: v = u :: v' :=
      List.exists_cons_of_ne_nil (by simp)
    have hahead := ahead_of_expects wf hrest hi hnext hmem hlater he hu
    -- the right side is read, then reduced
    have hright := ihchildren (fun e he => hend e (List.mem_append_left _ he))
      (.expand hi hnext hmem) (List.append_nil _).symm (Or.inr ⟨rfl, hahead⟩) v'
    -- the item goes on after the nonterminal
    have hafter := ihrest (fun e he => hend e (List.mem_append_right _ he))
      (.advance hi hnext (by simp)) hlater (he.advance hnext (by simp)) v
    rw [hu] at hafter
    have hall := hright.trans (.reduce (wf.ahead_completed hahead hzero) hafter)
    rw [List.map_append, List.append_assoc, hu, List.reverse_cons, List.append_assoc γ.reverse]
    simpa [Tree.actsOf, Tree.acts] using hall

theorem beginsWith_plan (wf : g.WellFormed) {γ : List Symbol} {v : List Nat}
    (h : g.BeginsWith γ v) (hend : ∀ t ∈ v.dropLast, t ≠ Symbol.endOfInput)
    {δ β : List Symbol} {i : Item} (hi : Viable g δ i)
    (hdrop : (i.right g).drop i.index = γ ++ β) :
    ∃ acts δ' t j, Plan g δ v acts δ' [t] ∧ Viable g δ' j ∧ j.next g = some (.terminal t) := by
  induction h generalizing δ β i with
  | here t γ => exact ⟨[], δ, t, i, .done δ [t], hi, (Item.next_of_drop hdrop).1⟩
  | expand γ hp _ ih =>
    obtain ⟨hnext, -⟩ := Item.next_of_drop hdrop
    have hmem := Grammar.mem_productionsOf.mpr ⟨hp, rfl⟩
    exact ih hend (.expand hi hnext hmem) (List.append_nil _).symm
  | @skip x γ trees w ps v hyields hrest ih =>
    obtain ⟨t, v, rfl⟩ := List.exists_cons_of_ne_nil hrest.ne_nil
    obtain ⟨hnext, hlater⟩ := Item.next_of_drop hdrop
    rw [List.dropLast_append_of_ne_nil hrest.ne_nil] at hend
    have hw : ∀ e ∈ w, e.1 ≠ Symbol.endOfInput := fun e he =>
      hend e.1 (List.mem_append_left _ (List.mem_map_of_mem he))
    have hexpects : Expects g δ i (γ ++ β) t :=
      Or.inl (wf.mem_prefixes_append.mpr (Or.inl (hrest.mem_first wf)))
    have hfirst := yields_plan wf hyields hw hi hdrop hexpects v
    -- the end of input stands in no right side but that of production zero, at its end
    have hx : x ≠ .terminal Symbol.endOfInput := by
      rintro rfl
      cases hyields with
      | leaf _ _ hnil => exact hw _ List.mem_cons_self rfl
    obtain ⟨acts, δ', u, j, hplan, hj, hu⟩ :=
      ih (fun t ht => hend t (List.mem_append_right _ ht)) (.advance hi hnext hx) hlater
    exact ⟨_, δ', u, j, hfirst.trans hplan, hj, hu⟩

theorem form_plan (wf : g.WellFormed) {word : List Nat} {β : List Symbol} (hne : word ≠ [])
    (h : g.Derives [.nonterminal Symbol.accept] (word.map .terminal ++ β))
    (hend : ∀ t ∈ word.dropLast, t ≠ Symbol.endOfInput) :
    ∃ acts δ t i, Plan g [] word acts δ [t] ∧ Viable g δ i ∧ i.next g = some (.terminal t) := by
  have hdrop : ((Item.start 0).right g).drop (Item.start 0).index =
      [.nonterminal g.start, .terminal Symbol.endOfInput] ++ [] := by
    simp [Item.right, Item.start, wf.right_zero]
  exact beginsWith_plan wf (wf.beginsWith_accept (h.beginsWith hne)) hend .start hdrop

end TableParsing
