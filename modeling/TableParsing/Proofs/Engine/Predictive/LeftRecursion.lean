import TableParsing.Proofs.Engine.Predictive.Frames
import TableParsing.Proofs.Engine.Predictive.Run

/-! Over a table without conflicts no nonterminal is expanded inside itself before a token is
consumed, even if the grammar is left recursive. While one terminal is ahead, every open
expansion has come to the next by symbols that predictions on this terminal took away. That
relation is well founded: the terminal begins the nonterminal, and then the next one either
stands where the terminal is found or can be empty with the terminal after it; or the
nonterminal itself can be empty, and then all that is predicted for it is a tree without
leaves. -/

namespace TableParsing.Predictive

inductive Vanishes (g : Grammar) (t : Nat) : Symbol → Prop
  | intro {n p : Nat} : (PredictionTable.generate g).predict n t = some p →
      (∀ x ∈ (g.production p).right.toList, Vanishes g t x) → Vanishes g t (.nonterminal n)

/-- The expansion of `n` on the terminal comes to `m` with nothing read. -/
def Deeper (g : Grammar) (t m n : Nat) : Prop :=
  ∃ p α β, (PredictionTable.generate g).predict n t = some p ∧
    (g.production p).right.toList = α ++ .nonterminal m :: β ∧ ∀ x ∈ α, Vanishes g t x

section Acyclic

variable {g : Grammar} (wf : g.WellFormed)
  (hconflicts : (PredictionTable.generate g).conflicts = []) {t : Nat}

include wf hconflicts

theorem predict_of_leads {p : Nat} {α β : List Symbol} {x : Symbol} (hp : p < g.productions.size)
    (hright : (g.production p).right.toList = α ++ x :: β) (hα : ∀ y ∈ α, g.Nullable y)
    (hx : g.Begins x t) : (PredictionTable.generate g).predict (g.production p).left t = some p :=
  PredictionTable.predict_of_lookahead wf hconflicts hp
    (PredictionTable.mem_lookaheads.mpr (Or.inl (wf.mem_prefixes.mpr ⟨α, x, β, hright, hα, hx⟩)))

theorem not_vanishes_of_begins {x : Symbol} (h : g.Begins x t) : ¬ Vanishes g t x := by
  induction h with
  | terminal t =>
    intro hvanishes
    cases hvanishes
  | @nonterminal n x t hleads hx ih =>
    obtain ⟨q, hq, α, β, hright, hα⟩ := hleads
    obtain ⟨hlt, rfl⟩ := Grammar.mem_productionsOf.mp hq
    rintro ⟨hp, hall⟩
    obtain rfl := Option.some.inj
      ((predict_of_leads wf hconflicts hlt hright hα hx).symm.trans hp)
    exact ih (hall x (by simp [hright]))

theorem acc_of_yields_nil {α : Type} {trees : List (Tree α)} {γ : List Symbol} {ps : List Nat}
    (h : g.Yields trees γ [] ps) (hfollow : ∀ n, .nonterminal n ∈ γ → t ∈ g.follow n) :
    ∀ n, .nonterminal n ∈ γ → Acc (Deeper g t) n := by
  generalize hw : ([] : List (Nat × α)) = w at h
  induction h with
  | nil => simp
  | leaf => cases hw
  | @node children trees γ w w' p ps ps' hp hchildren _ ihchildren ihrest =>
    obtain ⟨rfl, rfl⟩ := List.append_eq_nil_iff.mp hw.symm
    have hnull := hchildren.nullable_of_nil wf
    have hleft := hfollow (g.production p).left List.mem_cons_self
    have hpredict := PredictionTable.predict_of_lookahead wf hconflicts hp
      (PredictionTable.mem_lookaheads.mpr (Or.inr ⟨Grammar.nullable_prefixes.mpr hnull, hleft⟩))
    -- the terminal follows every root of the children, as nothing need stand after it
    have hinner : ∀ n, .nonterminal n ∈ (g.production p).right.toList → t ∈ g.follow n := by
      intro n hn
      obtain ⟨α, β, hright⟩ := List.append_of_mem hn
      refine wf.follow_subset ⟨p, Grammar.mem_productionsOf.mpr ⟨hp, rfl⟩, α, hright⟩ ?_ hleft
      exact Grammar.nullable_prefixes.mpr fun x hx => hnull x (by simp [hright, hx])
    intro n hn
    rcases List.mem_cons.mp hn with heq | hn
    · obtain rfl := Symbol.nonterminal.inj heq
      refine Acc.intro _ fun m hm => ?_
      obtain ⟨q, α, β, hq, hright, -⟩ := hm
      obtain rfl := Option.some.inj (hpredict.symm.trans hq)
      exact ihchildren hinner rfl m (by simp [hright])
    · exact ihrest (fun m hm => hfollow m (List.mem_cons_of_mem _ hm)) rfl n hn

theorem acc_of_nullable {n : Nat} (hn : g.Nullable (.nonterminal n)) (ht : t ∈ g.follow n) :
    Acc (Deeper g t) n := by
  obtain ⟨trees, ps, hyields⟩ := hn.exists_yields (α := Unit)
  refine acc_of_yields_nil wf hconflicts hyields (fun m hm => ?_) n List.mem_cons_self
  obtain rfl := Symbol.nonterminal.inj (List.mem_singleton.mp hm)
  exact ht

theorem acc_of_begins {x : Symbol} (h : g.Begins x t) :
    ∀ n, x = .nonterminal n → Acc (Deeper g t) n := by
  induction h with
  | terminal t =>
    intro n heq
    cases heq
  | @nonterminal n x t hleads hx ih =>
    intro n' heq
    cases heq
    obtain ⟨q, hq, α, β, hright, hα⟩ := hleads
    obtain ⟨hlt, rfl⟩ := Grammar.mem_productionsOf.mp hq
    have hpredict := predict_of_leads wf hconflicts hlt hright hα hx
    refine Acc.intro _ fun m hm => ?_
    obtain ⟨p, α', β', hp, hright', hvanish⟩ := hm
    obtain rfl := Option.some.inj (hpredict.symm.trans hp)
    -- where the terminal is found, against where the expansion goes on
    rcases List.append_eq_append_iff.mp (hright.symm.trans hright') with
      ⟨δ, rfl, hδ⟩ | ⟨δ, rfl, hδ⟩
    · cases δ with
      | nil => exact ih m (List.cons.inj hδ).1
      | cons y δ =>
        obtain ⟨rfl, -⟩ := List.cons.inj hδ
        exact absurd (hvanish x (by simp)) (not_vanishes_of_begins wf hconflicts hx)
    · cases δ with
      | nil => exact ih m (List.cons.inj hδ).1.symm
      | cons y δ =>
        obtain ⟨rfl, rfl⟩ := List.cons.inj hδ
        refine acc_of_nullable wf hconflicts (hα _ (by simp)) ?_
        refine wf.mem_follow_of_first ⟨q, hq, α', hright'⟩ (wf.mem_prefixes.mpr
          ⟨δ, x, β, rfl, fun y hy => hα y (by simp [hy]), hx⟩)

theorem deeper_wellFounded (t : Nat) : WellFounded (Deeper g t) := by
  refine ⟨fun n => ?_⟩
  cases hp : (PredictionTable.generate g).predict n t with
  | none =>
    refine Acc.intro _ fun m hm => ?_
    obtain ⟨q, α, β, hq, -⟩ := hm
    rw [hp] at hq
    cases hq
  | some p =>
    obtain ⟨hlt, rfl, ht⟩ :=
      PredictionTable.mem_candidates.mp (PredictionTable.candidate_of_predict wf hp)
    rcases PredictionTable.mem_lookaheads.mp ht with hfirst | ⟨hnull, hfollow⟩
    · obtain ⟨α, x, β, hright, hα, hx⟩ := wf.mem_prefixes.mp hfirst
      have hmem := Grammar.mem_productionsOf.mpr ⟨hlt, rfl⟩
      exact acc_of_begins wf hconflicts (.nonterminal ⟨p, hmem, α, β, hright, hα⟩ hx) _ rfl
    · refine acc_of_nullable wf hconflicts (wf.nullable_left hlt fun x hx => ?_) hfollow
      exact Grammar.nullable_prefixes.mp hnull x (Array.mem_toList_iff.mpr hx)

end Acyclic

/-- The open expansions, the latest first, lead down to the goals. Once the end of input is
matched nothing is expanded any more. -/
inductive Descends (g : Grammar) (t : Nat) : List Goal → List Expansion → Prop
  | nil (goals : List Goal) : Descends g t goals []
  | closing (pending : List Expansion) : Descends g t [.reduce 0] pending
  | cons {n p : Nat} {α β : List Symbol} {goals : List Goal} {pending : List Expansion} :
      (PredictionTable.generate g).predict n t = some p →
      (g.production p).right.toList = α ++ β → (∀ x ∈ α, Vanishes g t x) →
      Descends g t (.symbol (.nonterminal n) :: goals) pending →
      Descends g t (β.map .symbol ++ .reduce p :: goals) (⟨n, goals.length⟩ :: pending)

namespace Descends

variable {g : Grammar} {t n p : Nat} {goals : List Goal} {pending : List Expansion}

theorem depth_lt (h : Descends g t (.symbol (.nonterminal n) :: goals) pending) :
    ∀ e ∈ pending, e.depth < goals.length := by
  generalize hgoals : Goal.symbol (.nonterminal n) :: goals = all at h
  induction h generalizing n goals with
  | nil => simp
  | closing => cases hgoals
  | @cons m p α β below pending _ _ _ _ ih =>
    cases β with
    | nil => cases hgoals
    | cons x β =>
      rw [List.map_cons, List.cons_append] at hgoals
      obtain ⟨-, rfl⟩ := List.cons.inj hgoals
      intro e he
      rcases List.mem_cons.mp he with rfl | he
      · simp only [List.length_append, List.length_map, List.length_cons]
        omega
      · have hlt := ih rfl e he
        simp only [List.length_append, List.length_map, List.length_cons]
        omega

theorem pass (h : Descends g t (.symbol (.nonterminal n) :: goals) pending)
    (hn : Vanishes g t (.nonterminal n)) : Descends g t goals pending := by
  generalize hgoals : Goal.symbol (.nonterminal n) :: goals = all at h
  cases h with
  | nil => exact .nil _
  | closing => cases hgoals
  | @cons m p α β below pending hp hright hα hbelow =>
    cases β with
    | nil => cases hgoals
    | cons x β =>
      cases hgoals
      refine .cons (α := α ++ [.nonterminal n]) hp (by simp [hright]) (fun x hx => ?_) hbelow
      rcases List.mem_append.mp hx with hx | hx
      · exact hα x hx
      · rwa [List.mem_singleton.mp hx]

theorem reduce (h : Descends g t (.reduce p :: goals) pending) :
    Descends g t goals (pending.filter fun e => e.depth < goals.length) := by
  generalize hgoals : Goal.reduce p :: goals = all at h
  cases h with
  | nil => exact .nil _
  | closing =>
    cases hgoals
    simpa using Descends.nil []
  | @cons m q α β below pending hq hright hα hbelow =>
    cases β with
    | cons x β => cases hgoals
    | nil =>
      cases hgoals
      rw [List.append_nil] at hright
      have hkept : (⟨m, goals.length⟩ :: pending).filter (fun e => e.depth < goals.length) =
          pending := by
        rw [List.filter_cons_of_neg (by simp), List.filter_eq_self]
        intro e he
        exact decide_eq_true (hbelow.depth_lt e he)
      rw [hkept]
      exact hbelow.pass (.intro hq (hright ▸ hα))

theorem deeper (h : Descends g t (.symbol (.nonterminal n) :: goals) pending) :
    ∀ e ∈ pending, Relation.TransGen (Deeper g t) n e.symbol := by
  generalize hgoals : Goal.symbol (.nonterminal n) :: goals = all at h
  induction h generalizing n goals with
  | nil => simp
  | closing => cases hgoals
  | @cons m p α β below pending hp hright hα _ ih =>
    cases β with
    | nil => cases hgoals
    | cons x β =>
      cases hgoals
      have hstep : Deeper g t n m := ⟨p, α, β, hp, hright, hα⟩
      intro e he
      rcases List.mem_cons.mp he with rfl | he
      · exact .single hstep
      · exact .head hstep (ih rfl e he)

end Descends

variable {V P : Type} {g : Grammar} {actions : Actions V P} {env : Environment V P}
  {c c' : Config V P} {e : Event V P} {rest rest' : List (Token V)}

theorem Effect.descends (wf : g.WellFormed) {γ : List Symbol} (hframes : Open g γ c.goals)
    (heffect : Effect ⟨.generate g, actions⟩ env c e c') {la : Lookahead V} {input : Source V}
    (hlook : (⟨.generate g, actions⟩ : Parser V P).look c = .ok (la, input)) {t : Nat}
    (ht : la.terminal = some t) (hend : la.token = none → t = Symbol.endOfInput)
    (h : Descends g t c.goals c.pending.reverse) :
    c'.pending = [] ∨ Descends g t c'.goals c'.pending.reverse := by
  cases heffect with
  | consume => exact Or.inl rfl
  | @ending u goals _ _ hgoals hlook' hterminal htoken =>
    rw [hlook] at hlook'
    cases hlook'
    rw [ht] at hterminal
    cases hterminal
    rw [hgoals, hend htoken] at hframes
    obtain rfl := hframes.eq_zero_of_end wf
    exact Or.inr (.closing _)
  | @expand n u p goals _ _ hgoals hlook' hterminal hp _ =>
    rw [hlook] at hlook'
    cases hlook'
    rw [ht] at hterminal
    cases hterminal
    rw [hgoals] at h
    simp only [expanded, List.reverse_append, List.reverse_singleton, List.singleton_append]
    exact Or.inr (.cons (α := []) hp rfl (by simp) h)
  | @reduce p goals _ _ v after context hgoals _ _ _ _ =>
    rw [hgoals] at h
    simp only [reduced, ← List.filter_reverse]
    exact Or.inr h.reduce

def Descent (g : Grammar) (c : Config V P) (rest : List (Token V)) : Prop :=
  ∀ t, nextTerminal (.generate g) rest = some t → Descends g t c.goals c.pending.reverse

theorem descent_start (tokens : List (Token V)) (params : P) :
    Descent g (start (tokens.map .ok) params) tokens := fun _ _ => .nil _

theorem Descent.effect (wf : g.WellFormed) (h : Descent g c rest)
    (hc : Pending (.generate g) c rest) {γ : List Symbol} (hframes : Open g γ c.goals)
    (heffect : Effect ⟨.generate g, actions⟩ env c e c') (hrest : rest = e.consumed ++ rest') :
    Descent g c' rest' := by
  have hlook : (⟨.generate g, actions⟩ : Parser V P).look c = _ := hc.look
  intro t ht
  by_cases hpending : c'.pending = []
  · rw [hpending]
    exact .nil _
  -- only a token read frees the goals, so the terminal ahead is still the same
  have hsame : rest = rest' := by
    cases heffect with
    | consume => exact absurd rfl hpending
    | ending _ _ _ htoken =>
      rw [hrest, Event.consumed, htoken]
      rfl
    | expand => exact hrest
    | reduce => exact hrest
  obtain rfl := hsame
  refine (heffect.descends wf hframes hlook ht (fun htoken => ?_) (h t ht)).resolve_left hpending
  obtain rfl := List.head?_eq_none_iff.mp htoken
  exact (Option.some.inj ht).symm

theorem Descent.not_pending (wf : g.WellFormed)
    (hconflicts : (PredictionTable.generate g).conflicts = []) (h : Descent g c rest) {n t : Nat}
    {goals : List Goal} (hgoals : c.goals = .symbol (.nonterminal n) :: goals)
    (ht : nextTerminal (.generate g) rest = some t) : ∀ e ∈ c.pending, e.symbol ≠ n := by
  rintro e he rfl
  have hdescends := h t ht
  rw [hgoals] at hdescends
  have hcycle := hdescends.deeper e (List.mem_reverse.mpr he)
  exact (deeper_wellFounded wf hconflicts t).transGen.irrefl.irrefl _ hcycle

end TableParsing.Predictive
