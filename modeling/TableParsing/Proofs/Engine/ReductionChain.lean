import Mathlib.Data.Finset.Lattice.Fold
import TableParsing.Proofs.Engine.Completeness
import TableParsing.Proofs.Engine.DefaultReduction

/-! How many reductions can be made on a stack before anything is read. A chain of reductions
pays no regard to what comes next. In a grammar whose nonterminals all derive words, the stack
it leads to can still be parsed to the end, on some terminal that comes next; the chain is then
how that parse begins. Over tables without conflicts the parses of one stack that begin on the
same terminal begin alike, so that none of the finitely many terminals admits chains longer
than the shortest such parse. -/

namespace TableParsing

def Grammar.Productive (g : Grammar) : Prop :=
  ∀ n, n < g.nonterminals.size → ∃ word : List Nat, g.Derives [.nonterminal n] (word.map .terminal)

def Plan.Complete (g : Grammar) (δ : List Symbol) (v : List Nat) (acts : List Act) : Prop :=
  Plan g δ v acts [.nonterminal g.start] [Symbol.endOfInput]

/-- Reductions of completed items by the given productions, whatever comes next. -/
inductive Chain (g : Grammar) : List Symbol → List Nat → Prop
  | done (δ : List Symbol) : Chain g δ []
  | reduce {δ : List Symbol} {p : Nat} {ps : List Nat} :
      Viable g ((g.production p).right.toList.reverse ++ δ) (.completed g p) →
      Chain g (.nonterminal (g.production p).left :: δ) ps →
      Chain g ((g.production p).right.toList.reverse ++ δ) (p :: ps)

variable {g : Grammar}

theorem Chain.length_le {γ : List Symbol} {ps : List Nat} (h : Chain g γ ps)
    (hone : ∀ {γ p}, Viable g γ (.completed g p) →
      1 ≤ (g.production p).right.toList.countP (·.terminal?.isSome)) :
    ps.length ≤ γ.countP (·.terminal?.isSome) := by
  induction h with
  | done => exact Nat.zero_le _
  | @reduce δ p ps hp _ ih =>
    have hp := hone hp
    have hrest : (Symbol.nonterminal (g.production p).left :: δ).countP (·.terminal?.isSome) =
        δ.countP (·.terminal?.isSome) := List.countP_cons_of_neg (by simp [Symbol.terminal?])
    rw [List.countP_append, List.countP_reverse, List.length_cons]
    omega

theorem Grammar.Productive.exists_yields (h : g.Productive) {γ : List Symbol}
    (hγ : ∀ x ∈ γ, g.Proper x) : ∃ (trees : List (Tree Unit)) (w : List (Nat × Unit))
      (ps : List Nat), g.Yields trees γ w ps := by
  induction γ with
  | nil => exact ⟨[], [], [], .nil⟩
  | cons x γ ih =>
    rw [List.forall_mem_cons] at hγ
    obtain ⟨trees, w, ps, hyields⟩ := ih hγ.2
    cases x with
    | terminal t => exact ⟨_, _, _, .leaf t () hyields⟩
    | nonterminal n =>
      obtain ⟨word, hword⟩ := h n hγ.1.2
      have hleaves : word.map Symbol.terminal =
          (word.map fun t => (t, ())).map fun e => .terminal e.1 := by
        rw [List.map_map]
        rfl
      rw [hleaves] at hword
      obtain ⟨tree, qs, htree⟩ := hword.exists_yields
      exact ⟨_, _, _, htree.append hyields⟩

section Completion

variable (wf : g.WellFormed)

include wf

theorem Item.rest_proper {i : Item} (hi : i.production ≠ 0) (k : Nat) :
    ∀ x ∈ (i.right g).drop k, g.Proper x := fun x hx =>
  wf.right_proper i.production hi x (Array.mem_toList_iff.mp (List.mem_of_mem_drop hx))

theorem Viable.eq_start {γ : List Symbol} {i : Item} {n : Nat} (h : Viable g γ i)
    (hnext : i.next g = some (.nonterminal n)) (hzero : i.production = 0) :
    γ = [] ∧ n = g.start := by
  have hright : i.right g = [.nonterminal g.start, .terminal Symbol.endOfInput] := by
    rw [Item.right, hzero, wf.right_zero]
  obtain ⟨p, k⟩ := i
  obtain rfl : p = 0 := hzero
  rw [Item.next_eq, hright] at hnext
  rcases k with _ | _ | k
  · refine ⟨wf.eq_nil_of_viable_zero h, ?_⟩
    simpa using hnext.symm
  · simp at hnext
  · simp at hnext

namespace Plan.Complete

variable {δ γ : List Symbol} {p t : Nat} {v : List Nat} {acts : List Act}

theorem readable (h : Plan.Complete g δ (t :: v) acts) : Readable g δ t := by
  cases h with
  | done =>
    refine readable_of_next wf wf.viable_accept ?_
    rw [Item.next, wf.right_zero]
    rfl
  | shift hi hnext _ _ => exact readable_of_next wf hi hnext
  | reduce hahead _ => exact readable_of_ahead hahead

theorem terminal_lt (h : Plan.Complete g δ (t :: v) acts) : t < g.terminals.size := by
  cases h with
  | done => exact wf.terminals_pos
  | shift _ hnext _ _ => exact wf.terminal_lt (Item.next_mem hnext)
  | reduce hahead _ => exact wf.ahead_lt hahead

theorem reduce (hp : p ∈ g.productionsOf (g.production p).left) (hzero : p ≠ 0)
    (h : Plan.Complete g (.nonterminal (g.production p).left :: γ) (t :: v) acts) :
    Plan.Complete g ((g.production p).right.toList.reverse ++ γ) (t :: v) (.reduce p :: acts) := by
  have hahead := (follows_of_readable wf (h.readable wf)).ahead hp
  exact Plan.reduce (wf.ahead_completed hahead hzero) h

end Plan.Complete

variable (hproductive : g.Productive) {γ : List Symbol} {i : Item} {n : Nat}

include hproductive

theorem Viable.complete_next (hi : Viable g γ i) (hnext : i.next g = some (.nonterminal n))
    (hafter : i.production ≠ 0 → ∃ t v acts, Ahead g γ i t ∧
      Plan.Complete g (((i.right g).drop i.index).reverse ++ γ) (t :: v) acts) :
    ∃ t v acts, Plan.Complete g (.nonterminal n :: γ) (t :: v) acts := by
  by_cases hzero : i.production = 0
  · obtain ⟨rfl, rfl⟩ := hi.eq_start wf hnext hzero
    exact ⟨Symbol.endOfInput, [], [], .done _ _⟩
  · obtain ⟨t, v, acts, hahead, hplan⟩ := hafter hzero
    -- a word for what is left of the item, before what comes after it
    have hproper := Item.rest_proper wf hzero (i.index + 1)
    obtain ⟨trees, w, ps, hyields⟩ := hproductive.exists_yields hproper
    have hend : ∀ e ∈ w, e.1 ≠ Symbol.endOfInput :=
      fun e he => (hyields.proper wf hproper e he).1
    have hexpects : Expects g (.nonterminal n :: γ) i.advance [] t :=
      Or.inr ⟨rfl, .advance hahead hnext (by simp)⟩
    have hread := yields_plan wf hyields hend (.advance hi hnext (by simp))
      (List.append_nil _).symm hexpects v
    rw [Item.drop_eq hnext, List.reverse_cons, List.append_assoc] at hplan
    obtain ⟨u, v', hu⟩ : ∃ u v', w.map (·.1) ++ t :: v = u :: v' :=
      List.exists_cons_of_ne_nil (by simp)
    have hall := hread.trans hplan
    rw [hu] at hall
    exact ⟨u, v', _, hall⟩

theorem Viable.complete_after (hi : Viable g γ i) (hzero : i.production ≠ 0) :
    ∃ t v acts, Ahead g γ i t ∧
      Plan.Complete g (((i.right g).drop i.index).reverse ++ γ) (t :: v) acts := by
  induction hi with
  | start => exact absurd rfl hzero
  | advance _ hnext hend ih =>
    obtain ⟨t, v, acts, hahead, hplan⟩ := ih hzero
    rw [Item.drop_eq hnext, List.reverse_cons, List.append_assoc] at hplan
    exact ⟨t, v, acts, .advance hahead hnext hend, hplan⟩
  | @expand γ i n p hi hnext hp ih =>
    obtain ⟨t, v, acts, hplan⟩ := hi.complete_next wf hproductive hnext ih
    obtain ⟨-, rfl⟩ := Grammar.mem_productionsOf.mp hp
    have hahead := (follows_of_readable wf (hplan.readable wf)).ahead hp
    exact ⟨t, v, _, hahead, hplan.reduce wf hp hzero⟩

theorem Needed.exists_complete (h : Needed g γ n) :
    ∃ t v acts, Plan.Complete g (.nonterminal n :: γ) (t :: v) acts := by
  obtain ⟨i, hi, hnext⟩ := h
  exact hi.complete_next wf hproductive hnext (hi.complete_after wf hproductive)

theorem Chain.exists_complete {δ : List Symbol} {ps : List Nat} (h : Chain g δ ps)
    (hne : ps ≠ []) : ∃ t v acts, Plan.Complete g δ (t :: v) (ps.map .reduce ++ acts) := by
  induction h with
  | done => exact absurd rfl hne
  | @reduce δ p ps hcompleted _ ih =>
    obtain ⟨hzero, δ', heq, hneeded⟩ := wf.completed hcompleted
    obtain rfl := List.append_cancel_left heq
    have hlater : ∃ t v acts, Plan.Complete g (.nonterminal (g.production p).left :: δ) (t :: v)
        (ps.map .reduce ++ acts) := by
      cases ps with
      | nil => exact hneeded.exists_complete wf hproductive
      | cons q ps => exact ih (by simp)
    obtain ⟨t, v, acts, hplan⟩ := hlater
    have hp := Grammar.mem_productionsOf.mpr ⟨wf.viable_lt hcompleted, rfl⟩
    exact ⟨t, v, acts, hplan.reduce wf hp hzero⟩

end Completion

namespace ShiftReduce

variable {a : Automaton} {t : Tables} (wf : g.WellFormed) (hf : a.Faithful g)
  (hd : t.Decides g a)

include wf hf hd

omit hd in
theorem Stacked.exists_reduced {γ : List Symbol} {p : Nat} {states : List Nat}
    (h : Stacked a ((g.production p).right.toList.reverse ++ γ) states)
    (hcompleted : Viable g ((g.production p).right.toList.reverse ++ γ) (.completed g p)) :
    ∃ states', Stacked a (.nonterminal (g.production p).left :: γ) states' := by
  obtain ⟨s, rest, rfl, hs⟩ := h.exists_top
  obtain ⟨st, hst, -, hdescribes⟩ := hf.state _ s hs
  obtain ⟨γ', state, deeper, next, heq, -, hγ', hgoto⟩ :=
    exists_goto wf hf h hst ((hdescribes.completed p).mpr hcompleted)
  obtain rfl := List.append_cancel_left heq
  exact ⟨_, .push hγ' hgoto⟩

theorem Tables.Decides.first_reduce {δ : List Symbol} {s p u : Nat} {v : List Nat}
    {acts : List Act} (hs : stateAfter a.step δ = some s) (haction : t.action s u = .reduce p)
    (h : Plan.Complete g δ (u :: v) acts) : ∃ γ later,
      δ = (g.production p).right.toList.reverse ++ γ ∧ acts = .reduce p :: later ∧
        Plan.Complete g (.nonterminal (g.production p).left :: γ) (u :: v) later := by
  cases h with
  | done =>
    have haccept := hd.accept hs wf.viable_accept (by rw [Item.next, wf.right_zero]; rfl)
    rw [haction] at haccept
    cases haccept
  | @shift _ _ i _ _ _ _ hi hnext hend _ =>
    obtain ⟨st, hst, -, hdescribes⟩ := hf.state δ s hs
    obtain ⟨s', hs'⟩ := (hdescribes.moves _).mpr ⟨by simpa using hend, i, hi, hnext⟩
    have hstep : a.step s (.terminal u) = some s' := by
      rw [Automaton.step, hst]
      exact hs'
    have hshift := hd.shift hs (wf.terminal_lt (Item.next_mem hnext)) hstep
    rw [haction] at hshift
    cases hshift
  | reduce hahead hlater =>
    have hreduce := hd.reduce hs hahead
    rw [haction] at hreduce
    cases hreduce
    exact ⟨_, _, rfl, rfl, hlater⟩

/-- No complete parse is shorter than the reductions that another one on the same terminal
begins with. -/
theorem Tables.Decides.length_le {δ : List Symbol} {states : List Nat} {u : Nat}
    {v v' ps : List Nat} {acts acts' : List Act} (hstacked : Stacked a δ states)
    (h : Plan.Complete g δ (u :: v) (ps.map .reduce ++ acts))
    (h' : Plan.Complete g δ (u :: v') acts') : ps.length ≤ acts'.length := by
  induction ps generalizing δ states acts' with
  | nil => exact Nat.zero_le _
  | cons p ps ih =>
    rw [List.map_cons, List.cons_append] at h
    cases h with
    | @reduce γ _ _ _ _ _ _ hahead hlater =>
      obtain ⟨s, rest, rfl, hs⟩ := hstacked.exists_top
      obtain ⟨γ', later, heq, rfl, hlater'⟩ := hd.first_reduce wf hf hs (hd.reduce hs hahead) h'
      obtain rfl : γ = γ' := List.append_cancel_left heq
      obtain ⟨states', hstates'⟩ := hstacked.exists_reduced wf hf hahead.viable
      exact Nat.succ_le_succ (ih hstates' hlater hlater')

theorem Tables.Decides.exists_bound (hproductive : g.Productive) {δ : List Symbol}
    {states : List Nat} (hstacked : Stacked a δ states) :
    ∃ bound, ∀ ps, Chain g δ ps → ps.length ≤ bound := by
  have each : ∀ u, ∃ k, ∀ (ps v : List Nat) (acts : List Act),
      Plan.Complete g δ (u :: v) (ps.map .reduce ++ acts) → ps.length ≤ k := by
    intro u
    by_cases h : ∃ v acts, Plan.Complete g δ (u :: v) acts
    · obtain ⟨v', acts', h'⟩ := h
      exact ⟨acts'.length, fun ps v acts hplan => hd.length_le wf hf hstacked hplan h'⟩
    · exact ⟨0, fun ps v acts hplan => absurd ⟨v, _, hplan⟩ h⟩
  choose k hk using each
  refine ⟨(Finset.range g.terminals.size).sup k, fun ps hchain => ?_⟩
  cases ps with
  | nil => exact Nat.zero_le _
  | cons p ps =>
    obtain ⟨u, v, acts, hplan⟩ := hchain.exists_complete wf hproductive (by simp)
    have hu : u < g.terminals.size := hplan.terminal_lt wf
    exact (hk u _ v acts hplan).trans (Finset.le_sup (Finset.mem_range.mpr hu))

end ShiftReduce

end TableParsing
