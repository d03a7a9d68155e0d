import TableParsing.Proofs.Engine.Predictive.Run
import TableParsing.Proofs.Table.Prediction

/-! Every run of the predictive engine comes to an end, whatever its table predicts and whatever
its actions do. Between two tokens no nonterminal is expanded inside itself, so that expansions
nest no deeper than there are nonterminals. Every goal weighs more than all the goals that an
expansion, one level deeper, can put in its place; hence each step that consumes no token makes
the goals lighter. A token frees the goals left from what encloses them, which multiplies their
weight by no more than that of one goal, so the number of steps is bounded by the table and the
number of items of the source alone. -/

namespace TableParsing.Predictive

variable {V P : Type} {parser : Parser V P} {env : Environment V P} {c c' : Config V P}

def Config.unread (c : Config V P) : Nat :=
  (c.lookahead.bind (·.token)).toList.length + c.input.length

theorem unread_look {la : Lookahead V} {input : Source V}
    (h : parser.look c = .ok (la, input)) :
    c.unread = la.token.toList.length + input.length := by
  simp only [Parser.look] at h
  split at h
  case h_1 held =>
    cases h
    rw [Config.unread, held]
    rfl
  case h_2 held =>
    rw [Config.unread, held]
    split at h
    · cases h
      simp_all
    · cases h
      simp_all [Nat.add_comm]
    · cases h

def width (table : PredictionTable) : Nat :=
  (table.productions.toList.map (·.right.size)).foldr max 0

theorem size_le_width (table : PredictionTable) (p : Nat) :
    (table.production p).right.size ≤ width table := by
  have hle : ∀ sizes : List Nat, ∀ n ∈ sizes, n ≤ sizes.foldr max 0 := by
    intro sizes
    induction sizes with
    | nil => simp
    | cons m sizes ih =>
      rw [List.forall_mem_cons, List.foldr_cons]
      exact ⟨Nat.le_max_left _ _, fun n hn => Nat.le_trans (ih n hn) (Nat.le_max_right _ _)⟩
  rw [PredictionTable.production, Array.getD_eq_getD_getElem?]
  cases hp : table.productions[p]? with
  | none => exact Nat.zero_le _
  | some production =>
    have hmem := Array.mem_toList_iff.mpr (Array.mem_of_getElem? hp)
    exact hle _ _ (List.mem_map_of_mem hmem)

def level (pending : List Expansion) (height : Nat) : Nat :=
  pending.countP fun e => e.depth ≤ height

section Weight

variable (width bound : Nat)

def weight (pending : List Expansion) : List Goal → Nat
  | [] => 0
  | _ :: goals => (width + 2) ^ (bound - level pending goals.length) + weight pending goals

variable {width bound}

theorem weight_congr {pending pending' : List Expansion} {goals : List Goal}
    (h : ∀ height < goals.length, level pending height = level pending' height) :
    weight width bound pending goals = weight width bound pending' goals := by
  induction goals with
  | nil => rfl
  | cons goal goals ih =>
    rw [weight, weight, h goals.length (by simp)]
    rw [ih fun height hheight => h height (by simp only [List.length_cons]; omega)]

theorem weight_append_le {pending : List Expansion} {goals : List Goal} {k : Nat}
    (h : ∀ height, goals.length ≤ height → k ≤ level pending height) (front : List Goal) :
    weight width bound pending (front ++ goals) ≤
      front.length * (width + 2) ^ (bound - k) + weight width bound pending goals := by
  induction front with
  | nil => simp
  | cons goal front ih =>
    have hk := h (front ++ goals).length (by simp)
    have hle : (width + 2) ^ (bound - level pending (front ++ goals).length) ≤
        (width + 2) ^ (bound - k) := Nat.pow_le_pow_right (by omega) (by omega)
    rw [List.cons_append, weight, List.length_cons, Nat.succ_mul]
    omega

theorem weight_nil (goals : List Goal) :
    weight width bound [] goals = goals.length * (width + 2) ^ bound := by
  induction goals with
  | nil => simp [weight]
  | cons goal goals ih =>
    rw [weight, ih, List.length_cons, Nat.succ_mul, Nat.add_comm]
    rfl

theorem length_le_weight (pending : List Expansion) (goals : List Goal) :
    goals.length ≤ weight width bound pending goals := by
  induction goals with
  | nil => exact Nat.zero_le _
  | cons goal goals ih =>
    have hpos : 0 < (width + 2) ^ (bound - level pending goals.length) := Nat.pow_pos (by omega)
    rw [weight, List.length_cons]
    omega

theorem weight_expand {pending : List Expansion} {goals front : List Goal} {n : Nat}
    (hlevel : level pending goals.length < bound) (hfront : front.length ≤ width + 1) :
    weight width bound (pending ++ [⟨n, goals.length⟩]) (front ++ goals) <
      (width + 2) ^ (bound - level pending goals.length) + weight width bound pending goals := by
  have hlower : weight width bound (pending ++ [⟨n, goals.length⟩]) goals =
      weight width bound pending goals := by
    apply weight_congr
    intro height hheight
    have hout : ¬ goals.length ≤ height := by omega
    simp [level, List.countP_append, hout]
  have hinner : ∀ height, goals.length ≤ height →
      level pending goals.length + 1 ≤ level (pending ++ [⟨n, goals.length⟩]) height := by
    intro height hheight
    have hmono : level pending goals.length ≤ level pending height := by
      apply List.countP_mono_left
      intro e _ he
      simp only [decide_eq_true_eq] at he ⊢
      omega
    have happend : level (pending ++ [⟨n, goals.length⟩]) height = level pending height + 1 := by
      simp [level, List.countP_append, hheight]
    omega
  have hle := @weight_append_le width bound _ _ _ hinner front
  have hpow : (width + 2) ^ (bound - level pending goals.length) =
      (width + 2) * (width + 2) ^ (bound - (level pending goals.length + 1)) := by
    rw [← Nat.pow_succ']
    congr 1
    omega
  have hpos : 0 < (width + 2) ^ (bound - (level pending goals.length + 1)) :=
    Nat.pow_pos (by omega)
  have hmul : front.length * (width + 2) ^ (bound - (level pending goals.length + 1)) ≤
      (width + 1) * (width + 2) ^ (bound - (level pending goals.length + 1)) :=
    Nat.mul_le_mul_right _ hfront
  rw [hlower] at hle
  rw [hpow]
  have hsplit : (width + 2) * (width + 2) ^ (bound - (level pending goals.length + 1)) =
      (width + 1) * (width + 2) ^ (bound - (level pending goals.length + 1)) +
        (width + 2) ^ (bound - (level pending goals.length + 1)) := by
    rw [Nat.succ_mul]
  omega

end Weight

/-- The nonterminals under expansion since the last token are distinct and have rows. -/
structure Guarded (bound : Nat) (c : Config V P) : Prop where
  nodup : (c.pending.map (·.symbol)).Nodup
  lt : ∀ e ∈ c.pending, e.symbol < bound

theorem guarded_start (bound : Nat) (source : Source V) (params : P) :
    Guarded bound (start source params) := ⟨List.nodup_nil, by simp [start]⟩

theorem Guarded.length_lt {bound n : Nat} (h : Guarded bound c) (hn : n < bound)
    (hnew : ∀ e ∈ c.pending, e.symbol ≠ n) : c.pending.length < bound := by
  have hnodup : (n :: c.pending.map (·.symbol)).Nodup := by
    refine List.nodup_cons.mpr ⟨fun hmem => ?_, h.nodup⟩
    obtain ⟨e, he, heq⟩ := List.mem_map.mp hmem
    exact hnew e he heq
  have hsubset : n :: c.pending.map (·.symbol) ⊆ List.range bound := by
    intro m hm
    rw [List.mem_range]
    rcases List.mem_cons.mp hm with rfl | hm
    · exact hn
    · obtain ⟨e, he, rfl⟩ := List.mem_map.mp hm
      exact h.lt e he
  have hle := (hnodup.subperm hsubset).length_le
  simpa using hle

theorem Effect.guarded {e : Event V P} (h : Effect parser env c e c')
    (hc : Guarded parser.table.rows.size c) : Guarded parser.table.rows.size c' := by
  cases h with
  | consume => exact ⟨List.nodup_nil, by simp [taken]⟩
  | ending => exact ⟨hc.nodup, hc.lt⟩
  | @expand n t p goals la input _ _ _ hp hnew =>
    refine ⟨?_, ?_⟩
    · simp only [expanded, List.map_append, List.map_singleton]
      refine List.nodup_append.mpr ⟨hc.nodup, List.nodup_singleton _, ?_⟩
      intro m hm m' hm' heq
      obtain ⟨e, he, rfl⟩ := List.mem_map.mp hm
      exact hnew e he (heq.trans (List.mem_singleton.mp hm'))
    · intro e he
      rcases List.mem_append.mp he with he | he
      · exact hc.lt e he
      · cases List.mem_singleton.mp he
        exact PredictionTable.lt_of_predict hp
  | reduce =>
    refine ⟨hc.nodup.sublist (List.filter_sublist.map _), ?_⟩
    intro e he
    exact hc.lt e (List.mem_of_mem_filter he)

theorem Effect.smaller {e : Event V P} (h : Effect parser env c e c')
    (hc : Guarded parser.table.rows.size c) {width : Nat}
    (hwidth : ∀ p, (parser.table.production p).right.size ≤ width) :
    c'.unread + 1 = c.unread ∧ c'.pending = [] ∧ c'.goals.length < c.goals.length ∨
      c'.unread = c.unread ∧
      weight width parser.table.rows.size c'.pending c'.goals <
        weight width parser.table.rows.size c.pending c.goals := by
  have hpos : ∀ k, 0 < (width + 2) ^ k := fun k => Nat.pow_pos (by omega)
  cases h with
  | consume hgoals hlook _ htoken =>
    refine Or.inl ⟨?_, rfl, ?_⟩
    · rw [unread_look hlook, htoken]
      simp [taken, Config.unread, Nat.add_comm]
    · rw [hgoals]
      exact Nat.lt_succ_self _
  | ending hgoals hlook _ htoken =>
    refine Or.inr ⟨(unread_look hlook).symm, ?_⟩
    rw [hgoals, weight]
    exact Nat.lt_add_of_pos_left (hpos _)
  | @expand n t p goals la input hgoals hlook _ hp hnew =>
    refine Or.inr ⟨(unread_look hlook).symm, ?_⟩
    rw [hgoals, weight]
    have hlength := hc.length_lt (PredictionTable.lt_of_predict hp) hnew
    have hlevel : level c.pending goals.length ≤ c.pending.length := List.countP_le_length
    have hfront : ((parser.table.production p).right.toList.map Goal.symbol ++
        [Goal.reduce p]).length ≤ width + 1 := by
      have hsize := hwidth p
      simp only [List.length_append, List.length_map, Array.length_toList, List.length_singleton]
      omega
    have hlt := weight_expand (n := n) (Nat.lt_of_le_of_lt hlevel hlength) hfront
    rwa [List.append_assoc] at hlt
  | @reduce p goals la input v after context hgoals hlook =>
    refine Or.inr ⟨(unread_look hlook).symm, ?_⟩
    rw [hgoals, weight]
    -- the expansions closed now enclose none of the goals beneath
    have hsame : weight width parser.table.rows.size
        (c.pending.filter fun e => e.depth < goals.length) goals =
          weight width parser.table.rows.size c.pending goals := by
      apply weight_congr
      intro height hheight
      rw [level, level, List.countP_filter]
      apply List.countP_congr
      intro e _
      simp only [Bool.and_eq_true, decide_eq_true_eq]
      omega
    simp only [reduced, hsame]
    exact Nat.lt_add_of_pos_left (hpos _)

/-- What the goals and the items left may still cost. -/
def charge (width bound : Nat) (c : Config V P) : Nat :=
  weight width bound c.pending c.goals * ((width + 2) ^ bound) ^ c.unread

theorem Effect.charge_lt {e : Event V P} (h : Effect parser env c e c')
    (hc : Guarded parser.table.rows.size c) :
    charge (width parser.table) parser.table.rows.size c' <
      charge (width parser.table) parser.table.rows.size c := by
  have hpos : ∀ k, 0 < ((width parser.table + 2) ^ parser.table.rows.size) ^ k :=
    fun k => Nat.pow_pos (Nat.pow_pos (by omega))
  rw [charge, charge]
  rcases h.smaller hc (size_le_width parser.table) with ⟨hunread, hpending, hgoals⟩ | ⟨heq, hlt⟩
  · -- the goals left weigh as much as the token's factor times their number
    have hlength : c.goals.length ≤
        weight (width parser.table) parser.table.rows.size c.pending c.goals :=
      length_le_weight c.pending c.goals
    rw [hpending, weight_nil, ← hunread, Nat.pow_succ', Nat.mul_assoc]
    exact Nat.mul_lt_mul_of_pos_right (by omega)
      (Nat.mul_pos (Nat.pow_pos (by omega)) (hpos _))
  · rw [heq]
    exact Nat.mul_lt_mul_of_pos_right hlt (hpos _)

theorem exists_stop_within (parser : Parser V P) (env : Environment V P) {c : Config V P}
    (hc : Guarded parser.table.rows.size c) :
    ∃ events d outcome d', Steps parser env c events d ∧
      parser.step env d = .stop outcome d' ∧
      events.length ≤ charge (width parser.table) parser.table.rows.size c := by
  induction hcharge : charge (width parser.table) parser.table.rows.size c
    using Nat.strong_induction_on generalizing c with
  | _ total ih =>
    cases hstep : parser.step env c with
    | stop outcome d => exact ⟨[], c, outcome, d, .refl c, hstep, Nat.zero_le _⟩
    | next e c' =>
      have heffect := step_effect hstep
      have hlt := heffect.charge_lt hc
      rw [hcharge] at hlt
      obtain ⟨events, d, outcome, d', hsteps, hstop, hlength⟩ :=
        ih _ hlt (heffect.guarded hc) rfl
      refine ⟨e :: events, d, outcome, d', .head hstep hsteps, hstop, ?_⟩
      rw [List.length_cons]
      omega

theorem exists_stop (parser : Parser V P) (env : Environment V P) {c : Config V P}
    (hc : Guarded parser.table.rows.size c) :
    ∃ events d outcome d', Steps parser env c events d ∧
      parser.step env d = .stop outcome d' := by
  obtain ⟨events, d, outcome, d', hsteps, hstop, -⟩ := exists_stop_within parser env hc
  exact ⟨events, d, outcome, d', hsteps, hstop⟩

def stepBound (table : PredictionTable) (items : Nat) : Nat :=
  ((width table + 2) ^ table.rows.size) ^ (items + 1)

theorem charge_start (table : PredictionTable) (source : Source V) (params : P) :
    charge (width table) table.rows.size (start source params) =
      stepBound table source.length := by
  simp only [charge, start, weight_nil, stepBound, Config.unread, Nat.pow_succ']
  simp

/-- Whatever the grammar, the actions and the answers to errors, every run over a finite source
ends after a bounded number of steps, and further fuel changes nothing. -/
theorem run_stops (g : Grammar) (actions : Actions V P) (env : Environment V P)
    (source : Source V) (params : P) :
    let parser : Parser V P := ⟨.generate g, actions⟩
    ∃ r, ∀ fuel, stepBound (.generate g) source.length < fuel →
      parser.run env fuel (start source params) = some r := by
  intro parser
  obtain ⟨events, d, outcome, d', hsteps, hstop, hlength⟩ :=
    exists_stop_within parser env (guarded_start _ source params)
  rw [charge_start] at hlength
  exact ⟨_, fun fuel hfuel => (hsteps.run hstop (Nat.lt_of_le_of_lt hlength hfuel)).1⟩

end TableParsing.Predictive
