import TableParsing.Proofs.Encoded.Format
import TableParsing.Proofs.Table

/-! The encoding of a table answers every question as the table does. Targets, productions and
default reductions are in range and fit the words they are written in, so an encoding passes
its own check. -/

namespace TableParsing

theorem Automaton.Faithful.step_lt {g : Grammar} {a : Automaton} (hf : a.Faithful g) {s s' : Nat}
    {x : Symbol} (h : a.step s x = some s') : s' < a.states.size := by
  have hs : s < a.states.size := by
    by_contra hs
    rw [Automaton.step, Array.getElem?_eq_none (by omega)] at h
    cases h
  obtain ⟨γ, hγ⟩ := hf.reached s hs
  have hγ' : stateAfter a.step (x :: γ) = some s' := by rw [stateAfter, hγ, Option.bind_some, h]
  obtain ⟨st, hst, -⟩ := hf.state (x :: γ) s' hγ'
  exact (Array.getElem?_eq_some_iff.mp hst).1

theorem bind_eq_ok_of {ε : Type} {x y : Except ε Unit} (hx : x = .ok ()) (hy : y = .ok ()) :
    (x >>= fun _ => y) = .ok () := by
  rw [hx]
  exact hy

theorem forM_zipIdx_eq_ok {α ε : Type} {xs : Array α} {f : α × Nat → Except ε Unit}
    (h : ∀ a ∈ xs, ∀ i, f (a, i) = .ok ()) : xs.toList.zipIdx.forM f = .ok () := by
  rw [forM_eq_ok]
  rintro ⟨a, i⟩ he
  have ha := List.fst_mem_of_mem_zipIdx he
  exact h a (by simpa using ha) i

namespace Table

/-- Everything in a table is in range, and every number fits the word it is encoded in. -/
structure Encodable (table : Table) : Prop where
  reserved : 2 ≤ table.terminals.size
  rows_le : table.rows.size ≤ UInt32.size
  productions_le : table.productions.size ≤ UInt32.size
  width : ∀ row ∈ table.rows, row.actions.size = table.terminals.size
  shift_lt : ∀ row ∈ table.rows, ∀ s, some (.shift s) ∈ row.actions → s < table.rows.size
  reduce_lt : ∀ row ∈ table.rows, ∀ p, some (.reduce p) ∈ row.actions →
    p < table.productions.size
  goto_lt : ∀ row ∈ table.rows, ∀ n s, row.gotos.lookup n = some s →
    n < table.nonterminals.size ∧ s < table.rows.size
  default_lt : ∀ row ∈ table.rows, ∀ p, row.defaultReduction = some p →
    p < table.productions.size
  left_lt : ∀ p ∈ table.productions, p.left < table.nonterminals.size
  words : ∀ p ∈ table.productions, p.left < UInt64.size ∧ p.length < UInt64.size

section Generate

variable {g : Grammar} {a : Automaton}

theorem exists_state_of_row {row : Row} (h : row ∈ (generate g a).rows) :
    ∃ s st, a.states[s]? = some st ∧ row = rowOf st (cells g s st) := by
  obtain ⟨s, hs⟩ := Array.mem_iff_getElem?.mp h
  rw [getElem?_rows, Option.map_eq_some_iff] at hs
  obtain ⟨st, hst, rfl⟩ := hs
  exact ⟨s, st, hst, rfl⟩

theorem exists_action_of_mem {s : Nat} {st : Automaton.State} (hst : a.states[s]? = some st)
    {act : Action} (h : some act ∈ (rowOf st (cells g s st)).actions) :
    ∃ t, (generate g a).action s t = act := by
  rw [rowOf, List.mem_toArray, List.mem_map] at h
  obtain ⟨cell, hcell, hact⟩ := h
  rw [cells, List.mem_map] at hcell
  obtain ⟨t, ht, rfl⟩ := hcell
  refine ⟨t, ?_⟩
  rw [action_generate hst, if_pos (List.mem_range.mp ht), entry, hact]
  rfl

variable (hg : g.Defined) (hf : a.Faithful g)

include hg hf

theorem reduces_lt {s p : Nat} {st : Automaton.State} (hst : a.states[s]? = some st)
    (hp : p ∈ st.reduces.map (·.1)) : p < g.productions.size := by
  obtain ⟨γ, -, -, hd⟩ := hf.of_state hst
  exact hg.wellFormed.viable_lt ((hd.completed p).mp hp)

omit hg hf in
theorem size_productions : (generate g a).productions.size = g.productions.size := by
  simp [generate]

omit hg hf in
theorem exists_production_of_mem {shape : ProductionShape}
    (h : shape ∈ (generate g a).productions) : ∃ p, p < g.productions.size ∧
      shape = ⟨(g.production p).left, (g.production p).right.size, (g.production p).aliases⟩ := by
  obtain ⟨p, hp, rfl⟩ := Array.mem_iff_getElem.mp h
  refine ⟨p, size_productions (a := a) ▸ hp, ?_⟩
  rw [← production_generate (a := a), production, Array.getD_eq_getD_getElem?,
    Array.getElem?_eq_getElem hp, Option.getD_some]

theorem generate_encodable (hsize : a.states.size ≤ maxStates) : (generate g a).Encodable where
  reserved := by simpa [generate] using hg.bounded.terminals
  rows_le := by
    rw [size_rows]
    exact hsize.trans (by decide)
  productions_le := by
    rw [size_productions]
    exact hg.bounded.productions.trans (by decide)
  width := by
    intro row hrow
    obtain ⟨s, st, -, rfl⟩ := exists_state_of_row hrow
    simp [rowOf, cells, generate]
  shift_lt := by
    intro row hrow next hnext
    obtain ⟨s, st, hst, rfl⟩ := exists_state_of_row hrow
    obtain ⟨t, ht⟩ := exists_action_of_mem hst hnext
    rw [size_rows]
    exact hf.step_lt (action_shift ht)
  reduce_lt := by
    intro row hrow p hp
    obtain ⟨s, st, hst, rfl⟩ := exists_state_of_row hrow
    obtain ⟨t, ht⟩ := exists_action_of_mem hst hp
    obtain ⟨st', hst', hp'⟩ := action_reduce ht
    rw [size_productions]
    exact reduces_lt hg hf hst' hp'
  goto_lt := by
    intro row hrow n next hnext
    obtain ⟨s, st, hst, rfl⟩ := exists_state_of_row hrow
    have hstep : a.step s (.nonterminal n) = some next := by
      rw [← goto_generate (g := g), goto, getElem?_rows, hst]
      exact hnext
    rw [size_rows]
    refine ⟨?_, hf.step_lt hstep⟩
    obtain ⟨γ, -, -, hd⟩ := hf.of_state hst
    rw [Automaton.step, hst] at hstep
    obtain ⟨-, i, -, hi⟩ := (hd.moves _).mp ⟨next, hstep⟩
    exact (hg.wellFormed.nonterminal_proper (Item.next_mem hi)).2
  default_lt := by
    intro row hrow p hp
    obtain ⟨s, st, hst, rfl⟩ := exists_state_of_row hrow
    have hdefault : (generate g a).defaultReduction s = some p := by
      rw [defaultReduction, getElem?_rows, hst]
      exact hp
    obtain ⟨st', hst', hp'⟩ := defaultReduction_reduces hdefault
    rw [size_productions]
    exact reduces_lt hg hf hst' hp'
  left_lt := by
    intro shape hshape
    obtain ⟨p, hp, rfl⟩ := exists_production_of_mem hshape
    exact hg.wellFormed.left_lt hp
  words := by
    intro shape hshape
    obtain ⟨p, hp, rfl⟩ := exists_production_of_mem hshape
    have hleft := hg.wellFormed.left_lt hp
    have hword : maxIndex + 1 < UInt64.size := by decide
    constructor
    · exact lt_of_lt_of_le hleft (hg.bounded.nonterminals.trans hword.le)
    · exact lt_of_le_of_lt (hg.bounded.length p) ((Nat.lt_succ_self _).trans hword)

end Generate

def decodeAction (cell : UInt8 × UInt32) : Action :=
  if cell.1 = Kind.shift then .shift cell.2.toNat
  else if cell.1 = Kind.reduce then .reduce cell.2.toNat
  else if cell.1 = Kind.accept then .accept
  else .error

theorem decodeAction_encodeAction {act : Option Action}
    (hshift : ∀ s, act = some (.shift s) → s < UInt32.size)
    (hreduce : ∀ p, act = some (.reduce p) → p < UInt32.size) :
    decodeAction (encodeAction act) = act.getD .error := by
  cases act with
  | none => rfl
  | some act =>
    cases act with
    | shift s =>
      have hs := UInt32.toNat_ofNat_of_lt' (hshift s rfl)
      simp [decodeAction, encodeAction, Kind.shift, hs]
    | reduce p =>
      have hp := UInt32.toNat_ofNat_of_lt' (hreduce p rfl)
      simp [decodeAction, encodeAction, Kind.shift, Kind.reduce, hp]
    | accept => rfl
    | error => rfl

theorem encodeAction_kind_ne {act : Option Action} :
    (encodeAction act).1 ≠ Kind.error ↔ act.getD .error ≠ .error := by
  cases act with
  | none => simp [encodeAction]
  | some act => cases act <;> simp [encodeAction, Kind.shift, Kind.reduce, Kind.accept, Kind.error]

section Encode

variable {table : Table} (h : table.Encodable) {s : Nat}

theorem cell_of_none (hs : table.rows[s]? = none) (x : Nat) :
    table.encode.cell s x = (Kind.error, 0) := by
  simp [EncodedTable.cell, encode, hs]

section Row

variable {row : Row} (hs : table.rows[s]? = some row)

include h hs

theorem cell_terminal {t : Nat} (ht : t < table.terminals.size) :
    table.encode.cell s t = encodeAction (row.actions.getD t none) := by
  have hwidth := h.width row (Array.mem_of_getElem? hs)
  have hlt : t < row.actions.size := by omega
  simp [EncodedTable.cell, encode, hs, encodeRow, Array.getElem?_append, hlt]

theorem cell_nonterminal_of_some {n next : Nat} (hn : row.gotos.lookup n = some next) :
    table.encode.cell s (table.terminals.size + n) = (Kind.shift, UInt32.ofNat next) := by
  have hmem := Array.mem_of_getElem? hs
  have hlt := (h.goto_lt row hmem n next hn).1
  simp [EncodedTable.cell, encode, hs, encodeRow, h.width row hmem, hlt, hn]

theorem cell_nonterminal_of_none {n : Nat} (hn : row.gotos.lookup n = none) :
    table.encode.cell s (table.terminals.size + n) = (Kind.error, 0) := by
  have hmem := Array.mem_of_getElem? hs
  by_cases hlt : n < table.nonterminals.size
  · simp [EncodedTable.cell, encode, hs, encodeRow, h.width row hmem, hlt, hn]
  · simp [EncodedTable.cell, encode, hs, encodeRow, h.width row hmem, hlt]

theorem fits_row {t : Nat} : 
    (∀ next, row.actions.getD t none = some (.shift next) → next < table.rows.size) ∧
    ∀ p, row.actions.getD t none = some (.reduce p) → p < table.productions.size := by
  have hmem := Array.mem_of_getElem? hs
  exact ⟨fun next hnext => h.shift_lt row hmem next (mem_of_getD hnext),
    fun p hp => h.reduce_lt row hmem p (mem_of_getD hp)⟩

end Row

include h

theorem action_encode {t : Nat} (ht : t < table.terminals.size) :
    table.encode.action s t = table.action s t := by
  change decodeAction (table.encode.cell s t) = table.action s t
  rw [action]
  cases hs : table.rows[s]? with
  | none =>
    rw [cell_of_none hs]
    rfl
  | some row =>
    obtain ⟨hshift, hreduce⟩ := fits_row h hs
    rw [cell_terminal h hs ht]
    exact decodeAction_encodeAction (fun next hnext => (hshift next hnext).trans_le h.rows_le)
      fun p hp => (hreduce p hp).trans_le h.productions_le

theorem goto_encode (n : Nat) : table.encode.goto s n = table.goto s n := by
  have hterminals : table.encode.terminals = table.terminals := rfl
  simp only [EncodedTable.goto, hterminals, goto]
  cases hs : table.rows[s]? with
  | none =>
    rw [cell_of_none hs]
    rfl
  | some row =>
    rw [Option.bind_some]
    cases hn : row.gotos.lookup n with
    | none =>
      rw [cell_nonterminal_of_none h hs hn]
      rfl
    | some next =>
      have hlt := (h.goto_lt row (Array.mem_of_getElem? hs) n next hn).2.trans_le h.rows_le
      rw [cell_nonterminal_of_some h hs hn, if_pos rfl, UInt32.toNat_ofNat_of_lt' hlt]

theorem defaultReduction_encode : table.encode.defaultReduction s = table.defaultReduction s := by
  cases hs : table.rows[s]? with
  | none => simp [EncodedTable.defaultReduction, encode, defaultReduction, hs]
  | some row =>
    cases hdefault : row.defaultReduction with
    | none => simp [EncodedTable.defaultReduction, encode, defaultReduction, hs, hdefault]
    | some p =>
      have hp := h.default_lt row (Array.mem_of_getElem? hs) p hdefault
      have hlt : p < UInt32.size := hp.trans_le h.productions_le
      simpa [EncodedTable.defaultReduction, encode, defaultReduction, hs, hdefault] using
        UInt32.toNat_ofNat_of_lt' hlt

theorem production_encode (p : Nat) :
    (⟨(table.encode.production p).left.toNat, (table.encode.production p).length.toNat,
      (table.encode.production p).aliases⟩ : ProductionShape) = table.production p := by
  cases hp : table.productions[p]? with
  | none =>
    simp only [EncodedTable.production, encode, production, Array.getD_eq_getD_getElem?,
      Array.getElem?_map, hp]
    rfl
  | some shape =>
    obtain ⟨hleft, hlength⟩ := h.words shape (Array.mem_of_getElem? hp)
    simp [EncodedTable.production, encode, production, hp, UInt64.toNat_ofNat_of_lt' hleft,
      UInt64.toNat_ofNat_of_lt' hlength]

theorem expects_encode {t : Nat} (ht : t < table.terminals.size) :
    (table.encode.cell s t).1 ≠ Kind.error ↔ table.action s t ≠ .error := by
  cases hs : table.rows[s]? with
  | none => simp [cell_of_none hs, action, hs]
  | some row =>
    rw [cell_terminal h hs ht, encodeAction_kind_ne]
    simp only [action, hs]

theorem expected_encode : table.encode.expected s = table.expected s := by
  have hrange : List.range table.terminals.size =
      0 :: 1 :: List.range' 2 (table.terminals.size - 2) := by
    obtain ⟨n, hn⟩ := Nat.exists_eq_add_of_le' h.reserved
    rw [hn, List.range_eq_range', Nat.add_sub_cancel]
    rfl
  have hterminals : table.encode.terminals = table.terminals := rfl
  rw [EncodedTable.expected, expected, hrange, hterminals]
  rw [List.filter_cons_of_neg (by simp [Symbol.endOfInput]),
    List.filter_cons_of_neg (by simp [Symbol.errorToken])]
  apply List.filter_congr
  intro t ht
  have hbounds := List.mem_range'_1.mp ht
  have hkind := expects_encode h (s := s) (t := t) (by omega)
  rw [decide_eq_decide, hkind]
  constructor
  · exact fun haction => ⟨by simp only [Symbol.endOfInput]; omega,
      by simp only [Symbol.errorToken]; omega, haction⟩
  · exact fun haction => haction.2.2

theorem check_shift {state symbol next : Nat} (hnext : next < table.rows.size) :
    table.encode.checkCell state symbol (Kind.shift, UInt32.ofNat next) = .ok () := by
  have hsize : table.encode.rows.size = table.rows.size := by simp [encode]
  have hword := UInt32.toNat_ofNat_of_lt' (hnext.trans_le h.rows_le)
  simp [EncodedTable.checkCell, Kind.shift, Kind.error, Kind.accept, hword, hsize, hnext]

theorem check_reduce {state symbol p : Nat} (hp : p < table.productions.size) :
    table.encode.checkCell state symbol (Kind.reduce, UInt32.ofNat p) = .ok () := by
  have hsize : table.encode.productions.size = table.productions.size := by simp [encode]
  have hword := UInt32.toNat_ofNat_of_lt' (hp.trans_le h.productions_le)
  simp [EncodedTable.checkCell, Kind.shift, Kind.error, Kind.accept, Kind.reduce, hword, hsize, hp]

theorem check_row {row : Row} (hrow : row ∈ table.rows) (state : Nat) :
    table.encode.checkRow state (table.encodeRow row) = .ok () := by
  have hwidth : (table.encodeRow row).size = table.encode.width := by
    simp [encodeRow, EncodedTable.width, h.width row hrow, encode]
  rw [EncodedTable.checkRow, if_neg (not_not.mpr hwidth)]
  apply forM_zipIdx_eq_ok
  intro cell hcell symbol
  rw [encodeRow, Array.mem_append, Array.mem_map, Array.mem_map] at hcell
  rcases hcell with ⟨act, hact, rfl⟩ | ⟨n, -, rfl⟩
  · cases act with
    | none => rfl
    | some act =>
      cases act with
      | shift next => exact check_shift h (h.shift_lt row hrow next hact)
      | reduce p => exact check_reduce h (h.reduce_lt row hrow p hact)
      | accept => rfl
      | error => rfl
  · cases hn : row.gotos.lookup n with
    | none => rfl
    | some next => exact check_shift h (h.goto_lt row hrow n next hn).2

theorem check_defaults : table.encode.checkDefaults = .ok () := by
  have hproductions : table.encode.productions.size = table.productions.size := by simp [encode]
  rw [EncodedTable.checkDefaults, if_neg (by simp [encode])]
  apply forM_zipIdx_eq_ok
  intro target hmem state
  rw [encode, Array.mem_map] at hmem
  obtain ⟨row, hrow, rfl⟩ := hmem
  cases hdefault : row.defaultReduction with
  | none => rfl
  | some p =>
    have hp := h.default_lt row hrow p hdefault
    have hword := UInt32.toNat_ofNat_of_lt' (hp.trans_le h.productions_le)
    simp [EncodedTable.checkDefault, hword, hproductions, hp]

theorem check_production {shape : ProductionShape} (hshape : shape ∈ table.productions)
    (index : Nat) : table.encode.checkProduction index
      ⟨UInt64.ofNat shape.left, UInt64.ofNat shape.length, shape.aliases⟩ = .ok () := by
  have hword := UInt64.toNat_ofNat_of_lt' (h.words shape hshape).1
  have hnonterminals : table.encode.nonterminals = table.nonterminals := rfl
  simp [EncodedTable.checkProduction, hword, hnonterminals, h.left_lt shape hshape]

theorem validate_encode : table.encode.validate = .ok () := by
  unfold EncodedTable.validate
  apply bind_eq_ok_of
  · apply forM_zipIdx_eq_ok
    intro encoded hmem state
    rw [encode, Array.mem_map] at hmem
    obtain ⟨row, hrow, rfl⟩ := hmem
    exact check_row h hrow state
  apply bind_eq_ok_of
  · exact check_defaults h
  · apply forM_zipIdx_eq_ok
    intro encoded hmem index
    rw [encode, Array.mem_map] at hmem
    obtain ⟨shape, hshape, rfl⟩ := hmem
    exact check_production h hshape index

end Encode

end Table

end TableParsing
