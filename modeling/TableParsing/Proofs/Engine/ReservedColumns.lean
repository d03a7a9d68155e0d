import TableParsing.Proofs.Automaton.Method
import TableParsing.Proofs.Engine.Decoded
import TableParsing.Proofs.Table.Encoding

/-! The columns of the end of input and of the recovery token. They are the first two of a row
whatever the table, and the gotos follow the terminals that the table lists: the two ranges are
apart if it lists both reserved terminals. The check of a table does not ask for them. Where one is
missing its column is that of a goto, and an engine that recovers takes the goto for a shift. -/

namespace TableParsing

namespace EncodedTable

def overwrite (e : EncodedTable) (state symbol : Nat) (cell : UInt8 × UInt32) : EncodedTable :=
  { e with rows := e.rows.modify state fun row => row.setIfInBounds symbol cell }

/-- A lookup reads a cell if its answer can depend on what stands there. -/
def Reads {α : Type} (e : EncodedTable) (lookup : EncodedTable → α) (state symbol : Nat) : Prop :=
  ∃ cell, lookup (e.overwrite state symbol cell) ≠ lookup e

def Apart (e : EncodedTable) : Prop :=
  ∀ state n s x, e.Reads (·.goto state n) s x →
    ¬ e.Reads (·.action state Symbol.endOfInput) s x ∧
      ¬ e.Reads (·.action state Symbol.errorToken) s x

variable {e : EncodedTable}

theorem not_reads_iff {α : Type} {lookup : EncodedTable → α} {s x : Nat} :
    ¬ e.Reads lookup s x ↔ ∀ cell, lookup (e.overwrite s x cell) = lookup e := by
  simp [Reads]

theorem size_row (h : e.validate = .ok ()) {s : Nat} {row : Array (UInt8 × UInt32)}
    (hrow : e.rows[s]? = some row) : row.size = e.width := by
  obtain ⟨_, hrows, -⟩ := bind_eq_ok h
  have hcheck := of_forM_zipIdx hrows s row hrow
  by_contra hwidth
  simp [checkRow, hwidth] at hcheck

theorem cell_overwrite (h : e.validate = .ok ()) (s x : Nat) (cell : UInt8 × UInt32)
    (s' x' : Nat) : (e.overwrite s x cell).cell s' x' =
      if (s = s' ∧ x = x') ∧ s < e.rows.size ∧ x < e.width then cell else e.cell s' x' := by
  simp only [EncodedTable.cell, overwrite, Array.getD_eq_getD_getElem?, Array.getElem?_modify]
  by_cases hs : s = s'
  · subst hs
    cases hrow : e.rows[s]? with
    | none =>
      have hout : ¬ s < e.rows.size := by simpa using hrow
      simp [hout]
    | some row =>
      have hin : s < e.rows.size := (Array.getElem?_eq_some_iff.mp hrow).1
      have hwidth := size_row h hrow
      by_cases hx : x = x'
      · subst hx
        by_cases hlt : x < e.width
        · simp [hin, hlt, hwidth]
        · simp [hlt, hwidth]
      · simp [hx]
  · simp [hs]

theorem reads_cell_iff {α : Type} {decode : UInt8 × UInt32 → α}
    (hdecode : ∀ cell, ∃ other, decode other ≠ decode cell) (h : e.validate = .ok ())
    {state column s x : Nat} : e.Reads (fun e => decode (e.cell state column)) s x ↔
      (s = state ∧ x = column) ∧ s < e.rows.size ∧ x < e.width := by
  constructor
  · contrapose
    intro hother
    refine not_reads_iff.mpr fun cell => ?_
    simp only [cell_overwrite h, if_neg hother]
  · intro hhere
    obtain ⟨other, hother⟩ := hdecode (e.cell state column)
    refine ⟨other, ?_⟩
    simpa only [cell_overwrite h, if_pos hhere] using hother

def decodeGoto (cell : UInt8 × UInt32) : Option Nat :=
  if cell.1 = Kind.shift then some cell.2.toNat else none

theorem reads_action_iff (h : e.validate = .ok ()) {state t s x : Nat} :
    e.Reads (·.action state t) s x ↔ (s = state ∧ x = t) ∧ s < e.rows.size ∧ x < e.width := by
  change e.Reads (fun e => Table.decodeAction (e.cell state t)) s x ↔ _
  refine reads_cell_iff (fun cell => ?_) h
  by_cases haccept : Table.decodeAction cell = .accept
  · exact ⟨(Kind.error, 0), by rw [haccept]; decide⟩
  · exact ⟨(Kind.accept, 0), fun heq => haccept heq.symm⟩

theorem reads_goto_iff (h : e.validate = .ok ()) {state n s x : Nat} :
    e.Reads (·.goto state n) s x ↔
      (s = state ∧ x = e.terminals.size + n) ∧ s < e.rows.size ∧ x < e.width := by
  -- overwriting a cell keeps the terminals, so the column stays the same
  change e.Reads (fun e' => decodeGoto (e'.cell state (e.terminals.size + n))) s x ↔ _
  refine reads_cell_iff (fun cell => ?_) h
  by_cases hkind : cell.1 = Kind.shift
  · exact ⟨(Kind.error, 0), by simp [decodeGoto, hkind, Kind.error, Kind.shift]⟩
  · exact ⟨(Kind.shift, 0), by simp [decodeGoto, hkind]⟩

theorem apart_iff (h : e.validate = .ok ()) :
    e.Apart ↔ 2 ≤ e.terminals.size ∨ e.nonterminals.size = 0 ∨ e.rows.size = 0 := by
  constructor
  · intro hapart
    by_contra hfew
    simp only [not_or, Nat.not_le] at hfew
    obtain ⟨hterminals, hnonterminals, hrows⟩ := hfew
    -- the first goto stands in the column of a reserved terminal
    have hgoto : e.Reads (·.goto 0 0) 0 e.terminals.size :=
      (reads_goto_iff h).mpr ⟨⟨rfl, rfl⟩, by omega, by rw [width]; omega⟩
    obtain ⟨hend, herror⟩ := hapart 0 0 0 e.terminals.size hgoto
    obtain ⟨-, hin⟩ := (reads_goto_iff h).mp hgoto
    interval_cases hsize : e.terminals.size
    · exact hend ((reads_action_iff h).mpr ⟨⟨rfl, rfl⟩, hin⟩)
    · exact herror ((reads_action_iff h).mpr ⟨⟨rfl, rfl⟩, hin⟩)
  · intro henough state n s x hgoto
    obtain ⟨⟨-, hx⟩, hs, hlt⟩ := (reads_goto_iff h).mp hgoto
    rw [width] at hlt
    have htwo : 2 ≤ x := by omega
    constructor
    · intro hend
      obtain ⟨⟨-, hzero⟩, -⟩ := (reads_action_iff h).mp hend
      rw [Symbol.endOfInput] at hzero
      omega
    · intro herror
      obtain ⟨⟨-, hone⟩, -⟩ := (reads_action_iff h).mp herror
      rw [Symbol.errorToken] at hone
      omega

theorem action_shift_iff_goto {t : Nat} (ht : e.terminals.size ≤ t) (state next : Nat) :
    e.action state t = .shift next ↔ e.goto state (t - e.terminals.size) = some next := by
  have hcolumn : e.terminals.size + (t - e.terminals.size) = t := by omega
  simp only [action, goto, hcolumn]
  by_cases hkind : (e.cell state t).1 = Kind.shift
  · simp [hkind]
  · simp only [hkind, if_false]
    split_ifs <;> simp

end EncodedTable

namespace ShiftReduce

open EncodedTable

theorem reads_recoveryPoint {e : EncodedTable} {states : List Nat} {popped s x : Nat}
    (h : e.Reads (fun e => (Tables.ofEncoded e).recoveryPoint states popped) s x) :
    ∃ state ∈ states, e.Reads (·.action state Symbol.errorToken) s x := by
  contrapose h
  simp only [not_exists, not_and, not_reads_iff] at h ⊢
  intro cell
  induction states generalizing popped with
  | nil => rfl
  | cons state states ih =>
    obtain ⟨hstate, hstates⟩ := List.forall_mem_cons.mp h
    have hshifts : (Tables.ofEncoded (e.overwrite s x cell)).shiftsError state =
        (Tables.ofEncoded e).shiftsError state := by
      simp only [Tables.shiftsError, Tables.ofEncoded, hstate cell]
    simp only [Tables.recoveryPoint, hshifts, ih hstates]

/-- A table that was read from a text keeps the gotos apart from what is read at the end of input
and for the recovery token exactly if it lists two terminals or has nothing to go to; a recovery
then reads no goto, whatever the stack. The column of a terminal that is not listed reads a goto as
a shift. Every table of a grammar keeps them apart. -/
theorem columns_apart_iff {text : String} {e : EncodedTable} (h : parse text = .ok e) :
    (e.Apart ↔ 2 ≤ e.terminals.size ∨ e.nonterminals.size = 0 ∨ e.rows.size = 0) ∧
    (e.Apart → ∀ state n s x, e.Reads (·.goto state n) s x → ∀ states popped,
      ¬ e.Reads (fun e => (Tables.ofEncoded e).recoveryPoint states popped) s x) ∧
    (∀ t, e.terminals.size ≤ t → ∀ state next,
      e.action state t = .shift next ↔ e.goto state (t - e.terminals.size) = some next) ∧
    ∀ (g : Grammar) (a : Automaton) (m : Method), g.Defined → m.automaton g = .ok a →
      e = (Table.generate g a).encode → e.Apart := by
  have hvalid := validate_of_parse h
  refine ⟨apart_iff hvalid, ?_, fun t ht => action_shift_iff_goto ht, ?_⟩
  · intro hapart state n s x hgoto states popped hpoint
    obtain ⟨state', -, herror⟩ := reads_recoveryPoint hpoint
    -- both cells stand in one row, so the error cell is that of the goto's own state
    obtain ⟨⟨rfl, -⟩, -⟩ := (reads_goto_iff hvalid).mp hgoto
    obtain ⟨⟨rfl, -⟩, -⟩ := (reads_action_iff hvalid).mp herror
    exact (hapart s n s x hgoto).2 herror
  · rintro g a m hg ha rfl
    have hf := (Method.automaton_spec hg.wellFormed ha).1
    have hencodable := Table.generate_encodable hg hf (Method.size_le ha)
    exact (apart_iff hvalid).mpr (Or.inl hencodable.reserved)

theorem columns_apart_tolerant :
    let e := (Table.generate .tolerant .tolerant).encode
    parse e.render = .ok e ∧ 2 ≤ e.terminals.size ∧ e.Apart ∧
      ∀ x, e.Reads (·.goto 0 1) 0 x → ∀ states popped,
        ¬ e.Reads (fun e => (Tables.ofEncoded e).recoveryPoint states popped) 0 x := by
  intro e
  have hf := (Method.automaton_spec Grammar.tolerant_defined.wellFormed Method.slr_tolerant).1
  have hencodable := Table.generate_encodable Grammar.tolerant_defined hf
    (Method.size_le Method.slr_tolerant)
  have hparse := (parse_rendered (Table.validate_encode hencodable)).1
  obtain ⟨-, hrecovery, -, hgrammar⟩ := columns_apart_iff hparse
  have hapart := hgrammar _ _ _ Grammar.tolerant_defined Method.slr_tolerant rfl
  exact ⟨hparse, hencodable.reserved, hapart, fun x hgoto => hrecovery hapart 0 1 0 x hgoto⟩

/-- A table that lists the end of input only. The goto of its first nonterminal stands in the
column of the recovery token, and a recovery follows it. -/
theorem columns_meet :
    let e : EncodedTable :=
      { terminals := #["$end"]
        nonterminals := #["$accept", "A"]
        productions := #[]
        rows := #[#[(0, 0), (1, 0), (0, 0)]]
        defaultReductions := #[]
        conflicts := 0 }
    parse e.render = .ok e ∧ e.goto 0 0 = some 0 ∧ e.action 0 Symbol.errorToken = .shift 0 ∧
      e.Reads (·.goto 0 0) 0 1 ∧ e.Reads (·.action 0 Symbol.errorToken) 0 1 ∧
      (Tables.ofEncoded e).recoveryPoint [0] 0 = some (0, 0) ∧
      ¬ ∀ text e, parse text = .ok e → e.Apart := by
  intro e
  have hparse := (parse_rendered (e := e) rfl).1
  have hgoto : e.Reads (·.goto 0 0) 0 1 := ⟨(Kind.error, 0), by decide⟩
  have herror : e.Reads (·.action 0 Symbol.errorToken) 0 1 := ⟨(Kind.error, 0), by decide⟩
  exact ⟨hparse, rfl, rfl, hgoto, herror, rfl,
    fun h => (h _ e hparse 0 0 0 1 hgoto).2 herror⟩

end ShiftReduce

end TableParsing
