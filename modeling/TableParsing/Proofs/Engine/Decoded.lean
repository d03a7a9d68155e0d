import TableParsing.Proofs.Encoded.Format
import TableParsing.Proofs.Engine.Recovery

/-! A table that was read from a text drives the engine safely, whoever wrote it. The check of a
table bounds the targets of its cells and of its default reductions and the left sides of its
productions, and nothing else: the lengths of productions are any words, gotos lead anywhere.
These bounds are kept by every step. A reduction with all its indices, subtractions and cuts
checked is then always defined, and is the one that the engine makes. -/

namespace TableParsing

theorem of_forM_zipIdx {α ε : Type} {xs : Array α} {f : α × Nat → Except ε Unit}
    (h : xs.toList.zipIdx.forM f = .ok ()) : ∀ i a, xs[i]? = some a → f (a, i) = .ok () := by
  intro i a ha
  apply forM_eq_ok.mp h
  rw [List.mk_mem_zipIdx_iff_getElem?]
  simpa using ha

namespace EncodedTable

structure InRange (e : EncodedTable) : Prop where
  shift : ∀ {s t next}, e.action s t = .shift next → next < e.rows.size
  reduce : ∀ {s t p}, e.action s t = .reduce p → p < e.productions.size
  goto : ∀ {s n next}, e.goto s n = some next → next < e.rows.size
  default : ∀ {s p}, e.defaultReduction s = some p → p < e.productions.size
  left : ∀ p ∈ e.productions, p.left.toNat < e.nonterminals.size

variable {e : EncodedTable}

theorem target_lt {state symbol : Nat} {cell : UInt8 × UInt32}
    (h : e.checkCell state symbol cell = .ok ()) :
    (cell.1 = Kind.shift → cell.2.toNat < e.rows.size) ∧
      (cell.1 = Kind.reduce → cell.2.toNat < e.productions.size) := by
  obtain ⟨kind, target⟩ := cell
  constructor
  · rintro rfl
    by_contra hlt
    simp [checkCell, Kind.error, Kind.accept, Kind.shift, hlt] at h
  · rintro rfl
    by_contra hlt
    simp [checkCell, Kind.error, Kind.accept, Kind.shift, Kind.reduce, hlt] at h

theorem checkCell_cell (h : e.rows.toList.zipIdx.forM (fun (row, state) => e.checkRow state row) =
    .ok ()) (s t : Nat) : e.checkCell s t (e.cell s t) = .ok () := by
  rw [cell, Array.getD_eq_getD_getElem?, Array.getD_eq_getD_getElem?]
  cases hrow : e.rows[s]? with
  | none => rfl
  | some row =>
    have hcheck := of_forM_zipIdx h s row hrow
    simp only [checkRow] at hcheck
    split at hcheck
    · cases hcheck
    · cases hcell : row[t]? with
      | none => simp [hcell, checkCell]
      | some cell =>
        rw [Option.getD_some, hcell]
        exact of_forM_zipIdx hcheck t cell hcell

theorem inRange_of_validate (h : e.validate = .ok ()) : e.InRange := by
  obtain ⟨_, hrows, h⟩ := bind_eq_ok h
  obtain ⟨_, hdefaults, hproductions⟩ := bind_eq_ok h
  have hcell : ∀ s t, _ := fun s t => target_lt (checkCell_cell hrows s t)
  refine ⟨?_, ?_, ?_, ?_, ?_⟩
  · intro s t next haction
    simp only [action] at haction
    split_ifs at haction with hkind
    cases haction
    exact (hcell s t).1 hkind
  · intro s t p haction
    simp only [action] at haction
    split_ifs at haction with hshift hreduce
    cases haction
    exact (hcell s t).2 hreduce
  · intro s n next hgoto
    simp only [goto] at hgoto
    split_ifs at hgoto with hkind
    cases hgoto
    exact (hcell s _).1 hkind
  · intro s p hdefault
    rw [defaultReduction, Array.getD_eq_getD_getElem?, Option.map_eq_some_iff] at hdefault
    obtain ⟨target, htarget, rfl⟩ := hdefault
    cases hentry : e.defaultReductions[s]? with
    | none => simp [hentry] at htarget
    | some entry =>
      obtain rfl : entry = some target := by simpa [hentry] using htarget
      simp only [checkDefaults] at hdefaults
      split at hdefaults
      · cases hdefaults
      · have hcheck := of_forM_zipIdx hdefaults s _ hentry
        by_contra hlt
        simp [checkDefault, hlt] at hcheck
  · intro p hp
    obtain ⟨i, hi⟩ := Array.mem_iff_getElem?.mp hp
    have hcheck := of_forM_zipIdx hproductions i p hi
    by_contra hlt
    simp [checkProduction, hlt] at hcheck

end EncodedTable

namespace ShiftReduce

variable {V P : Type}

/-- The stacks apart, each with its top last. -/
structure Stacks (V : Type) where
  states : List Nat
  values : List (Option V)
  locations : List Location

def Stacks.ofEntries (states : List Nat) (entries : List (Entry V)) : Stacks V where
  states := states.reverse
  values := (entries.map (·.value)).reverse
  locations := (entries.map (·.location)).reverse

def Config.stacks (c : Config V P) : Stacks V := .ofEntries c.states c.entries

def Stacks.entries (s : Stacks V) : List (Entry V) :=
  List.zipWith Entry.mk s.values.reverse s.locations.reverse

def sub? (m n : Nat) : Option Nat := if n ≤ m then some (m - n) else none

def splitOff? {α : Type} (l : List α) (i : Nat) : Option (List α × List α) :=
  if i ≤ l.length then some (l.take i, l.drop i) else none

def Stacks.cut? (s : Stacks V) (n : Nat) : Option (Stacks V × Stacks V) := do
  let split ← sub? s.values.length n
  let (values, cutValues) ← splitOff? s.values split
  let (locations, cutLocations) ← splitOff? s.locations split
  let height ← sub? s.states.length n
  let (states, cutStates) ← splitOff? s.states height
  return (⟨states, values, locations⟩, ⟨cutStates, cutValues, cutLocations⟩)

/-- A reduction by an encoded table that has no result where a production, a difference or a
position to cut a stack at is out of range. -/
def reduce? (e : EncodedTable) (actions : Actions V P) (env : Environment V P)
    (c : Config V P) (p : Nat) : Option (Move V P) := do
  let shape ← e.productions[p]?
  if c.stacks.states.length ≤ shape.length.toNat then
    return .stop (.error .emptyStack) c
  let (below, handle) ← c.stacks.cut? shape.length.toNat
  let context := Context.ofReduction p shape.aliases handle.entries.reverse below.entries c.params
  let (reply, after) := actions.run env.nested context
  let c := { c with params := after.params }
  match reply with
  | .accept v => return .stop (.ok v) c
  | .abort => return .stop (.error .aborted) c
  | .value v =>
    match below.states.reverse with
    | [] => return .stop (.error .emptyStack) c
    | state :: deeper =>
      match e.goto state shape.left.toNat with
      | none => return .stop (.error .missingGoto) c
      | some next =>
        return .next (.reduce context) { c with
          states := next :: state :: deeper
          entries := ⟨v, after.location⟩ :: below.entries }

@[simp] theorem Stacks.entries_ofEntries (states : List Nat) (entries : List (Entry V)) :
    (ofEntries states entries).entries = entries := by
  simp only [Stacks.entries, ofEntries, List.reverse_reverse]
  induction entries with
  | nil => rfl
  | cons entry entries ih => exact congrArg (entry :: ·) ih

theorem splitOff?_reverse {α : Type} {l : List α} {n : Nat} (h : n ≤ l.length) :
    splitOff? l.reverse (l.length - n) = some ((l.drop n).reverse, (l.take n).reverse) := by
  have hn : l.length - (l.length - n) = n := by omega
  rw [splitOff?, if_pos (by simp), List.take_reverse, List.drop_reverse, hn]

theorem Stacks.cut?_ofEntries {states : List Nat} {entries : List (Entry V)}
    (heights : states.length = entries.length) {n : Nat} (hn : n ≤ states.length) :
    (ofEntries states entries).cut? n = some (ofEntries (states.drop n) (entries.drop n),
      ofEntries (states.take n) (entries.take n)) := by
  have hvalues := splitOff?_reverse (l := entries.map (·.value)) (n := n) (by simp; omega)
  have hlocations := splitOff?_reverse (l := entries.map (·.location)) (n := n) (by simp; omega)
  rw [List.length_map] at hvalues hlocations
  simp [cut?, ofEntries, sub?, hvalues, hlocations, splitOff?_reverse hn, hn, heights ▸ hn,
    List.map_drop, List.map_take]

theorem reduce?_eq {e : EncodedTable} {actions : Actions V P} {env : Environment V P}
    {c : Config V P} {p : Nat} (hp : p < e.productions.size)
    (heights : c.states.length = c.entries.length) :
    reduce? e actions env c p = some (Parser.reduce ⟨.ofEncoded e, actions⟩ env c p) := by
  have hshape : e.productions[p]? = some (e.production p) := by
    rw [EncodedTable.production, Array.getD_eq_getD_getElem?, Array.getElem?_eq_getElem hp]
    rfl
  have hheight : c.stacks.states.length = c.states.length := List.length_reverse
  by_cases hshort : c.states.length ≤ (e.production p).length.toNat
  · simp [reduce?, hshape, hheight, hshort, Parser.reduce, Tables.ofEncoded,
      List.drop_eq_nil_of_le hshort]
  · have hcut : c.stacks.cut? (e.production p).length.toNat = _ :=
      Stacks.cut?_ofEntries heights (Nat.le_of_not_le hshort)
    obtain ⟨state, deeper, hdrop⟩ : ∃ state deeper,
        c.states.drop (e.production p).length.toNat = state :: deeper := by
      apply List.exists_cons_of_ne_nil
      rw [Ne, List.drop_eq_nil_iff]
      exact hshort
    have hstates : ∀ entries : List (Entry V),
        (Stacks.ofEntries (state :: deeper) entries).states.reverse = state :: deeper :=
      fun _ => List.reverse_reverse _
    simp only [reduce?, hshape, Option.bind_eq_bind, Option.bind_some, hheight, if_neg hshort,
      hcut, hdrop, hstates, Stacks.entries_ofEntries, Parser.reduce,
      Tables.ofEncoded]
    rcases actions.run env.nested _ with ⟨reply, after⟩
    cases reply with
    | accept v => rfl
    | abort => rfl
    | value v => cases e.goto state (e.production p).left.toNat <;> rfl

def Parser.reduction? (parser : Parser V P) (c : Config V P) : Option (Config V P × Nat) :=
  match c.states with
  | [] => none
  | state :: _ =>
    match parser.tables.defaultReduction state with
    | some p => some (c, p)
    | none =>
      match parser.look c with
      | .error _ => none
      | .ok (la, input) =>
        match parser.tables.actionOn state la with
        | .reduce p => some ({ c with lookahead := some la, input }, p)
        | _ => none

theorem step_reduction? {parser : Parser V P} (env : Environment V P) {c c₁ : Config V P}
    {p : Nat} (h : parser.reduction? c = some (c₁, p)) :
    parser.step env c = parser.reduce env c₁ p ∧ c₁.states = c.states ∧ c₁.entries = c.entries ∧
      ∃ s, parser.tables.defaultReduction s = some p ∨
        ∃ u, parser.tables.action s u = .reduce p := by
  simp only [Parser.reduction?] at h
  split at h
  · cases h
  case h_2 s states hstates =>
    split at h
    case h_1 hdefault =>
      cases h
      exact ⟨step_default hstates hdefault, rfl, rfl, s, Or.inl hdefault⟩
    case h_2 hdefault =>
      split at h
      · cases h
      case h_2 la input hlook =>
        split at h
        case h_1 haction =>
          cases h
          obtain ⟨u, -, hu⟩ := Tables.actionOn_eq haction (by simp)
          exact ⟨step_reduce hstates hdefault hlook haction, rfl, rfl, s, Or.inr ⟨u, hu⟩⟩
        case h_2 => cases h

/-- The states on the stack are rows of the table, the first one apart, and each has an entry. -/
structure Contained (e : EncodedTable) (c : Config V P) : Prop where
  states : ∀ s ∈ c.states, s = 0 ∨ s < e.rows.size
  heights : c.states.length = c.entries.length

section Contained

variable {e : EncodedTable} {actions : Actions V P} {env : Environment V P} {c c' : Config V P}

theorem contained_start (source : Source V) (params : P) : Contained e (start source params) :=
  ⟨by simp [start], rfl⟩

theorem Contained.push (hc : Contained e c) {n next : Nat} {entry : Entry V}
    (hnext : next < e.rows.size) (hstates : c'.states = next :: c.states.drop n)
    (hentries : c'.entries = entry :: c.entries.drop n) : Contained e c' := by
  refine ⟨fun s hs => ?_, ?_⟩
  · rw [hstates] at hs
    rcases List.mem_cons.mp hs with rfl | hs
    · exact Or.inr hnext
    · exact hc.states s (List.mem_of_mem_drop hs)
  · rw [hstates, hentries, List.length_cons, List.length_cons, List.length_drop, List.length_drop,
      hc.heights]

theorem Effect.contained (hr : e.InRange) {event : Event V P}
    (h : Effect ⟨.ofEncoded e, actions⟩ env c event c') (hc : Contained e c) : Contained e c' := by
  cases h with
  | shift _ _ _ haction =>
    obtain ⟨u, -, hu⟩ := Tables.actionOn_eq haction (by simp)
    exact hc.push (n := 0) (hr.shift hu) rfl rfl
  | reduce _ hheld hreduce =>
    obtain ⟨state, deeper, next, v, after, hdrop, -, hgoto, -, rfl⟩ :=
      exists_goto_of_reduce hreduce
    rcases hheld with ⟨rfl, -⟩ | ⟨-, la, input, -, rfl, -⟩
    · exact hc.push (hr.goto hgoto) (by rw [hdrop]) rfl
    · exact hc.push (hr.goto hgoto) (congrArg _ hdrop.symm) rfl
  | recover _ hrecover =>
    obtain ⟨popped, next, _, _, _, hpoint, -, -, rfl⟩ := recover_next hrecover
    obtain ⟨_, s, _, -, -, hs, -⟩ := recoveryPoint_topmost hpoint
    exact hc.push (hr.shift (Tables.action_of_shiftsError hs)) rfl rfl

end Contained

def raised : ParseError → Bool
  | .unexpected _ => true
  | .lexical _ => true
  | .aborted => true
  | .recoveryHalted _ => true
  | .missingGoto => true
  | .emptyStack => true
  | .leftRecursion _ => false
  | .unfinished => false

/-- A move goes on, or ends the run successfully, with an error of the engine or with one given
in answer to an error report. -/
def Move.Regular (env : Environment V P) : Move V P → Prop
  | .next _ _ => True
  | .stop (.ok _) _ => True
  | .stop (.error e) _ => raised e = true ∨ ∃ reported error, env.onError reported error = some e

section Regular

variable (parser : Parser V P) (env : Environment V P) (c : Config V P)

theorem reduce_regular (p : Nat) : (parser.reduce env c p).Regular env := by
  cases reduce_cases parser env c p with
  | empty _ hmove | abort _ hmove | missing _ _ hmove =>
    rw [hmove]
    exact Or.inl rfl
  | accept _ hmove | next _ _ _ hmove =>
    rw [hmove]
    trivial

theorem recover_regular (error : SyntaxError) (la : Lookahead V) (dropped : List (Lookahead V)) :
    (parser.recover c error la dropped).Regular env := by
  cases recover_cases parser c error la dropped with
  | unexpected _ hmove | halted hmove | lexical hmove =>
    rw [hmove]
    exact Or.inl rfl
  | found _ _ hmove =>
    rw [hmove]
    trivial

theorem fail_regular (state : Nat) (la : Lookahead V) :
    (parser.fail env c state la).Regular env := by
  cases fail_cases parser env c state la with
  | answered _ hanswer hmove =>
    rw [hmove]
    exact Or.inr ⟨_, _, hanswer⟩
  | unexpected _ _ hmove | halted _ hmove | lexical _ hmove =>
    rw [hmove]
    exact Or.inl rfl
  | recover _ _ hmove =>
    rw [hmove]
    exact recover_regular ..

theorem step_regular : (parser.step env c).Regular env := by
  cases step_cases parser env c with
  | empty _ hmove | lexical _ _ _ hmove =>
    rw [hmove]
    exact Or.inl rfl
  | shift _ _ _ _ hmove | accept _ _ _ _ hmove =>
    rw [hmove]
    trivial
  | reduce _ _ hmove =>
    rw [hmove]
    exact reduce_regular ..
  | error _ _ _ _ hmove =>
    rw [hmove]
    exact fail_regular ..

end Regular

/-- Whatever table a text is read as, and whatever the source, the actions, the nested parses and
the answers to error reports, every step of a run finds the first state or rows of the table on
its stack, and stacks of one height. It reduces by productions of the table only, with every
access to the stacks in range, and goes on or ends the run with a value or an error. -/
theorem decoded_contained {text : String} {e : EncodedTable} (h : EncodedTable.parse text = .ok e)
    (actions : Actions V P) (env : Environment V P) (source : Source V) (params : P)
    (fuel : Nat) :
    let parser : Parser V P := ⟨.ofEncoded e, actions⟩
    (∀ p ∈ e.productions, p.left.toNat < e.nonterminals.size) ∧
    ∀ step ∈ parser.history env fuel (start source params),
      (∀ s ∈ step.1.states, s = 0 ∨ s < e.rows.size) ∧
      step.1.stacks.values.length = step.1.stacks.states.length ∧
      step.1.stacks.locations.length = step.1.stacks.states.length ∧
      (∀ c p, parser.reduction? step.1 = some (c, p) →
        p < e.productions.size ∧ reduce? e actions env c p = some step.2) ∧
      step.2.Regular env := by
  intro parser
  have hr := EncodedTable.inRange_of_validate (EncodedTable.validate_of_parse h)
  refine ⟨hr.left, fun step hstep => ?_⟩
  obtain ⟨hc, hregular⟩ := history_invariant (Q := fun _ move => move.Regular env)
    (fun c event c' hc hnext => (step_effect hnext).contained hr hc)
    (fun c _ => step_regular parser env c) fuel (contained_start source params) step hstep
  refine ⟨hc.states, ?_, ?_, fun c p hreduction => ?_, hregular⟩
  · simp [Config.stacks, Stacks.ofEntries, hc.heights]
  · simp [Config.stacks, Stacks.ofEntries, hc.heights]
  · obtain ⟨hstep', hstates, hentries, s, hp⟩ := step_reduction? env hreduction
    have hlt : p < e.productions.size := by
      rcases hp with hdefault | ⟨u, haction⟩
      · exact hr.default hdefault
      · exact hr.reduce haction
    refine ⟨hlt, ?_⟩
    rw [history_step hstep, hstep']
    exact reduce?_eq hlt (by rw [hstates, hentries, hc.heights])

theorem decoded_hostile :
    let e : EncodedTable :=
      { terminals := #["$end", "error", "x"]
        nonterminals := #["$accept", "A"]
        productions := #[⟨1, 18446744073709551615, []⟩, ⟨0, 0, []⟩]
        rows := #[#[(2, 0), (1, 0), (1, 0), (2, 1), (3, 4294967295)]]
        defaultReductions := #[none]
        conflicts := 0 }
    let parser : Parser Nat Unit := ⟨.ofEncoded e, #[]⟩
    let c := start ((tokensOf ["x", "z"]).map .ok) ()
    EncodedTable.parse e.render = .ok e ∧
    (parser.run silent 10 c).map (·.outcome) = some (.error .emptyStack) ∧
    ∀ step ∈ parser.history silent 10 c, (∀ s ∈ step.1.states, s = 0 ∨ s < e.rows.size) ∧
      ∀ c p, parser.reduction? step.1 = some (c, p) →
        p < e.productions.size ∧ reduce? e #[] silent c p = some step.2 := by
  intro e parser c
  have hvalid : e.validate = .ok () := rfl
  have hparse := (EncodedTable.parse_rendered hvalid).1
  refine ⟨hparse, by decide +kernel, fun step hstep => ?_⟩
  obtain ⟨hstates, -, -, hreduce, -⟩ := (decoded_contained hparse #[] silent
    ((tokensOf ["x", "z"]).map .ok) () 10).2 step hstep
  exact ⟨hstates, hreduce⟩

end ShiftReduce

end TableParsing
