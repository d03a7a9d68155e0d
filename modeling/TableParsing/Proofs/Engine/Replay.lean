import TableParsing.Proofs.Engine.Recovery
import TableParsing.Proofs.Table.Encoding

/-! Runs over an encoded table are those over the table. The engine asks for the actions of
terminals only, and there the two tables agree, so that every step, every history and every
nested parse is the same. -/

namespace TableParsing.ShiftReduce

variable {V P : Type}

def Parser.contextOf? (parser : Parser V P) (c : Config V P) (p : Nat) : Option (Context V P) :=
  let shape := parser.tables.production p
  if c.states.length ≤ shape.length then none
  else
    some (Context.ofReduction p shape.aliases (c.entries.take shape.length).reverse
      (c.entries.drop shape.length) c.params)

/-- The context in which a step from a configuration runs an action, also if the action then
ends the run. -/
def Parser.context? (parser : Parser V P) (c : Config V P) : Option (Context V P) :=
  match c.states with
  | [] => none
  | state :: _ =>
    match parser.tables.defaultReduction state with
    | some p => parser.contextOf? c p
    | none =>
      match parser.look c with
      | .error _ => none
      | .ok (la, _) =>
        match parser.tables.actionOn state la with
        | .reduce p => parser.contextOf? c p
        | _ => none

def contexts (parser : Parser V P) (history : List (Config V P × Move V P)) :
    List (Context V P) :=
  history.filterMap fun m => parser.context? m.1

theorem Parser.contextOf?_eq_some {parser : Parser V P} {env : Environment V P}
    {c c' : Config V P} {p : Nat} {context : Context V P}
    (h : parser.reduce env c p = .next (.reduce context) c') :
    parser.contextOf? c p = some context := by
  obtain ⟨state, deeper, _, _, _, hdrop, -, -, hcontext, -⟩ := exists_goto_of_reduce h
  cases hcontext
  have hlt : ¬ c.states.length ≤ (parser.tables.production p).length := by
    intro hle
    rw [List.drop_eq_nil_of_le hle] at hdrop
    cases hdrop
  rw [Parser.contextOf?, if_neg hlt]
  rfl

theorem Effect.context? {parser : Parser V P} {env : Environment V P} {c c' : Config V P}
    {context : Context V P} (h : Effect parser env c (.reduce context) c') :
    parser.context? c = some context := by
  cases h with
  | reduce hstates hheld hreduce =>
    have hcontext := Parser.contextOf?_eq_some hreduce
    rcases hheld with ⟨rfl, hdefault⟩ | ⟨hdefault, la, input, hlook, rfl, haction⟩
    · simp only [Parser.context?, hstates, hdefault, hcontext]
    · simp only [Parser.context?, hstates, hdefault, hlook, haction]
      exact hcontext

def Tables.withAction (t : Tables) (f : Nat → Nat → Action) : Tables := { t with action := f }

def Lookahead.Within (bound : Nat) (la : Lookahead V) : Prop := ∀ u ∈ la.terminal, u < bound

structure Tables.Agrees (t : Tables) (f : Nat → Nat → Action) (bound : Nat) : Prop where
  action : ∀ s, ∀ u < bound, f s u = t.action s u
  reserved : 2 ≤ bound
  known : ∀ name, ∀ u ∈ t.terminal? name, u < bound

namespace Tables.Agrees

variable {t : Tables} {f : Nat → Nat → Action} {bound : Nat} (h : t.Agrees f bound)

include h

theorem supplies : t.Supplies (Lookahead.Within (V := V) bound) := by
  refine ⟨fun token => h.known token.name, fun entries u hu => ?_⟩
  obtain rfl : Symbol.endOfInput = u := by simpa [endLookahead] using hu
  have hreserved := h.reserved
  simp only [Symbol.endOfInput]
  omega

theorem within_look {actions : Actions V P} {c : Config V P} {la : Lookahead V}
    {input : Source V} (hlook : (⟨t, actions⟩ : Parser V P).look c = .ok (la, input))
    (hc : ∀ la, c.lookahead = some la → la.Within bound) : la.Within bound :=
  Parser.look_holds h.supplies hlook hc

theorem actionOn {la : Lookahead V} (hla : la.Within bound) (s : Nat) :
    (t.withAction f).actionOn s la = t.actionOn s la := by
  simp only [Tables.actionOn]
  split
  case h_1 u hu => exact h.action s u (hla u hu)
  case h_2 => rfl

theorem handles {la : Lookahead V} (hla : la.Within bound) (s : Nat) :
    (t.withAction f).handles s la = t.handles s la := by
  simp only [Tables.handles, h.actionOn hla s]
  rfl

theorem shiftsError (s : Nat) : (t.withAction f).shiftsError s = t.shiftsError s := by
  have haction : (t.withAction f).action s Symbol.errorToken = t.action s Symbol.errorToken :=
    h.action s _ h.reserved
  rw [Tables.shiftsError, haction]
  rfl

theorem syntaxError (s : Nat) (la : Lookahead V) (states : List Nat) :
    (t.withAction f).syntaxError s la states = t.syntaxError s la states := by
  simp only [Tables.syntaxError, h.shiftsError]
  rfl

theorem recoveryPoint (states : List Nat) (popped : Nat) :
    (t.withAction f).recoveryPoint states popped = t.recoveryPoint states popped := by
  induction states generalizing popped with
  | nil => rfl
  | cons s states ih => simp only [Tables.recoveryPoint, h.shiftsError, ih]

theorem discard (state : Nat) (entries : List (Entry V)) (input : Source V) {la : Lookahead V}
    (hla : la.Within bound) (discarded : List (Lookahead V)) :
    (t.withAction f).discard state entries input la discarded =
      t.discard state entries input la discarded := by
  induction input generalizing la discarded with
  | nil => simp only [Tables.discard, h.handles hla, h.handles (h.supplies.ending entries)]
  | cons item rest ih =>
    cases item with
    | error e => simp only [Tables.discard, h.handles hla]
    | ok token =>
      have hrest := ih (h.supplies.token token) (la :: discarded)
      simp only [Tables.discard, h.handles hla]
      rw [← hrest]
      rfl

variable (actions : Actions V P) (env : Environment V P) {c : Config V P}

theorem recover (c : Config V P) (error : SyntaxError) {la : Lookahead V}
    (hla : la.Within bound) (discarded : List (Lookahead V)) :
    (⟨t.withAction f, actions⟩ : Parser V P).recover c error la discarded =
      (⟨t, actions⟩ : Parser V P).recover c error la discarded := by
  simp only [Parser.recover, h.recoveryPoint, h.discard _ _ _ hla, h.syntaxError]

theorem fail (c : Config V P) (state : Nat) {la : Lookahead V} (hla : la.Within bound) :
    (⟨t.withAction f, actions⟩ : Parser V P).fail env c state la =
      (⟨t, actions⟩ : Parser V P).fail env c state la := by
  have hread : (t.withAction f).read c.entries c.input = t.read c.entries c.input := rfl
  simp only [Parser.fail, h.syntaxError, h.recover actions _ _ hla, hread]
  cases hnext : t.read c.entries c.input with
  | error e => rfl
  | ok r => simp only [h.recover actions _ _ (h.supplies.read hnext)]

variable (hc : ∀ la, c.lookahead = some la → la.Within bound)

include hc

theorem step : (⟨t.withAction f, actions⟩ : Parser V P).step env c =
    (⟨t, actions⟩ : Parser V P).step env c := by
  have hlook : (⟨t.withAction f, actions⟩ : Parser V P).look c =
      (⟨t, actions⟩ : Parser V P).look c := rfl
  simp only [Parser.step, hlook]
  cases hnext : (⟨t, actions⟩ : Parser V P).look c with
  | error e => rfl
  | ok r =>
    have hla := h.within_look hnext hc
    simp only [h.actionOn hla, h.fail actions env _ _ hla]
    rfl

theorem meetsError : (⟨t.withAction f, actions⟩ : Parser V P).meetsError c =
    (⟨t, actions⟩ : Parser V P).meetsError c := by
  have hlook : (⟨t.withAction f, actions⟩ : Parser V P).look c =
      (⟨t, actions⟩ : Parser V P).look c := rfl
  simp only [Parser.meetsError, hlook]
  cases hnext : (⟨t, actions⟩ : Parser V P).look c with
  | error e => rfl
  | ok r =>
    have hla := h.within_look hnext hc
    simp only [h.actionOn hla]
    rfl

theorem context? : (⟨t.withAction f, actions⟩ : Parser V P).context? c =
    (⟨t, actions⟩ : Parser V P).context? c := by
  have hlook : (⟨t.withAction f, actions⟩ : Parser V P).look c =
      (⟨t, actions⟩ : Parser V P).look c := rfl
  simp only [Parser.context?, hlook]
  cases hnext : (⟨t, actions⟩ : Parser V P).look c with
  | error e => rfl
  | ok r =>
    have hla := h.within_look hnext hc
    simp only [h.actionOn hla]
    rfl

theorem within_next {e : Event V P} {c' : Config V P}
    (hstep : (⟨t, actions⟩ : Parser V P).step env c = .next e c') :
    ∀ la, c'.lookahead = some la → la.Within bound :=
  Effect.lookahead h.supplies (step_effect hstep) hc

theorem run_eq (fuel : Nat) : (⟨t.withAction f, actions⟩ : Parser V P).run env fuel c =
    (⟨t, actions⟩ : Parser V P).run env fuel c := by
  induction fuel generalizing c with
  | zero => rfl
  | succ fuel ih =>
    simp only [Parser.run, h.step actions env hc]
    cases hstep : (⟨t, actions⟩ : Parser V P).step env c with
    | next e c' => exact ih (h.within_next actions env hc hstep)
    | stop outcome c' => rfl

theorem history_eq (fuel : Nat) : (⟨t.withAction f, actions⟩ : Parser V P).history env fuel c =
    (⟨t, actions⟩ : Parser V P).history env fuel c := by
  induction fuel generalizing c with
  | zero => rfl
  | succ fuel ih =>
    simp only [Parser.history, h.step actions env hc]
    cases hstep : (⟨t, actions⟩ : Parser V P).step env c with
    | next e c' => exact congrArg _ (ih (h.within_next actions env hc hstep))
    | stop outcome c' => rfl

theorem within_history (fuel : Nat) : ∀ m ∈ (⟨t, actions⟩ : Parser V P).history env fuel c,
    ∀ la, m.1.lookahead = some la → la.Within bound := by
  intro m hm
  exact (history_invariant (Q := fun _ _ => True)
    (fun c e c' hc hstep => h.within_next actions env hc hstep) (fun _ _ => trivial) fuel hc m
    hm).1

theorem contexts_eq (fuel : Nat) :
    contexts (⟨t.withAction f, actions⟩ : Parser V P)
      ((⟨t, actions⟩ : Parser V P).history env fuel c) =
    contexts (⟨t, actions⟩ : Parser V P) ((⟨t, actions⟩ : Parser V P).history env fuel c) := by
  apply List.filterMap_congr
  intro m hm
  exact h.context? actions (h.within_history actions env hc fuel m hm)

theorem steps {d : Config V P} {history : List (Config V P × Move V P)}
    (hsteps : Steps (⟨t, actions⟩ : Parser V P) env c history d) :
    Steps (⟨t.withAction f, actions⟩ : Parser V P) env c history d ∧
      (∀ m ∈ history, (⟨t.withAction f, actions⟩ : Parser V P).meetsError m.1 =
        (⟨t, actions⟩ : Parser V P).meetsError m.1) ∧
      ∀ la, d.lookahead = some la → la.Within bound := by
  induction hsteps with
  | refl c => exact ⟨.refl c, by simp, hc⟩
  | head hstep _ ih =>
    obtain ⟨hsteps, herrors, hd⟩ := ih (h.within_next actions env hc hstep)
    refine ⟨.head ((h.step actions env hc).trans hstep) hsteps, ?_, hd⟩
    rw [List.forall_mem_cons]
    exact ⟨h.meetsError actions hc, herrors⟩

omit hc

theorem nested_eq (fuel depth : Nat) :
    (⟨t.withAction f, actions⟩ : Parser V P).nested fuel depth =
      (⟨t, actions⟩ : Parser V P).nested fuel depth := by
  induction depth with
  | zero => rfl
  | succ depth ih =>
    funext source params
    have hrun := h.run_eq actions ⟨(⟨t, actions⟩ : Parser V P).nested fuel depth, fun _ _ => none⟩
      (c := start source params) (fun la hla => by cases hla) fuel
    simp only [Parser.nested, ih, hrun]

theorem parse_eq (fuel depth : Nat)
    (onError : List SyntaxError → SyntaxError → Option ParseError) (source : Source V)
    (params : P) :
    (⟨t.withAction f, actions⟩ : Parser V P).parse fuel depth onError source params =
      (⟨t, actions⟩ : Parser V P).parse fuel depth onError source params := by
  rw [Parser.parse, h.nested_eq actions, h.run_eq actions _ (fun la hla => by cases hla)]
  rfl

end Tables.Agrees

theorem ofEncoded_encode {table : Table} (h : table.Encodable) :
    Tables.ofEncoded table.encode = (Tables.ofTable table).withAction table.encode.action := by
  have hgoto : table.encode.goto = table.goto := by
    funext s n
    exact Table.goto_encode h n
  have hdefault : table.encode.defaultReduction = table.defaultReduction := by
    funext s
    exact Table.defaultReduction_encode h
  have hproduction : (Tables.ofEncoded table.encode).production = table.production := by
    funext p
    exact Table.production_encode h p
  have hexpected : table.encode.expected = table.expected := by
    funext s
    exact Table.expected_encode h
  simp only [Tables.ofEncoded] at hproduction
  simp only [Tables.ofEncoded, Tables.ofTable, Tables.withAction, hgoto, hdefault, hproduction,
    hexpected]
  rfl

theorem encode_agrees {table : Table} (h : table.Encodable) :
    (Tables.ofTable table).Agrees table.encode.action table.terminals.size where
  action _ _ hu := Table.action_encode h hu
  reserved := h.reserved
  known _ _ hu := (Array.findIdx?_eq_some_iff_getElem.mp hu).1

/-- An encoding passes its check, is read back from its text, and drives the engine through the
same parse as the table: the same outcome, the same steps with the same reports of errors, and
the same contexts for its actions. -/
theorem encoded_parse_eq {g : Grammar} {a : Automaton} (hg : g.Defined) {m : Method}
    (ha : m.automaton g = .ok a) :
    let table := Table.generate g a
    table.encode.validate = .ok () ∧ (∃ e, EncodedTable.parse table.encode.render = .ok e) ∧
    ∀ e, e = table.encode ∨ EncodedTable.parse table.encode.render = .ok e →
      ∀ (V P : Type) (actions : Actions V P) (fuel depth : Nat)
        (onError : List SyntaxError → SyntaxError → Option ParseError) (source : Source V)
        (params : P),
      let direct : Parser V P := ⟨.ofTable table, actions⟩
      let replay : Parser V P := ⟨.ofEncoded e, actions⟩
      let history := direct.history ⟨direct.nested fuel depth, onError⟩ fuel (start source params)
      replay.parse fuel depth onError source params =
        direct.parse fuel depth onError source params ∧
      replay.history ⟨replay.nested fuel depth, onError⟩ fuel (start source params) = history ∧
      contexts replay history = contexts direct history ∧
      ∀ c context c', (c, Move.next (.reduce context) c') ∈ history →
        direct.context? c = some context := by
  intro table
  have hencodable : table.Encodable :=
    Table.generate_encodable hg (Method.automaton_spec hg.wellFormed ha).1 (Method.size_le ha)
  have hvalid := Table.validate_encode hencodable
  have hparse := (EncodedTable.parse_rendered hvalid).1
  refine ⟨hvalid, ⟨_, hparse⟩, ?_⟩
  intro e he V P actions fuel depth onError source params
  obtain rfl : e = table.encode := by
    rcases he with rfl | he
    · rfl
    · rw [hparse] at he
      cases he
      rfl
  have hagrees := encode_agrees hencodable
  rw [ofEncoded_encode hencodable]
  have hstart : ∀ la, (start source params : Config V P).lookahead = some la →
      la.Within table.terminals.size := fun la hla => by cases hla
  intro direct replay history
  refine ⟨hagrees.parse_eq actions fuel depth onError source params, ?_,
    hagrees.contexts_eq actions _ hstart fuel, ?_⟩
  · rw [hagrees.nested_eq actions]
    exact hagrees.history_eq actions _ hstart fuel
  · intro c context c' hmem
    exact (step_effect (history_step hmem).symm).context?

theorem encoded_tolerant_parse_eq :
    let table := Table.generate .tolerant .tolerant
    let source : Source Nat := (tokensOf ["x", "x", "z"]).map .ok
    let direct : Parser Nat Unit := ⟨.ofTable table, #[]⟩
    ∃ e, EncodedTable.parse table.encode.render = .ok e ∧
      let replay : Parser Nat Unit := ⟨.ofEncoded e, #[]⟩
      (replay.parse 20 1 (fun _ _ => none) source ()).outcome = .ok (some 0) ∧
      replay.parse 20 1 (fun _ _ => none) source () =
        direct.parse 20 1 (fun _ _ => none) source () := by
  intro table source direct
  obtain ⟨-, ⟨e, he⟩, hruns⟩ := encoded_parse_eq Grammar.tolerant_defined Method.slr_tolerant
  have hparse := (hruns e (Or.inr he) Nat Unit #[] 20 1 (fun _ _ => none) source ()).1
  refine ⟨e, he, ?_, hparse⟩
  rw [hparse]
  simp only [source, Table.generate_tolerant]
  decide +kernel

end TableParsing.ShiftReduce
