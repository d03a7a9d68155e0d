import TableParsing.Proofs.Engine.Replay
import TableParsing.Proofs.Grammar.Naming

/-! Reading and taking the value of a name. Taking counts positions from one; reading takes the
position for a signed word, and zero and the upper half of the words address the entries beneath
the right side. The two agree for every table of a grammar, whose names stand for positions of the
right side. The check of a table that is read from a text passes over the positions of names, and
a name in it can read an entry that is not part of the right side. -/

namespace TableParsing

theorem toInt_toInt64 (w : UInt64) :
    w.toInt64.toInt = if w.toNat < 2 ^ 63 then (w.toNat : Int) else w.toNat - 2 ^ 64 := by
  have hcond := BitVec.toInt_eq_toNat_cond w.toBitVec
  rw [← Int64.toInt_toBitVec, UInt64.toBitVec_toInt64, hcond, UInt64.toNat_toBitVec]
  split_ifs <;> omega

namespace Context

variable {V P : Type} (k : Context V P)

theorem get_word (w : UInt64) : k.get w.toInt64.toInt =
    if 0 < w.toNat ∧ w.toNat < 2 ^ 63 then k.handle[w.toNat - 1]?.bind (·.value)
    else k.below[(-w).toNat]?.bind (·.value) := by
  have hneg : (-w).toNat = (UInt64.size - w.toNat) % UInt64.size := UInt64.toNat_neg w
  have hsize : UInt64.size = 2 ^ 64 := rfl
  have hlt := w.toNat_lt
  rw [get, entry?, toInt_toInt64]
  by_cases hhandle : 0 < w.toNat ∧ w.toNat < 2 ^ 63
  · rw [if_pos hhandle, if_pos hhandle.2, if_pos (by omega), Int.toNat_natCast]
  · rw [if_neg hhandle]
    have hneg' : ¬ 0 < (if w.toNat < 2 ^ 63 then (w.toNat : Int) else w.toNat - 2 ^ 64) := by
      split_ifs <;> omega
    have hbelow : (-(if w.toNat < 2 ^ 63 then (w.toNat : Int) else w.toNat - 2 ^ 64)).toNat =
        (-w).toNat := by
      rw [hneg, hsize]
      split_ifs with hhalf
      · have hzero : w.toNat = 0 := by omega
        rw [hzero]
        rfl
      · rw [Nat.mod_eq_of_lt (by omega)]
        omega
    rw [if_neg hneg', hbelow]

theorem take_fst (i : Nat) :
    (k.take i).1 = if i = 0 then none else k.handle[i - 1]?.bind (·.value) := by
  cases i with
  | zero => rfl
  | succ i => rfl

theorem named_eq_takeNamed_iff (hlength : k.handle.length < 2 ^ 63) (name : String) :
    k.named name = (k.takeNamed name).1 ↔ ∀ position, resolveAlias k.aliases name = some position →
      0 < position.toNat ∧ position.toNat < 2 ^ 63 ∨
        k.below[(-position).toNat]?.bind (·.value) = none := by
  cases hresolve : resolveAlias k.aliases name with
  | none => simp [named, takeNamed, hresolve]
  | some position =>
    simp only [named, takeNamed, hresolve, get_word, take_fst, Option.some.injEq, forall_eq']
    by_cases hhandle : 0 < position.toNat ∧ position.toNat < 2 ^ 63
    · rw [if_pos hhandle, if_neg hhandle.1.ne']
      exact iff_of_true rfl (Or.inl hhandle)
    · have hnone : (if position.toNat = 0 then none
          else k.handle[position.toNat - 1]?.bind (·.value)) = none := by
        split_ifs with hzero
        · rfl
        · rw [List.getElem?_eq_none (by omega)]
          rfl
      rw [if_neg hhandle, hnone]
      simp only [hhandle, false_or]

variable {k} in
theorem named_in_handle {name : String} {position : UInt64}
    (hresolve : resolveAlias k.aliases name = some position) (hpos : 0 < position.toNat)
    (hle : position.toNat ≤ k.handle.length) (hlength : k.handle.length < 2 ^ 63) :
    ∃ entry, k.handle[position.toNat - 1]? = some entry ∧ k.named name = entry.value := by
  have hlt : position.toNat - 1 < k.handle.length := by omega
  refine ⟨_, List.getElem?_eq_getElem hlt, ?_⟩
  rw [named, hresolve]
  simp only [get_word, if_pos (And.intro hpos (hle.trans_lt hlength)),
    List.getElem?_eq_getElem hlt, Option.bind_some]

/-- What an action can make of its context: it moves values out of the right side and changes the
location of the result and the parameters. -/
inductive Later (k : Context V P) : Context V P → Prop
  | here : Later k k
  | take {k' : Context V P} (i : Nat) : Later k k' → Later k (k'.take i).2
  | change {k' : Context V P} (location : Location) (params : P) :
      Later k k' → Later k { k' with location, params }

variable {k} in
theorem Later.frame {k' : Context V P} (h : Later k k') : k'.aliases = k.aliases ∧
    k'.below = k.below ∧ k'.handle.length = k.handle.length := by
  induction h with
  | here => exact ⟨rfl, rfl, rfl⟩
  | take i _ ih =>
    cases i with
    | zero => exact ih
    | succ i => simpa [Context.take] using ih
  | change _ _ _ ih => exact ih

end Context

theorem Definition.production_aliases {d : Definition} {nonterminals ts : Numbering String}
    {r : Rule} {p : Production} (h : d.production nonterminals ts r = .ok p) :
    p.aliases = aliases r.right := by
  rw [production] at h
  dsimp only at h
  split at h
  · cases h
    rfl
  · split at h
    · cases h
      rfl
    · cases h

theorem Grammar.Defined.alias_position {g : Grammar} (hg : g.Defined) {p : Nat} {name : String}
    {position : UInt64} (h : resolveAlias (g.production p).aliases name = some position) :
    0 < position.toNat ∧ position.toNat ≤ (g.production p).right.size := by
  have hbound := hg.bounded.length p
  obtain ⟨lenient, steps, hdefine⟩ := hg
  obtain ⟨d, -, hcomplete⟩ := Definition.exists_complete_of_define (I := fun _ => True)
    (fun _ _ _ => trivial) trivial hdefine
  obtain ⟨ts, start, rules, completed⟩ := Definition.complete_ok hcomplete
  by_cases hzero : p = 0
  · rw [hzero, completed.production_zero] at h
    cases h
  by_cases hlt : p < g.productions.size
  · obtain ⟨r, -, hr⟩ := completed.exists_rule hzero hlt
    rw [Definition.production_aliases hr, Definition.resolveAlias_aliases,
      Option.map_eq_some_iff] at h
    obtain ⟨i, hi, rfl⟩ := h
    have hright : (g.production p).right.size = r.right.length := by
      rw [(Definition.production_ok hr).2, List.size_toArray, List.length_map]
    have hword : maxIndex < UInt64.size := by decide
    have hrange := List.mem_range.mp (List.mem_of_find?_eq_some hi)
    rw [UInt64.toNat_ofNat_of_lt' (by omega)]
    omega
  · have hnone : (g.production p).aliases = [] := by
      simp [Grammar.production, Nat.le_of_not_lt hlt]
      rfl
    rw [hnone] at h
    cases h

namespace EncodedTable

def rename (e : EncodedTable) (aliases : EncodedProduction → List Alias) : EncodedTable :=
  { e with productions := e.productions.map fun p => { p with aliases := aliases p } }

theorem validate_rename (e : EncodedTable) (aliases : EncodedProduction → List Alias) :
    (e.rename aliases).validate = e.validate := by
  have hsize : (e.rename aliases).productions.size = e.productions.size := by simp [rename]
  have hrow : (e.rename aliases).checkRow = e.checkRow := by
    funext state row
    simp only [checkRow, checkCell, hsize]
    rfl
  have hdefaults : (e.rename aliases).checkDefaults = e.checkDefaults := by
    have hdefault : (e.rename aliases).checkDefault = e.checkDefault := by
      funext state target
      cases target with
      | none => rfl
      | some target => simp only [checkDefault, hsize]
    simp only [checkDefaults, hdefault]
    rfl
  have hproductions : (e.rename aliases).productions.toList.zipIdx.forM
      (fun entry => (e.rename aliases).checkProduction entry.2 entry.1) =
      e.productions.toList.zipIdx.forM fun entry => e.checkProduction entry.2 entry.1 := by
    rw [rename, Array.toList_map, List.zipIdx_map]
    exact List.forM_map
  rw [validate, validate, hrow, hdefaults]
  exact congrArg _ (funext fun _ => congrArg _ (funext fun _ => hproductions))

end EncodedTable

namespace ShiftReduce

variable {V P : Type}

theorem Parser.contextOf?_shape {parser : Parser V P} {c : Config V P} {p : Nat}
    {context : Context V P} (heights : c.states.length = c.entries.length)
    (h : parser.contextOf? c p = some context) :
    context.aliases = (parser.tables.production p).aliases ∧
      context.handle.length = (parser.tables.production p).length := by
  simp only [Parser.contextOf?] at h
  split at h
  · cases h
  case isFalse hlt =>
    cases h
    refine ⟨rfl, ?_⟩
    simp only [Context.ofReduction, List.length_reverse, List.length_take]
    omega

theorem Parser.context?_shape {parser : Parser V P} {c : Config V P} {context : Context V P}
    (heights : c.states.length = c.entries.length) (h : parser.context? c = some context) :
    ∃ p, context.aliases = (parser.tables.production p).aliases ∧
      context.handle.length = (parser.tables.production p).length := by
  simp only [Parser.context?] at h
  split at h
  · cases h
  · split at h
    case h_1 p _ => exact ⟨p, contextOf?_shape heights h⟩
    case h_2 =>
      split at h
      · cases h
      · split at h
        case h_1 p _ => exact ⟨p, contextOf?_shape heights h⟩
        case h_2 => cases h

theorem contexts_shape {g : Grammar} {a : Automaton} (wf : g.WellFormed) (hf : a.Faithful g)
    {parser : Parser V P} (ht : parser.tables.Realizes g a) {env : Environment V P} {fuel : Nat}
    {source : Source V} {params : P} {context : Context V P}
    (h : context ∈ contexts parser (parser.history env fuel (start source params))) :
    ∃ p, context.aliases = (g.production p).aliases ∧
      context.handle.length = (g.production p).right.size := by
  obtain ⟨m, hm, hcontext⟩ := List.mem_filterMap.mp h
  obtain ⟨hreading, -⟩ := history_invariant (I := Reading a) (Q := fun _ _ => True)
    (fun c _ c' hc hnext => (step_effect hnext).reading wf hf ht hc) (fun _ _ => trivial) fuel
    (reading_start source params) m hm
  obtain ⟨p, haliases, hlength⟩ := Parser.context?_shape hreading.path.heights hcontext
  rw [ht.production] at haliases hlength
  exact ⟨p, haliases, hlength⟩

/-- At every moment of every action, a name over the table of a grammar reads what taking it gives,
the value of an entry of the right side. Over a table that was read from a text, with a right side
no longer than a stack can be, the two agree unless the position of the name is zero or in the
upper half of the words and the entry beneath the right side that it then reads has a value. The
positions of names can be any words: the check passes a table whatever they are. -/
theorem named_agrees_iff (actions : Actions V P) (env : Environment V P) (source : Source V)
    (params : P) (fuel : Nat) :
    (∀ (g : Grammar) (a : Automaton) (m : Method), g.Defined → m.automaton g = .ok a →
      let parser : Parser V P := ⟨.ofTable (Table.generate g a), actions⟩
      ∀ first ∈ contexts parser (parser.history env fuel (start source params)),
      ∀ k, first.Later k → ∀ name, k.named name = (k.takeNamed name).1 ∧
        ∀ position, resolveAlias k.aliases name = some position →
          ∃ entry, k.handle[position.toNat - 1]? = some entry ∧ k.named name = entry.value) ∧
    ∀ (text : String) (e : EncodedTable), EncodedTable.parse text = .ok e →
      let parser : Parser V P := ⟨.ofEncoded e, actions⟩
      (∀ first ∈ contexts parser (parser.history env fuel (start source params)),
        ∀ k, first.Later k → k.handle.length < 2 ^ 63 → ∀ name,
          (k.named name = (k.takeNamed name).1 ↔
            ∀ position, resolveAlias k.aliases name = some position →
              0 < position.toNat ∧ position.toNat < 2 ^ 63 ∨
                k.below[(-position).toNat]?.bind (·.value) = none)) ∧
      ∀ aliases, EncodedTable.parse (e.rename aliases).render = .ok (e.rename aliases) := by
  constructor
  · intro g a m hg ha parser first hfirst k hk name
    have wf := hg.wellFormed
    have hf := (Method.automaton_spec wf ha).1
    have ht : parser.tables.Realizes g a := realizes_generate
    obtain ⟨p, haliases, hlength⟩ := contexts_shape wf hf ht hfirst
    obtain ⟨hsame, -, hkept⟩ := hk.frame
    have hbound := hg.bounded.length p
    have hposition : ∀ position, resolveAlias k.aliases name = some position →
        0 < position.toNat ∧ position.toNat ≤ k.handle.length := by
      intro position hresolve
      rw [hsame, haliases] at hresolve
      rw [hkept, hlength]
      exact hg.alias_position hresolve
    have hsmall : k.handle.length < 2 ^ 63 := by
      rw [hkept, hlength]
      exact lt_of_le_of_lt hbound (by decide)
    refine ⟨(k.named_eq_takeNamed_iff hsmall name).mpr fun position hresolve => Or.inl ?_,
      fun position hresolve => ?_⟩
    · have hrange := hposition position hresolve
      omega
    · obtain ⟨hpos, hle⟩ := hposition position hresolve
      exact Context.named_in_handle hresolve hpos hle hsmall
  · intro text e he parser
    refine ⟨fun first _ k _ hsmall name => k.named_eq_takeNamed_iff hsmall name, fun aliases => ?_⟩
    have hvalid := EncodedTable.validate_of_parse he
    exact (EncodedTable.parse_rendered ((e.validate_rename aliases).trans hvalid)).1

end ShiftReduce

namespace EncodedTable

def chain (position : UInt64) : EncodedTable where
  terminals := #["$end", "error", "x"]
  nonterminals := #["$accept", "A"]
  productions := #[⟨0, 2, []⟩, ⟨1, 1, [⟨"a", position⟩]⟩, ⟨1, 2, []⟩]
  rows := #[#[(0, 0), (0, 0), (1, 2), (0, 0), (1, 1)], #[(3, 0), (0, 0), (0, 0), (0, 0), (0, 0)],
    #[(0, 0), (0, 0), (1, 3), (0, 0), (1, 4)], #[(2, 1), (0, 0), (0, 0), (0, 0), (0, 0)],
    #[(2, 2), (0, 0), (0, 0), (0, 0), (0, 0)]]
  defaultReductions := #[]
  conflicts := 0

theorem parse_chain (position : UInt64) : parse (chain position).render = .ok (chain position) :=
  (parse_rendered rfl).1

end EncodedTable

namespace ShiftReduce

open EncodedTable

def chained (position : UInt64) : List (Context Nat Unit) :=
  let parser : Parser Nat Unit := ⟨.ofEncoded (.chain position), #[]⟩
  contexts parser (parser.history silent 10 (start ((tokensOf ["x", "x"]).map .ok) ()))

theorem named_agrees_chain :
    let parser : Parser Nat Unit := ⟨.ofTable (.generate .tolerant .tolerant), #[]⟩
    let reductions := contexts parser
      (parser.history silent 10 (start ((tokensOf ["x"]).map .ok) ()))
    reductions.map (·.named "x") = [some 0] ∧
    (∀ first ∈ reductions, ∀ k, first.Later k → k.named "x" = (k.takeNamed "x").1) ∧
    (chained 18446744073709551615).map (·.below.length) = [2, 1] ∧
    ∀ k ∈ chained 18446744073709551615, k.named "a" = (k.takeNamed "a").1 := by
  intro parser reductions
  obtain ⟨hgrammar, -⟩ := named_agrees_iff #[] silent ((tokensOf ["x"]).map .ok) () 10
  obtain ⟨-, hdecoded⟩ := named_agrees_iff #[] silent ((tokensOf ["x", "x"]).map .ok) () 10
  refine ⟨?_, fun first hfirst k hk => ?_, by decide +kernel, fun k hk => ?_⟩
  · simp only [reductions, parser, Table.generate_tolerant]
    decide +kernel
  · exact (hgrammar _ _ _ Grammar.tolerant_defined Method.slr_tolerant first hfirst k hk "x").1
  · have hall : ∀ k ∈ chained 18446744073709551615, k.handle.length ≤ 2 ∧
        (resolveAlias k.aliases "a").all
          (fun position => (k.below[(-position).toNat]?.bind (·.value)) = none) = true := by
      decide +kernel
    obtain ⟨hlength, hbeneath⟩ := hall k hk
    refine ((hdecoded _ _ (parse_chain _)).1 k hk k .here (by omega) "a").mpr fun position h => ?_
    rw [h] at hbeneath
    exact Or.inr (by simpa using hbeneath)

/-- A name at position zero reads the token before the right side, and taking it gives nothing. -/
theorem named_beneath :
    EncodedTable.parse (chain 0).render = .ok (chain 0) ∧
    (chained 0).map (fun k => (k.named "a", (k.takeNamed "a").1)) =
      [(some 0, none), (none, none)] ∧
    ¬ ∀ (text : String) (e : EncodedTable), EncodedTable.parse text = .ok e →
      ∀ (source : Source Nat) (fuel : Nat),
      let parser : Parser Nat Unit := ⟨.ofEncoded e, #[]⟩
      ∀ k ∈ contexts parser (parser.history silent fuel (start source ())), ∀ name v,
        k.named name = some v ↔ (k.takeNamed name).1 = some v := by
  have hreads : ∃ k ∈ chained 0, k.named "a" = some 0 ∧ (k.takeNamed "a").1 = none := by
    decide +kernel
  refine ⟨parse_chain 0, by decide +kernel, fun h => ?_⟩
  obtain ⟨k, hk, hread, htaken⟩ := hreads
  have hsame := (h _ _ (parse_chain 0) ((tokensOf ["x", "x"]).map .ok) 10 k hk "a" 0).mp hread
  rw [htaken] at hsame
  cases hsame

end ShiftReduce

end TableParsing
