import TableParsing.Automaton

/-! One action is decided for every table cell. Of several reductions the earliest
production wins; between a shift and a reduction the declared precedences decide,
and without them the shift wins. Every competition is recorded. -/

namespace TableParsing

inductive Action
  | shift (state : Nat)
  | reduce (production : Nat)
  | accept
  | error
  deriving DecidableEq, Inhabited

def Action.render (g : Grammar) : Action → String
  | shift s => "shift(" ++ stateLabel s ++ ")"
  | reduce p => "reduce(" ++ g.renderProduction p ++ ")"
  | accept => "accept"
  | error => "error"

inductive ConflictReason
  | reduceReduce
  | precedence
  | associativity (assoc : Assoc)
  | missingPrecedence
  deriving DecidableEq

def ConflictReason.render : ConflictReason → String
  | reduceReduce => "reduce/reduce"
  | precedence => "precedence"
  | associativity assoc => "%" ++ assoc.name
  | missingPrecedence => "shift/reduce without precedence"

structure Conflict where
  state : Nat
  lookahead : Nat
  candidates : List Action
  resolution : Action
  reason : ConflictReason
  counted : Bool
  deriving DecidableEq

def Conflict.render (g : Grammar) (c : Conflict) : String :=
  stateLabel c.state ++ " on " ++ g.terminalName c.lookahead ++ ": " ++ c.reason.render ++
    " => " ++ c.resolution.render g ++
    " (" ++ " | ".intercalate (c.candidates.map (Action.render g)) ++ ")"

structure Verdict where
  resolution : Action
  reason : ConflictReason
  counted : Bool
  deriving DecidableEq

/-- Decides between a shift and the reduction by `p`: the higher priority wins, and
at equal priority the associativity of the lookahead decides. -/
def compareLevels (shift : Action) (p : Nat) : Option Precedence → Option Precedence → Verdict
  | some s, some r =>
    if r.priority < s.priority then ⟨shift, .precedence, false⟩
    else if s.priority < r.priority then ⟨.reduce p, .precedence, false⟩
    else
      match s.assoc with
      | .left => ⟨.reduce p, .associativity .left, false⟩
      | .right => ⟨shift, .associativity .right, false⟩
      | .nonassoc => ⟨.error, .associativity .nonassoc, true⟩
  | _, _ => ⟨shift, .missingPrecedence, true⟩

def shiftPrecedence (g : Grammar) (lookahead : Nat) : Action → Option Precedence
  | .shift _ => g.terminalPrecedence lookahead
  | _ => none

structure Cell where
  action : Option Action
  conflicts : List Conflict
  deriving DecidableEq, Inhabited

def reduceConflict (state lookahead winner loser : Nat) : Conflict :=
  { state, lookahead
    candidates := [.reduce winner, .reduce loser]
    resolution := .reduce winner
    reason := .reduceReduce
    counted := true }

def shiftConflict (g : Grammar) (state lookahead : Nat) (shift : Action) (p : Nat) : Conflict :=
  let verdict := compareLevels shift p (shiftPrecedence g lookahead shift)
    (g.productionPrecedence p)
  { state, lookahead
    candidates := [shift, .reduce p]
    resolution := verdict.resolution
    reason := verdict.reason
    counted := verdict.counted }

def resolve (g : Grammar) (state lookahead : Nat) (shift : Option Action) (reduces : List Nat) :
    Cell :=
  match (reduces.mergeSort (· ≤ ·)).eraseDups with
  | [] => ⟨shift, []⟩
  | winner :: losers =>
    let reduceConflicts := losers.map (reduceConflict state lookahead winner)
    match shift with
    | none => ⟨some (.reduce winner), reduceConflicts⟩
    | some shift =>
      let conflict := shiftConflict g state lookahead shift winner
      ⟨some conflict.resolution, reduceConflicts ++ [conflict]⟩

end TableParsing
