import TableParsing.Encoded
import TableParsing.Json.Printer
import TableParsing.Json.Reader

/-! Encoded tables as JSON. A record is written as an object; it is read from an
object, where unknown fields are passed over and known ones stand at most once, or
from an array of its fields in order. -/

namespace TableParsing

namespace Json

def record? (names : List String) : Json → Option (List (Option Json))
  | object fields =>
    if fields.any (·.1.isNone) then none
    else
      names.mapM fun name =>
        match fields.filter (·.1 == some name) with
        | [] => some none
        | [(_, j)] => some (some j)
        | _ => none
  | array items =>
    if items.length ≤ names.length then
      some (items.map some ++ List.replicate (names.length - items.length) none)
    else none
  | _ => none

def text? : Json → Option String
  | text t => t
  | _ => none

def natural? (bound : Nat) : Json → Option Nat
  | natural n => if n < bound then some n else none
  | _ => none

def list? {α : Type} (item? : Json → Option α) : Json → Option (List α)
  | array items => items.mapM item?
  | _ => none

def word8? (j : Json) : Option UInt8 := (natural? UInt8.size j).map UInt8.ofNat

def word32? (j : Json) : Option UInt32 := (natural? UInt32.size j).map UInt32.ofNat

def word64? (j : Json) : Option UInt64 := (natural? UInt64.size j).map UInt64.ofNat

def word32OrNull? : Json → Option (Option UInt32)
  | null => some none
  | j => (word32? j).map some

def cell? : Json → Option (UInt8 × UInt32)
  | array [kind, target] => do return (← word8? kind, ← word32? target)
  | _ => none

end Json

namespace Alias

def toJson (a : Alias) : Json :=
  .object [(some "name", .string a.name), (some "position", .natural a.position.toNat)]

def ofJson? (j : Json) : Option Alias := do
  match ← j.record? ["name", "position"] with
  | [some name, some position] => return ⟨← name.text?, ← position.word64?⟩
  | _ => none

end Alias

namespace EncodedProduction

/-- An empty list of aliases is not written. -/
def toJson (p : EncodedProduction) : Json :=
  let aliases :=
    if p.aliases.isEmpty then [] else [(some "aliases", .array (p.aliases.map Alias.toJson))]
  .object ([(some "lhs", .natural p.left.toNat), (some "len", .natural p.length.toNat)] ++ aliases)

def ofJson? (j : Json) : Option EncodedProduction := do
  match ← j.record? ["lhs", "len", "aliases"] with
  | [some left, some length, aliases] =>
    let aliases ← match aliases with
      | some aliases => aliases.list? Alias.ofJson?
      | none => some []
    return ⟨← left.word64?, ← length.word64?, aliases⟩
  | _ => none

end EncodedProduction

namespace EncodedTable

def cellJson (cell : UInt8 × UInt32) : Json :=
  .array [.natural cell.1.toNat, .natural cell.2.toNat]

def defaultJson : Option UInt32 → Json
  | some p => .natural p.toNat
  | none => .null

def toJson (e : EncodedTable) : Json :=
  .object [
    (some "terminals", .array (e.terminals.toList.map Json.string)),
    (some "nonterminals", .array (e.nonterminals.toList.map Json.string)),
    (some "productions", .array (e.productions.toList.map EncodedProduction.toJson)),
    (some "rows", .array (e.rows.toList.map fun row => .array (row.toList.map cellJson))),
    (some "default_reductions", .array (e.defaultReductions.toList.map defaultJson)),
    (some "conflicts", .natural e.conflicts.toNat)]

def ofJson? (j : Json) : Option EncodedTable := do
  match ← j.record?
      ["terminals", "nonterminals", "productions", "rows", "default_reductions", "conflicts"] with
  | [some terminals, some nonterminals, some productions, some rows, defaults, some conflicts] =>
    let defaults ← match defaults with
      | some defaults => defaults.list? Json.word32OrNull?
      | none => some []
    return {
      terminals := (← terminals.list? Json.text?).toArray
      nonterminals := (← nonterminals.list? Json.text?).toArray
      productions := (← productions.list? EncodedProduction.ofJson?).toArray
      rows := (← rows.list? fun row => (row.list? Json.cell?).map List.toArray).toArray
      defaultReductions := defaults.toArray
      conflicts := ← conflicts.word64? }
  | _ => none

def render (e : EncodedTable) : String := e.toJson.render

def renderPretty (e : EncodedTable) : String := e.toJson.renderPretty

def parse (t : String) : Except DecodeError EncodedTable :=
  match (Json.parse? t).bind ofJson? with
  | none => .error .json
  | some e =>
    match e.validate with
    | .ok () => .ok e
    | .error cause => .error cause

end EncodedTable

end TableParsing
