import TableParsing.Encoded.Format
import TableParsing.Proofs.Json

/-! An encoded table is read back from the JSON it is written as, whatever its names and its
numbers, in either layout. -/

namespace TableParsing

namespace Json

theorem natural?_of_lt {bound n : Nat} (h : n < bound) : natural? bound (natural n) = some n := by
  rw [natural?, if_pos h]

theorem word8?_toNat (w : UInt8) : word8? (natural w.toNat) = some w := by
  simp [word8?, natural?_of_lt w.toNat_lt]

theorem word32?_toNat (w : UInt32) : word32? (natural w.toNat) = some w := by
  simp [word32?, natural?_of_lt w.toNat_lt]

theorem word64?_toNat (w : UInt64) : word64? (natural w.toNat) = some w := by
  simp [word64?, natural?_of_lt w.toNat_lt]

theorem list?_map {α : Type} {item? : Json → Option α} {write : α → Json}
    (h : ∀ a, item? (write a) = some a) (items : List α) :
    list? item? (array (items.map write)) = some items := by
  rw [list?]
  induction items with
  | nil => rfl
  | cons a items ih => simp [h, ih]

theorem definite_array {α : Type} {write : α → Json} (h : ∀ a, Definite (write a))
    (items : List α) : Definite (array (items.map write)) := by
  apply Definite.array
  intro j hj
  obtain ⟨a, -, rfl⟩ := List.mem_map.mp hj
  exact h a

end Json

open Json

namespace Alias

theorem ofJson?_toJson (a : Alias) : ofJson? a.toJson = some a := by
  simp [ofJson?, toJson, record?, Json.string, text?, word64?_toNat]

theorem definite_toJson (a : Alias) : Definite a.toJson := by
  apply Definite.object
  · simp
  · simp [Definite.string, Definite.natural]

end Alias

namespace EncodedProduction

theorem ofJson?_toJson (p : EncodedProduction) : ofJson? p.toJson = some p := by
  obtain ⟨left, length, aliases⟩ := p
  by_cases hempty : aliases = []
  · subst hempty
    simp [ofJson?, toJson, record?, word64?_toNat]
  · simp [ofJson?, toJson, record?, word64?_toNat, hempty, list?_map Alias.ofJson?_toJson]

theorem definite_toJson (p : EncodedProduction) : Definite p.toJson := by
  by_cases hempty : p.aliases = []
  · apply Definite.object
    · simp [hempty]
    · simp [hempty, Definite.natural]
  · have haliases := definite_array Alias.definite_toJson p.aliases
    apply Definite.object
    · simp [hempty]
    · simp [hempty, Definite.natural, haliases]

end EncodedProduction

namespace EncodedTable

theorem cell?_cellJson (cell : UInt8 × UInt32) : cell? (cellJson cell) = some cell := by
  simp [cell?, cellJson, word8?_toNat, word32?_toNat]

theorem definite_cellJson (cell : UInt8 × UInt32) : Definite (cellJson cell) := by
  apply Definite.array
  simp [Definite.natural]

theorem row?_array (row : Array (UInt8 × UInt32)) :
    (list? cell? (.array (row.toList.map cellJson))).map List.toArray = some row := by
  simp [list?_map cell?_cellJson]

theorem word32OrNull?_defaultJson (target : Option UInt32) :
    word32OrNull? (defaultJson target) = some target := by
  cases target with
  | none => rfl
  | some p => simp [word32OrNull?, defaultJson, word32?_toNat]

theorem definite_defaultJson (target : Option UInt32) : Definite (defaultJson target) := by
  cases target with
  | none => exact .null
  | some p => exact .natural p.toNat

theorem ofJson?_toJson (e : EncodedTable) : ofJson? e.toJson = some e := by
  have htext : ∀ t, text? (Json.string t) = some t := fun _ => rfl
  have hrows : list? (fun row => (list? cell? row).map List.toArray)
      (.array (e.rows.toList.map fun row => .array (row.toList.map cellJson))) =
        some e.rows.toList := list?_map row?_array _
  simp [ofJson?, toJson, record?, list?_map htext, hrows,
    list?_map EncodedProduction.ofJson?_toJson, list?_map word32OrNull?_defaultJson,
    word64?_toNat]

theorem definite_toJson (e : EncodedTable) : Definite e.toJson := by
  have hrows := definite_array
    (fun row : Array (UInt8 × UInt32) => definite_array definite_cellJson row.toList) e.rows.toList
  apply Definite.object
  · simp
  · simp [definite_array Definite.string, definite_array EncodedProduction.definite_toJson, hrows,
      definite_array definite_defaultJson, Definite.natural]

theorem parse_rendered {e : EncodedTable} (h : e.validate = .ok ()) :
    parse e.render = .ok e ∧ parse e.renderPretty = .ok e := by
  obtain ⟨hcompact, hpretty⟩ := e.definite_toJson.parse?_render
  constructor
  · simp only [parse, render, hcompact, Option.bind_some, ofJson?_toJson, h]
  · simp only [parse, renderPretty, hpretty, Option.bind_some, ofJson?_toJson, h]

theorem validate_of_parse {s : String} {e : EncodedTable} (h : parse s = .ok e) :
    e.validate = .ok () := by
  simp only [parse] at h
  split at h
  · cases h
  · split at h
    case h_1 hvalid =>
      cases h
      exact hvalid
    case h_2 => cases h

/-- Writing a table and reading it again changes nothing, for every table that passes its own
check and so for every table that was read from a text. -/
theorem parse_render_round_trip :
    (∀ e : EncodedTable, e.validate = .ok () →
      parse e.render = .ok e ∧ parse e.renderPretty = .ok e) ∧
    ∀ s e, parse s = .ok e → parse e.render = .ok e ∧ parse e.renderPretty = .ok e :=
  ⟨fun _ h => parse_rendered h, fun _ _ h => parse_rendered (validate_of_parse h)⟩

theorem round_trip_extreme :
    let e : EncodedTable :=
      { terminals := #["$end", "error", "\"\\/\x00\x1f\n\x7f\u2028😀"]
        nonterminals := #["$accept", ""]
        productions := #[⟨1, 18446744073709551615, [⟨"\t", 18446744073709551615⟩]⟩, ⟨0, 0, []⟩]
        rows := #[#[(3, 4294967295), (2, 1), (1, 0), (0, 4294967295), (0, 0)]]
        defaultReductions := #[some 1]
        conflicts := 18446744073709551615 }
    e.validate = .ok () ∧ parse e.render = .ok e ∧ parse e.renderPretty = .ok e := by
  intro e
  have hvalid : e.validate = .ok () := rfl
  exact ⟨hvalid, parse_render_round_trip.1 e hvalid⟩

end EncodedTable

end TableParsing
