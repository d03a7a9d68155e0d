import Mathlib
import TableParsing.Json.Printer
import TableParsing.Json.Reader

/-! Reading what was written. A relation says which texts spell a JSON value, with blanks where
they may stand; the reader gives back the value of every text that spells one, and both layouts
of the printer spell the value they print. -/

namespace TableParsing.Json

def Piece.StandsFor (p : Piece) (c : Char) : Prop :=
  p = .char c ∨ p = .unit c.toNat ∧ c.toNat < 0x20

theorem hexValue?_hexDigit : ∀ n < 16, hexValue? (hexDigit n) = some n := by
  decide

theorem escapeChar_cases (c : Char) :
    (∃ e, simpleEscape? e = some c ∧ e ≠ 'u' ∧ escapeChar c = ['\\', e]) ∨
    (c.toNat < 0x20 ∧ escapeChar c =
      ['\\', 'u', '0', '0', hexDigit (c.toNat / 16), hexDigit (c.toNat % 16)]) ∨
    (¬ c.toNat < 0x20 ∧ c ≠ '"' ∧ c ≠ '\\' ∧ escapeChar c = [c]) := by
  rw [escapeChar]
  split_ifs with hquote hbackslash hn hr ht hb hf hcontrol
  · exact Or.inl ⟨'"', by simp [hquote, simpleEscape?], by decide, rfl⟩
  · exact Or.inl ⟨'\\', by simp [hbackslash, simpleEscape?], by decide, rfl⟩
  · exact Or.inl ⟨'n', by simp [hn, simpleEscape?], by decide, rfl⟩
  · exact Or.inl ⟨'r', by simp [hr, simpleEscape?], by decide, rfl⟩
  · exact Or.inl ⟨'t', by simp [ht, simpleEscape?], by decide, rfl⟩
  · exact Or.inl ⟨'b', by simp [hb, simpleEscape?], by decide, rfl⟩
  · exact Or.inl ⟨'f', by simp [hf, simpleEscape?], by decide, rfl⟩
  · exact Or.inr (Or.inl ⟨hcontrol, rfl⟩)
  · exact Or.inr (Or.inr ⟨hcontrol, hquote, hbackslash, rfl⟩)

theorem hexValues?_control {n : Nat} (h : n < 0x20) :
    hexValues? '0' '0' (hexDigit (n / 16)) (hexDigit (n % 16)) = some n := by
  have hzero : hexValue? '0' = some 0 := rfl
  have hhigh := hexValue?_hexDigit (n / 16) (by omega)
  have hlow := hexValue?_hexDigit (n % 16) (by omega)
  simp only [hexValues?, hzero, hhigh, hlow, bind, Option.bind, pure, Option.some.injEq]
  omega

theorem pieces_escapeChar (c : Char) : ∃ p : Piece, p.StandsFor c ∧
    ∀ cs read, pieces (escapeChar c ++ cs) read = pieces cs (p :: read) := by
  rcases escapeChar_cases c with ⟨e, he, hu, hc⟩ | ⟨hcontrol, hc⟩ | ⟨hcontrol, hquote, hslash, hc⟩
  · refine ⟨.char c, Or.inl rfl, fun cs read => ?_⟩
    rw [hc, List.cons_append, List.singleton_append, pieces, he]
    · intro _ _ _ _ _ heq
      exact absurd heq hu
  · refine ⟨.unit c.toNat, Or.inr ⟨rfl, hcontrol⟩, fun cs read => ?_⟩
    simp only [hc, List.cons_append, List.nil_append, pieces, hexValues?_control hcontrol]
  · refine ⟨.char c, Or.inl rfl, fun cs read => ?_⟩
    rw [hc, List.singleton_append, pieces, if_neg (by simp [hcontrol, hslash])]
    · exact hquote
    · exact fun _ _ _ _ _ h _ => hslash h
    · exact fun _ _ h _ => hslash h

theorem pieces_escaped (t : List Char) : ∃ ps, List.Forall₂ Piece.StandsFor ps t ∧
    ∀ rest read, pieces (t.flatMap escapeChar ++ '"' :: rest) read =
      some (read.reverse ++ ps, rest) := by
  induction t with
  | nil => exact ⟨[], .nil, fun rest read => by simp [pieces]⟩
  | cons c t ih =>
    obtain ⟨p, hp, hpieces⟩ := pieces_escapeChar c
    obtain ⟨ps, hps, hrest⟩ := ih
    refine ⟨p :: ps, .cons hp hps, fun rest read => ?_⟩
    rw [List.flatMap_cons, List.append_assoc, hpieces, hrest, List.reverse_cons,
      List.append_assoc, List.singleton_append]

theorem spell_unit {n : Nat} (hn : n < 0x20) (ps : List Piece) (read : List Char) :
    spell (.unit n :: ps) read = spell ps (Char.ofNat n :: read) := by
  have hlead : isLead n = false := by simp [isLead]; omega
  have htrail : isTrail n = false := by simp [isTrail]; omega
  rw [spell.eq_def]
  split <;> simp_all

theorem spell_eq {ps : List Piece} {t : List Char} (h : List.Forall₂ Piece.StandsFor ps t)
    (read : List Char) : spell ps read = some (read.reverse ++ t) := by
  induction h generalizing read with
  | nil => simp [spell]
  | @cons p c ps t hp _ ih =>
    rcases hp with rfl | ⟨rfl, hcontrol⟩
    · rw [spell, ih, List.reverse_cons, List.append_assoc, List.singleton_append]
    · rw [spell_unit hcontrol, ih, Char.ofNat_toNat, List.reverse_cons, List.append_assoc,
        List.singleton_append]

theorem literal?_quote (t : String) (rest : List Char) :
    literal? (t.toList.flatMap escapeChar ++ '"' :: rest) = some (some t, rest) := by
  obtain ⟨ps, hps, hpieces⟩ := pieces_escaped t.toList
  rw [literal?, hpieces, Option.map_some]
  simp [spell_eq hps]

def Stops (rest : List Char) : Prop :=
  ∀ c ∈ rest.head?, isDigit c = false ∧ c ≠ '.' ∧ c ≠ 'e' ∧ c ≠ 'E'

theorem isDigit_toDigits {n : Nat} {c : Char} (h : c ∈ Nat.toDigits 10 n) : isDigit c = true :=
  Nat.isDigit_of_mem_toDigits (by decide) (by decide) h

theorem digits?_append {ds rest : List Char} (hne : ds ≠ []) (hds : ∀ c ∈ ds, isDigit c = true)
    (hrest : Stops rest) : digits? (ds ++ rest) = some (ds, rest) := by
  have htake : (ds ++ rest).takeWhile isDigit = ds := by
    rw [List.takeWhile_append_of_pos hds, List.append_right_eq_self]
    cases rest with
    | nil => rfl
    | cons c rest => simp [(hrest c rfl).1]
  have hdrop : (ds ++ rest).dropWhile isDigit = rest := by
    rw [List.dropWhile_append_of_pos hds]
    cases rest with
    | nil => rfl
    | cons c rest => simp [(hrest c rfl).1]
  rw [digits?, htake, hdrop]
  split
  · exact absurd rfl hne
  · rfl

theorem digitsValue_toDigits (n : Nat) : digitsValue (Nat.toDigits 10 n) = n := by
  have hfold : digitsValue (Nat.toDigits 10 n) = Nat.ofDigitChars 10 (Nat.toDigits 10 n) 0 := by
    simp only [digitsValue, Nat.ofDigitChars_eq_foldl, Nat.mul_comm]
  rw [hfold, Nat.ofDigitChars_ten_toDigits]

theorem toDigits_eq_zero_cons {n : Nat} {ds : List Char} (h : Nat.toDigits 10 n = '0' :: ds) :
    n = 0 ∧ ds = [] := by
  induction n using Nat.strongRecOn generalizing ds with
  | ind n ih =>
    by_cases hlt : n < 10
    · rw [Nat.toDigits_of_lt_base hlt] at h
      obtain ⟨hhead, hds⟩ := List.cons.inj h
      exact ⟨Nat.digitChar_eq_zero.mp hhead, hds.symm⟩
    · rw [Nat.toDigits_of_base_le (by decide) (by omega)] at h
      cases hdigits : Nat.toDigits 10 (n / 10) with
      | nil => exact absurd hdigits Nat.toDigits_ne_nil
      | cons d ds' =>
        rw [hdigits] at h
        obtain ⟨rfl, -⟩ := List.cons.inj h
        have hzero := (ih (n / 10) (by omega) hdigits).1
        omega

theorem integer?_toDigits {rest : List Char} (hrest : Stops rest) (n : Nat) :
    integer? (Nat.toDigits 10 n ++ rest) = some (n, rest) := by
  rw [integer?, digits?_append Nat.toDigits_ne_nil (fun c => isDigit_toDigits) hrest]
  split
  case h_1 heq =>
    obtain ⟨hdigits, rfl⟩ := Prod.mk.inj (Option.some.inj heq)
    rw [(toDigits_eq_zero_cons hdigits).1]
  case h_2 hne heq =>
    obtain ⟨hdigits, rfl⟩ := Prod.mk.inj (Option.some.inj heq)
    exact absurd (toDigits_eq_zero_cons hdigits).2 hne
  case h_3 heq =>
    obtain ⟨rfl, rfl⟩ := Prod.mk.inj (Option.some.inj heq)
    rw [digitsValue_toDigits]
  case h_4 heq => cases heq

theorem fraction?_stops {rest : List Char} (h : Stops rest) :
    fraction? rest = some (false, rest) := by
  rw [fraction?.eq_def]
  split
  · exact absurd rfl (h '.' rfl).2.1
  · rfl

theorem exponent?_stops {rest : List Char} (h : Stops rest) :
    exponent? rest = some (false, rest) := by
  rw [exponent?.eq_def]
  split
  · exact absurd rfl (h 'e' rfl).2.2.1
  · exact absurd rfl (h 'E' rfl).2.2.2
  · rfl

theorem number?_toDigits {rest : List Char} (hrest : Stops rest) (n : Nat) :
    number? (Nat.toDigits 10 n ++ rest) = some (natural n, rest) := by
  have hunsigned : unsigned? (Nat.toDigits 10 n ++ rest) = some (natural n, rest) := by
    simp only [unsigned?, integer?_toDigits hrest, fraction?_stops hrest, exponent?_stops hrest,
      bind, Option.bind, pure]
    rfl
  rw [number?.eq_def]
  split
  case h_1 heq =>
    cases hdigits : Nat.toDigits 10 n with
    | nil => exact absurd hdigits Nat.toDigits_ne_nil
    | cons d ds =>
      have hd : isDigit d = true := isDigit_toDigits (by rw [hdigits]; exact List.mem_cons_self)
      rw [hdigits] at heq
      obtain ⟨rfl, -⟩ := List.cons.inj heq
      cases hd
  case h_2 => exact hunsigned

def Blanks (cs : List Char) : Prop := ∀ c ∈ cs, isBlank c = true

theorem blanks_nil : Blanks [] := by simp [Blanks]

theorem skipBlanks_append {blanks : List Char} (h : Blanks blanks) (cs : List Char) :
    skipBlanks (blanks ++ cs) = skipBlanks cs := List.dropWhile_append_of_pos h

theorem skipBlanks_cons {c : Char} (h : isBlank c = false) (cs : List Char) :
    skipBlanks (c :: cs) = c :: cs := by
  simp [skipBlanks, h]

inductive Part
  | value (j : Json)
  | items (items : List Json)
  | fields (fields : List (Option String × Json))

/-- The texts that spell a value start with its first character. Those of items and fields are
not empty and end with the closing bracket. -/
inductive Spells : Part → List Char → Prop
  | null : Spells (.value null) ['n', 'u', 'l', 'l']
  | trueWord : Spells (.value (bool true)) ['t', 'r', 'u', 'e']
  | falseWord : Spells (.value (bool false)) ['f', 'a', 'l', 's', 'e']
  | natural (n : Nat) : Spells (.value (natural n)) (Nat.toDigits 10 n)
  | string (t : String) : Spells (.value (string t)) (quote t.toList)
  | emptyArray {b : List Char} : Blanks b → Spells (.value (array [])) ('[' :: (b ++ [']']))
  | array {items : List Json} {cs : List Char} :
      Spells (.items items) cs → Spells (.value (array items)) ('[' :: cs)
  | emptyObject {b : List Char} : Blanks b → Spells (.value (object [])) ('{' :: (b ++ ['}']))
  | object {fields : List (Option String × Json)} {cs : List Char} :
      Spells (.fields fields) cs → Spells (.value (object fields)) ('{' :: cs)
  | lastItem {b b' cs : List Char} {j : Json} : Blanks b → Blanks b' → Spells (.value j) cs →
      Spells (.items [j]) (b ++ (cs ++ (b' ++ [']'])))
  | item {b b' cs more : List Char} {j : Json} {items : List Json} :
      Blanks b → Blanks b' → Spells (.value j) cs → Spells (.items items) more →
      Spells (.items (j :: items)) (b ++ (cs ++ (b' ++ ',' :: more)))
  | lastField {b b₁ b₂ b' cs : List Char} {j : Json} (name : String) :
      Blanks b → Blanks b₁ → Blanks b₂ → Blanks b' → Spells (.value j) cs →
      Spells (.fields [(some name, j)])
        (b ++ (quote name.toList ++ (b₁ ++ ':' :: (b₂ ++ (cs ++ (b' ++ ['}']))))))
  | field {b b₁ b₂ b' cs more : List Char} {j : Json} {fields : List (Option String × Json)}
      (name : String) : Blanks b → Blanks b₁ → Blanks b₂ → Blanks b' → Spells (.value j) cs →
      Spells (.fields fields) more → Spells (.fields ((some name, j) :: fields))
        (b ++ (quote name.toList ++ (b₁ ++ ':' :: (b₂ ++ (cs ++ (b' ++ ',' :: more))))))

def Part.Read (fuel : Nat) (cs rest : List Char) : Part → Prop
  | .value j => value? fuel cs = some (j, rest)
  | .items js => items? fuel cs = some (js, rest)
  | .fields fs => fields? fuel cs = some (fs, rest)

theorem value?_blanks {blanks : List Char} (h : Blanks blanks) (fuel : Nat) (cs : List Char) :
    value? fuel (blanks ++ cs) = value? fuel cs := by
  cases fuel with
  | zero => rfl
  | succ fuel => rw [value?, value?, skipBlanks_append h]

theorem stops_blanks {b : List Char} (h : Blanks b) (mark : Char) (rest : List Char)
    (hmark : mark = ',' ∨ mark = ']' ∨ mark = '}') : Stops (b ++ mark :: rest) := by
  intro c hc
  cases b with
  | nil =>
    cases hc
    rcases hmark with rfl | rfl | rfl <;> decide
  | cons blank b =>
    cases hc
    have hblank := h c List.mem_cons_self
    simp only [isBlank, Bool.or_eq_true, decide_eq_true_eq] at hblank
    rcases hblank with ((rfl | rfl) | rfl) | rfl <;> decide

theorem exists_cons_toDigits (n : Nat) :
    ∃ d ds, Nat.toDigits 10 n = d :: ds ∧ isDigit d = true ∧ isBlank d = false := by
  cases hdigits : Nat.toDigits 10 n with
  | nil => exact absurd hdigits Nat.toDigits_ne_nil
  | cons d ds =>
    have hd : isDigit d = true := isDigit_toDigits (by rw [hdigits]; exact List.mem_cons_self)
    refine ⟨d, ds, rfl, hd, ?_⟩
    by_contra hblank
    simp only [isBlank, Bool.not_eq_false, Bool.or_eq_true, decide_eq_true_eq] at hblank
    rcases hblank with ((rfl | rfl) | rfl) | rfl <;> cases hd

theorem value?_toDigits {rest : List Char} (hrest : Stops rest) (fuel n : Nat) :
    value? (fuel + 1) (Nat.toDigits 10 n ++ rest) = some (natural n, rest) := by
  have hnumber := number?_toDigits hrest n
  obtain ⟨d, ds, hdigits, hd, hblank⟩ := exists_cons_toDigits n
  rw [hdigits, List.cons_append] at hnumber
  rw [hdigits, value?, List.cons_append, skipBlanks_cons hblank]
  -- no other kind of value starts with a digit
  split
  case h_7 => exact hnumber
  all_goals
    rename_i heq
    obtain ⟨rfl, -⟩ := List.cons.inj heq
    cases hd

theorem value?_string (fuel : Nat) (t : String) (rest : List Char) :
    value? (fuel + 1) (quote t.toList ++ rest) = some (string t, rest) := by
  rw [value?, quote, List.cons_append, List.cons_append, skipBlanks_cons (by decide)]
  simp only [List.append_assoc, List.singleton_append, literal?_quote, Option.map_some, string]

theorem Spells.exists_cons {j : Json} {cs : List Char} (h : Spells (.value j) cs) :
    ∃ c tail, cs = c :: tail ∧ isBlank c = false ∧ c ≠ ']' := by
  cases h with
  | natural n =>
    obtain ⟨d, ds, hdigits, hd, hblank⟩ := exists_cons_toDigits n
    refine ⟨d, ds, hdigits, hblank, ?_⟩
    rintro rfl
    cases hd
  | _ => exact ⟨_, _, rfl, by decide, by decide⟩

theorem Spells.exists_item {items : List Json} {cs : List Char} (h : Spells (.items items) cs)
    (rest : List Char) : ∃ c tail, skipBlanks (cs ++ rest) = c :: tail ∧ c ≠ ']' := by
  cases h with
  | lastItem hb _ h =>
    obtain ⟨c, tail, rfl, hblank, hc⟩ := h.exists_cons
    rw [List.append_assoc, skipBlanks_append hb, List.append_assoc, List.cons_append,
      skipBlanks_cons hblank]
    exact ⟨c, _, rfl, hc⟩
  | item hb _ h =>
    obtain ⟨c, tail, rfl, hblank, hc⟩ := h.exists_cons
    rw [List.append_assoc, skipBlanks_append hb, List.append_assoc, List.cons_append,
      skipBlanks_cons hblank]
    exact ⟨c, _, rfl, hc⟩

theorem Spells.exists_field {fields : List (Option String × Json)} {cs : List Char}
    (h : Spells (.fields fields) cs) (rest : List Char) :
    ∃ tail, skipBlanks (cs ++ rest) = '"' :: tail := by
  cases h with
  | lastField name hb =>
    rw [List.append_assoc, skipBlanks_append hb]
    exact ⟨_, rfl⟩
  | field name hb =>
    rw [List.append_assoc, skipBlanks_append hb]
    exact ⟨_, rfl⟩

section Reading

variable {fuel : Nat} {b b₁ b₂ b' cs rest : List Char} {j : Json}

theorem value?_bracket (fuel : Nat) (cs : List Char) : value? (fuel + 1) ('[' :: cs) =
    match skipBlanks cs with
    | ']' :: rest => some (array [], rest)
    | _ => (items? fuel cs).map fun (items, rest) => (array items, rest) := rfl

theorem value?_brace (fuel : Nat) (cs : List Char) : value? (fuel + 1) ('{' :: cs) =
    match skipBlanks cs with
    | '}' :: rest => some (object [], rest)
    | _ => (fields? fuel cs).map fun (fields, rest) => (object fields, rest) := rfl

theorem value?_emptyArray (hb : Blanks b) (fuel : Nat) (rest : List Char) :
    value? (fuel + 1) ('[' :: (b ++ ']' :: rest)) = some (array [], rest) := by
  rw [value?_bracket, skipBlanks_append hb]
  rfl

theorem value?_emptyObject (hb : Blanks b) (fuel : Nat) (rest : List Char) :
    value? (fuel + 1) ('{' :: (b ++ '}' :: rest)) = some (object [], rest) := by
  rw [value?_brace, skipBlanks_append hb]
  rfl

theorem value?_array {items : List Json} (h : Spells (.items items) cs)
    (hitems : items? fuel (cs ++ rest) = some (items, rest)) :
    value? (fuel + 1) ('[' :: (cs ++ rest)) = some (array items, rest) := by
  obtain ⟨c, tail, hskip, hc⟩ := h.exists_item rest
  simp only [value?_bracket, hskip, hitems, Option.map_some]
  split
  case h_1 heq => exact absurd (List.cons.inj heq).1 hc
  case h_2 => rfl

theorem value?_object {fields : List (Option String × Json)} (h : Spells (.fields fields) cs)
    (hfields : fields? fuel (cs ++ rest) = some (fields, rest)) :
    value? (fuel + 1) ('{' :: (cs ++ rest)) = some (object fields, rest) := by
  obtain ⟨tail, hskip⟩ := h.exists_field rest
  simp only [value?_brace, hskip, hfields, Option.map_some]
  rfl

theorem items?_last {more : List Char} (hb : Blanks b) (hvalue : value? fuel cs = some (j, more))
    (hskip : skipBlanks more = ']' :: rest) :
    items? (fuel + 1) (b ++ cs) = some ([j], rest) := by
  simp only [items?, value?_blanks hb, hvalue, hskip]

theorem items?_cons {items : List Json} {more left : List Char} (hb : Blanks b)
    (hvalue : value? fuel cs = some (j, more)) (hskip : skipBlanks more = ',' :: left)
    (hitems : items? fuel left = some (items, rest)) :
    items? (fuel + 1) (b ++ cs) = some (j :: items, rest) := by
  simp only [items?, value?_blanks hb, hvalue, hskip, hitems, Option.map_some]

theorem fields?_last {more : List Char} (name : String) (hb : Blanks b) (hb₁ : Blanks b₁)
    (hb₂ : Blanks b₂) (hvalue : value? fuel cs = some (j, more))
    (hskip : skipBlanks more = '}' :: rest) :
    fields? (fuel + 1) (b ++ (quote name.toList ++ (b₁ ++ ':' :: (b₂ ++ cs)))) =
      some ([(some name, j)], rest) := by
  simp only [quote, fields?, List.cons_append, List.append_assoc, List.nil_append,
    skipBlanks_append hb, skipBlanks_cons (c := '"') rfl, literal?_quote, skipBlanks_append hb₁,
    skipBlanks_cons (c := ':') rfl, value?_blanks hb₂, hvalue, hskip]

theorem fields?_cons {fields : List (Option String × Json)} {more left : List Char} (name : String)
    (hb : Blanks b) (hb₁ : Blanks b₁) (hb₂ : Blanks b₂)
    (hvalue : value? fuel cs = some (j, more)) (hskip : skipBlanks more = ',' :: left)
    (hfields : fields? fuel left = some (fields, rest)) :
    fields? (fuel + 1) (b ++ (quote name.toList ++ (b₁ ++ ':' :: (b₂ ++ cs)))) =
      some ((some name, j) :: fields, rest) := by
  simp only [quote, fields?, List.cons_append, List.append_assoc, List.nil_append,
    skipBlanks_append hb, skipBlanks_cons (c := '"') rfl, literal?_quote, skipBlanks_append hb₁,
    skipBlanks_cons (c := ':') rfl, value?_blanks hb₂, hvalue, hskip, hfields, Option.map_some]

theorem skipBlanks_mark {c : Char} (hb : Blanks b) (hc : isBlank c = false) (rest : List Char) :
    skipBlanks (b ++ c :: rest) = c :: rest := by
  rw [skipBlanks_append hb, skipBlanks_cons hc]

end Reading

theorem Spells.exists_fuel {part : Part} {cs : List Char} (h : Spells part cs) {fuel : Nat}
    (hfuel : cs.length ≤ fuel) : ∃ k, fuel = k + 1 := by
  have hpos : 0 < cs.length := by
    cases h with
    | natural n => exact Nat.length_toDigits_pos
    | _ => simp [quote]
  exact Nat.exists_eq_add_one.mpr (Nat.lt_of_lt_of_le hpos hfuel)

theorem Spells.reads {part : Part} {cs : List Char} (h : Spells part cs) {fuel : Nat}
    (hfuel : cs.length ≤ fuel) {rest : List Char} (hrest : Stops rest) :
    part.Read fuel (cs ++ rest) rest := by
  -- every part takes a character more than those inside it
  induction h generalizing fuel rest with
  | null =>
    obtain ⟨fuel, rfl⟩ := Spells.null.exists_fuel hfuel
    rfl
  | trueWord =>
    obtain ⟨fuel, rfl⟩ := Spells.trueWord.exists_fuel hfuel
    rfl
  | falseWord =>
    obtain ⟨fuel, rfl⟩ := Spells.falseWord.exists_fuel hfuel
    rfl
  | natural n =>
    obtain ⟨fuel, rfl⟩ := (Spells.natural n).exists_fuel hfuel
    exact value?_toDigits hrest fuel n
  | string t =>
    obtain ⟨fuel, rfl⟩ := (Spells.string t).exists_fuel hfuel
    exact value?_string fuel t rest
  | emptyArray hb =>
    obtain ⟨fuel, rfl⟩ := (Spells.emptyArray hb).exists_fuel hfuel
    simpa [Part.Read] using value?_emptyArray hb fuel rest
  | array h ih =>
    obtain ⟨fuel, rfl⟩ := (Spells.array h).exists_fuel hfuel
    exact value?_array h (ih (Nat.le_of_succ_le_succ hfuel) hrest)
  | emptyObject hb =>
    obtain ⟨fuel, rfl⟩ := (Spells.emptyObject hb).exists_fuel hfuel
    simpa [Part.Read] using value?_emptyObject hb fuel rest
  | object h ih =>
    obtain ⟨fuel, rfl⟩ := (Spells.object h).exists_fuel hfuel
    exact value?_object h (ih (Nat.le_of_succ_le_succ hfuel) hrest)
  | lastItem hb hb' h ih =>
    obtain ⟨fuel, rfl⟩ := (Spells.lastItem hb hb' h).exists_fuel hfuel
    simp only [List.length_append, List.length_cons, List.length_nil] at hfuel
    have hvalue := @ih fuel (by omega) _ (stops_blanks hb' ']' rest (by simp))
    simpa [Part.Read] using items?_last hb hvalue (skipBlanks_mark hb' rfl rest)
  | @item _ _ _ more _ _ hb hb' h hitems ih ihitems =>
    obtain ⟨fuel, rfl⟩ := (Spells.item hb hb' h hitems).exists_fuel hfuel
    simp only [List.length_append, List.length_cons] at hfuel
    have hvalue := @ih fuel (by omega) _ (stops_blanks hb' ',' (more ++ rest) (by simp))
    have hitems := ihitems (show _ ≤ fuel by omega) hrest
    simpa [Part.Read] using items?_cons hb hvalue (skipBlanks_mark hb' rfl (more ++ rest)) hitems
  | lastField name hb hb₁ hb₂ hb' h ih =>
    obtain ⟨fuel, rfl⟩ := (Spells.lastField name hb hb₁ hb₂ hb' h).exists_fuel hfuel
    simp only [List.length_append, List.length_cons, List.length_nil] at hfuel
    have hvalue := @ih fuel (by omega) _ (stops_blanks hb' '}' rest (by simp))
    simpa [Part.Read] using fields?_last name hb hb₁ hb₂ hvalue (skipBlanks_mark hb' rfl rest)
  | @field _ _ _ _ _ more _ _ name hb hb₁ hb₂ hb' h hfields ih ihfields =>
    obtain ⟨fuel, rfl⟩ := (Spells.field name hb hb₁ hb₂ hb' h hfields).exists_fuel hfuel
    simp only [List.length_append, List.length_cons] at hfuel
    have hvalue := @ih fuel (by omega) _ (stops_blanks hb' ',' (more ++ rest) (by simp))
    have hfields := ihfields (show _ ≤ fuel by omega) hrest
    have hskip := skipBlanks_mark (c := ',') hb' rfl (more ++ rest)
    simpa [Part.Read] using fields?_cons name hb hb₁ hb₂ hvalue hskip hfields

theorem parse?_spelled {j : Json} {cs : List Char} (h : Spells (.value j) cs) :
    parse? (String.ofList cs) = some j := by
  have hread : value? (cs.length + 1) (cs ++ []) = some (j, []) :=
    h.reads (Nat.le_succ _) (by simp [Stops])
  rw [List.append_nil] at hread
  simp [parse?, hread, skipBlanks]

/-- Values that are all there is to know of the text they are printed as. -/
inductive Definite : Json → Prop
  | null : Definite null
  | bool (b : Bool) : Definite (bool b)
  | natural (n : Nat) : Definite (natural n)
  | string (t : String) : Definite (string t)
  | array {items : List Json} : (∀ j ∈ items, Definite j) → Definite (array items)
  | object {fields : List (Option String × Json)} : (∀ field ∈ fields, field.1.isSome = true) →
      (∀ field ∈ fields, Definite field.2) → Definite (object fields)

theorem compactItems_eq (items : List Json) : compactItems items = items.map compact := by
  induction items with
  | nil => rfl
  | cons j items ih => rw [compactItems, ih, List.map_cons]

theorem prettyItems_eq (depth : Nat) (items : List Json) :
    prettyItems depth items = items.map (pretty depth) := by
  induction items with
  | nil => rfl
  | cons j items ih => rw [prettyItems, ih, List.map_cons]

theorem compactFields_eq (fields : List (Option String × Json)) :
    compactFields fields = fields.map fun field => key field.1 ++ ':' :: compact field.2 := by
  induction fields with
  | nil => rfl
  | cons field fields ih => rw [compactFields, ih, List.map_cons]

theorem prettyFields_eq (depth : Nat) (fields : List (Option String × Json)) :
    prettyFields depth fields =
      fields.map fun field => key field.1 ++ ':' :: ' ' :: pretty depth field.2 := by
  induction fields with
  | nil => rfl
  | cons field fields ih => rw [prettyFields, ih, List.map_cons]

theorem spells_items {write : Json → List Char} {items : List Json} {opening closing : List Char}
    (hopening : Blanks opening) (hclosing : Blanks closing)
    (h : ∀ j ∈ items, Spells (.value j) (write j)) (hne : items ≠ []) :
    Spells (.items items)
      (opening ++ (separated (',' :: opening) (items.map write) ++ (closing ++ [']']))) := by
  induction items with
  | nil => exact absurd rfl hne
  | cons j items ih =>
    have hj := h j List.mem_cons_self
    cases items with
    | nil => exact .lastItem hopening hclosing hj
    | cons j' items =>
      have hmore := ih (fun j hj => h j (List.mem_cons_of_mem _ hj)) (by simp)
      have hspells := Spells.item hopening blanks_nil hj hmore
      simpa [separated] using hspells

theorem spells_fields {write : Json → List Char} {fields : List (Option String × Json)}
    {opening between closing : List Char} (hopening : Blanks opening) (hbetween : Blanks between)
    (hclosing : Blanks closing) (hnames : ∀ field ∈ fields, field.1.isSome = true)
    (h : ∀ field ∈ fields, Spells (.value field.2) (write field.2)) (hne : fields ≠ []) :
    Spells (.fields fields)
      (opening ++ (separated (',' :: opening) (fields.map fun field =>
        key field.1 ++ ':' :: (between ++ write field.2)) ++ (closing ++ ['}']))) := by
  induction fields with
  | nil => exact absurd rfl hne
  | cons field fields ih =>
    obtain ⟨⟨name⟩ | ⟨name⟩, j⟩ := field
    · cases hnames _ List.mem_cons_self
    have hfield := h _ List.mem_cons_self
    cases fields with
    | nil =>
      have hspells := Spells.lastField name hopening blanks_nil hbetween hclosing hfield
      simpa [separated, key] using hspells
    | cons field' fields =>
      have hmore := ih (fun field hmem => hnames field (List.mem_cons_of_mem _ hmem))
        (fun field hmem => h field (List.mem_cons_of_mem _ hmem)) (by simp)
      have hspells := Spells.field name hopening blanks_nil hbetween blanks_nil hfield hmore
      simpa [separated, key] using hspells

theorem Definite.spells_compact {j : Json} (h : Definite j) : Spells (.value j) (compact j) := by
  induction h with
  | null => exact .null
  | bool b =>
    cases b with
    | false => exact .falseWord
    | true => exact .trueWord
  | natural n =>
    rw [compact]
    exact .natural n
  | string t =>
    rw [Json.string, compact]
    exact .string t
  | @array items h ih =>
    rw [compact, compactItems_eq]
    cases items with
    | nil => exact .emptyArray blanks_nil
    | cons j items => exact .array (spells_items blanks_nil blanks_nil ih (by simp))
  | @object fields hnames h ih =>
    rw [compact, compactFields_eq]
    cases fields with
    | nil => exact .emptyObject blanks_nil
    | cons field fields =>
      exact .object (spells_fields blanks_nil blanks_nil blanks_nil hnames ih (by simp))

theorem blanks_lineBreak (depth : Nat) : Blanks (lineBreak depth) := by
  intro c hc
  rcases List.mem_cons.mp hc with rfl | hc
  · rfl
  · rw [(List.mem_replicate.mp hc).2]
    rfl

theorem Definite.spells_pretty {j : Json} (h : Definite j) (depth : Nat) :
    Spells (.value j) (pretty depth j) := by
  induction h generalizing depth with
  | null => exact .null
  | bool b =>
    cases b with
    | false => exact .falseWord
    | true => exact .trueWord
  | natural n =>
    rw [pretty, compact]
    exact .natural n
  | string t =>
    rw [Json.string, pretty, compact]
    exact .string t
  | @array items h ih =>
    rw [pretty, prettyItems_eq, block]
    cases items with
    | nil => exact .emptyArray blanks_nil
    | cons j items =>
      have hitems := spells_items (blanks_lineBreak (depth + 1)) (blanks_lineBreak depth)
        (fun j hj => ih j hj (depth + 1)) (by simp)
      simpa using Spells.array hitems
  | @object fields hnames h ih =>
    rw [pretty, prettyFields_eq, block]
    cases fields with
    | nil => exact .emptyObject blanks_nil
    | cons field fields =>
      have hblank : Blanks [' '] := by simp [Blanks, isBlank]
      have hfields := spells_fields (blanks_lineBreak (depth + 1)) hblank (blanks_lineBreak depth)
        hnames (fun field hfield => ih field hfield (depth + 1)) (by simp)
      simpa using Spells.object hfields

theorem Definite.parse?_render {j : Json} (h : Definite j) :
    parse? j.render = some j ∧ parse? j.renderPretty = some j :=
  ⟨parse?_spelled h.spells_compact, parse?_spelled (h.spells_pretty 0)⟩

end TableParsing.Json
