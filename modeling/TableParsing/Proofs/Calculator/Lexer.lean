import Mathlib.Data.List.Induction
import Mathlib.Data.List.TakeWhile
import TableParsing.Calculator.Lexer

/-! The lexer loses nothing and locates what it reads. A text is the texts of its items, in order,
with blanks between them. Each item is the longest stretch that a pattern matches, or a single
character where none does. The search for a line always finds one that begins at or before the
offset, and gives the line and the column that counting line breaks and bytes would give. -/

namespace TableParsing.Calculator

@[simp] theorem byteCount_nil : byteCount [] = 0 := rfl

@[simp] theorem byteCount_cons (c : Char) (cs : List Char) :
    byteCount (c :: cs) = c.utf8Size + byteCount cs := rfl

@[simp] theorem byteCount_append (cs ds : List Char) :
    byteCount (cs ++ ds) = byteCount cs + byteCount ds := by
  induction cs with
  | nil => simp
  | cons c cs ih => rw [List.cons_append, byteCount_cons, ih, byteCount_cons, Nat.add_assoc]

theorem breaks_append (offset : Nat) (cs ds : List Char) :
    breaks offset (cs ++ ds) = breaks offset cs ++ breaks (offset + byteCount cs) ds := by
  induction cs generalizing offset with
  | nil => rfl
  | cons c cs ih =>
    simp only [List.cons_append, breaks, ih, byteCount_cons, Nat.add_assoc]
    split <;> rfl

theorem lt_of_mem_breaks {offset b : Nat} {cs : List Char} (h : b ∈ breaks offset cs) :
    offset < b ∧ b ≤ offset + byteCount cs := by
  induction cs generalizing offset with
  | nil => cases h
  | cons c cs ih =>
    have hpos := c.utf8Size_pos
    rw [byteCount_cons]
    simp only [breaks] at h
    split at h
    · rcases List.mem_cons.mp h with rfl | h
      · omega
      · have hb := ih h
        omega
    · have hb := ih h
      omega

theorem length_breaks (offset : Nat) (cs : List Char) :
    (breaks offset cs).length = cs.count '\n' := by
  induction cs generalizing offset with
  | nil => rfl
  | cons c cs ih =>
    simp only [breaks, List.count_cons, beq_iff_eq]
    split
    · rw [List.length_cons, ih]
    · rw [ih, Nat.add_zero]

theorem pairwise_breaks (offset : Nat) (cs : List Char) :
    (breaks offset cs).Pairwise (· < ·) := by
  induction cs generalizing offset with
  | nil => exact .nil
  | cons c cs ih =>
    simp only [breaks]
    split
    · exact .cons (fun b hb => (lt_of_mem_breaks hb).1) (ih _)
    · exact ih _

theorem pairwise_lineStarts (cs : List Char) : (lineStarts cs).Pairwise (· < ·) :=
  .cons (fun _ hb => (lt_of_mem_breaks hb).1) (pairwise_breaks 0 cs)

def lineAfter (cs : List Char) : Nat := 1 + cs.count '\n'

def columnAfter (cs : List Char) : Nat := byteCount (cs.reverse.takeWhile (· ≠ '\n'))

theorem lineStarts_append (before after : List Char) :
    lineStarts (before ++ after) = lineStarts before ++ breaks (byteCount before) after := by
  rw [lineStarts, breaks_append, Nat.zero_add]
  rfl

theorem exists_getLast?_lineStarts (cs : List Char) : ∃ start,
    (lineStarts cs).getLast? = some start ∧ start + columnAfter cs = byteCount cs := by
  induction cs using List.reverseRecOn with
  | nil => exact ⟨0, rfl, rfl⟩
  | append_singleton cs c ih =>
    obtain ⟨start, hlast, hcolumn⟩ := ih
    rw [lineStarts_append]
    by_cases hc : c = '\n'
    · refine ⟨byteCount cs + c.utf8Size, ?_, ?_⟩
      · simp [breaks, hc]
      · simp [columnAfter, hc]
    · refine ⟨start, ?_, ?_⟩
      · simp [breaks, hc, hlast]
      · have hmore : columnAfter (cs ++ [c]) = c.utf8Size + columnAfter cs := by
          simp [columnAfter, hc]
        rw [hmore, byteCount_append, byteCount_cons, byteCount_nil]
        omega

def position? (starts : List Nat) (offset : Nat) : Option (Nat × Nat) :=
  let line := (starts.takeWhile (· ≤ offset)).length
  if line = 0 then none
  else
    match starts[line - 1]? with
    | none => none
    | some start => if start ≤ offset then some (line, offset - start) else none

theorem position_of_position? {starts : List Nat} {offset : Nat} {p : Nat × Nat}
    (h : position? starts offset = some p) : position starts offset = p := by
  simp only [position?] at h
  split at h
  · cases h
  split at h
  · cases h
  case h_2 start hstart =>
    split at h
    · cases h
      rw [position, List.getD_eq_getElem?_getD, hstart]
      rfl
    · cases h

theorem takeWhile_lineStarts (before after : List Char) :
    (lineStarts (before ++ after)).takeWhile (· ≤ byteCount before) = lineStarts before := by
  have hbefore : ∀ b ∈ lineStarts before, decide (b ≤ byteCount before) = true := by
    intro b hb
    apply decide_eq_true
    rcases List.mem_cons.mp hb with rfl | hb
    · exact Nat.zero_le _
    · have hle := (lt_of_mem_breaks hb).2
      omega
  have hafter : (breaks (byteCount before) after).takeWhile (· ≤ byteCount before) = [] := by
    cases hbreaks : breaks (byteCount before) after with
    | nil => rfl
    | cons b bs =>
      have hlt := (lt_of_mem_breaks (hbreaks ▸ List.mem_cons_self : b ∈ breaks _ _)).1
      exact List.takeWhile_cons_of_neg (by simpa using hlt)
  rw [lineStarts_append, List.takeWhile_append_of_pos hbefore, hafter, List.append_nil]

theorem position?_eq (before after : List Char) :
    position? (lineStarts (before ++ after)) (byteCount before) =
      some (lineAfter before, columnAfter before) := by
  obtain ⟨start, hlast, hcolumn⟩ := exists_getLast?_lineStarts before
  have hlength : (lineStarts before).length = lineAfter before := by
    rw [lineStarts, List.length_cons, length_breaks, lineAfter, Nat.add_comm]
  have hline : lineAfter before ≠ 0 := by
    rw [lineAfter]
    omega
  -- the last line found is the one that the first part ends on
  have hget : (lineStarts (before ++ after))[lineAfter before - 1]? = some start := by
    rw [lineStarts_append, List.getElem?_append_left (by omega), ← hlength,
      ← List.getLast?_eq_getElem?, hlast]
  simp only [position?, takeWhile_lineStarts, hlength, hget]
  rw [if_neg hline, if_pos (by omega), ← hcolumn, Nat.add_sub_cancel_left]

-- the end of a text after a line break, and the end of its last line
example : position (lineStarts "é\n\n".toList) 4 = (3, 0) := by decide
example : position (lineStarts "é\n\n".toList) 2 = (1, 2) := by decide

/-- What the patterns of the terminals match: a symbol, or digits with a point and more digits
after them or not. -/
inductive Pattern : String → List Char → Prop
  | symbol {c : Char} : c ∈ ['(', ')', '+', '-', '*', '/', '^'] → Pattern (String.singleton c) [c]
  | whole {ds : List Char} : ds ≠ [] → (∀ d ∈ ds, isDigit d) → Pattern "NUM" ds
  | fraction {ds fs : List Char} : ds ≠ [] → (∀ d ∈ ds, isDigit d) → fs ≠ [] →
      (∀ d ∈ fs, isDigit d) → Pattern "NUM" (ds ++ '.' :: fs)

/-- A lexeme that a pattern matches and that begins the text, where no pattern matches more. -/
structure Longest (name : String) (lexeme text : List Char) : Prop where
  begins : lexeme <+: text
  pattern : Pattern name lexeme
  longest : ∀ name' other, Pattern name' other → other <+: text → other.length ≤ lexeme.length

/-- A single character at which no match begins. -/
structure Unmatched (lexeme text : List Char) : Prop where
  begins : lexeme <+: text
  single : lexeme.length = 1
  unmatched : ∀ name other, Pattern name other → ¬ other <+: text

def NoDigit (cs : List Char) : Prop := ∀ c ∈ cs.head?, isDigit c = false

theorem noDigit_point (cs : List Char) : NoDigit ('.' :: cs) := by
  intro c hc
  cases hc
  decide

theorem span_digits {ds rest : List Char} (hds : ∀ d ∈ ds, isDigit d) (hrest : NoDigit rest) :
    (ds ++ rest).takeWhile isDigit = ds ∧ (ds ++ rest).dropWhile isDigit = rest := by
  rw [List.takeWhile_append_of_pos hds, List.dropWhile_append_of_pos hds]
  cases rest with
  | nil => simp
  | cons c rest =>
    have hc : isDigit c = false := hrest c rfl
    simp [hc]

theorem length_le_of_digits {ds es rest : List Char} (hds : ∀ d ∈ ds, isDigit d)
    (hes : ∀ d ∈ es, isDigit d) (hrest : NoDigit rest) (h : es <+: ds ++ rest) :
    es.length ≤ ds.length := by
  obtain ⟨later, hlater⟩ := h
  have htake := (span_digits hds hrest).1
  rw [← hlater, List.takeWhile_append_of_pos hes] at htake
  rw [← htake, List.length_append]
  omega

theorem noDigit_dropWhile (cs : List Char) : NoDigit (cs.dropWhile isDigit) := by
  intro c hc
  have hnot := List.head?_dropWhile_not isDigit cs
  rw [Option.mem_def.mp hc] at hnot
  simpa using hnot

theorem digits_takeWhile (cs : List Char) : ∀ d ∈ cs.takeWhile isDigit, isDigit d :=
  fun _ hd => List.mem_takeWhile_imp hd

theorem numeral_eq {digit : Char} {ds rest : List Char} (hds : ∀ d ∈ ds, isDigit d)
    (hrest : NoDigit rest) (hpoint : ∀ later, rest = '.' :: later → NoDigit later) :
    numeral digit (ds ++ rest) = (⟨digit :: ds, []⟩, rest) := by
  obtain ⟨htake, hdrop⟩ := span_digits hds hrest
  simp only [numeral, htake, hdrop]
  split
  case h_1 later =>
    have hlater : later.takeWhile isDigit = [] :=
      (span_digits (List.forall_mem_nil _) (hpoint later rfl)).1
    rw [hlater]
  case h_2 => rfl

theorem numeral_eq_fraction {digit : Char} {ds fs rest : List Char} (hds : ∀ d ∈ ds, isDigit d)
    (hfs : ∀ d ∈ fs, isDigit d) (hne : fs ≠ []) (hrest : NoDigit rest) :
    numeral digit (ds ++ '.' :: (fs ++ rest)) = (⟨digit :: ds, fs⟩, rest) := by
  obtain ⟨htake, hdrop⟩ := span_digits hds (noDigit_point (fs ++ rest))
  obtain ⟨hfraction, hlater⟩ := span_digits hfs hrest
  simp only [numeral, htake, hdrop, hfraction, hlater]

theorem numeral_cases (cs : List Char) : ∃ ds, (∀ d ∈ ds, isDigit d) ∧
    ((∃ rest, cs = ds ++ rest ∧ NoDigit rest ∧ ∀ later, rest = '.' :: later → NoDigit later) ∨
      ∃ fs rest, cs = ds ++ '.' :: (fs ++ rest) ∧ (∀ d ∈ fs, isDigit d) ∧ fs ≠ [] ∧
        NoDigit rest) := by
  refine ⟨cs.takeWhile isDigit, digits_takeWhile cs, ?_⟩
  have hcs : cs = cs.takeWhile isDigit ++ cs.dropWhile isDigit :=
    List.takeWhile_append_dropWhile.symm
  by_cases hfraction : ∃ later, cs.dropWhile isDigit = '.' :: later ∧ ¬ NoDigit later
  · obtain ⟨later, hpoint, hlater⟩ := hfraction
    refine Or.inr ⟨later.takeWhile isDigit, later.dropWhile isDigit, ?_, digits_takeWhile later,
      ?_, noDigit_dropWhile later⟩
    · rw [List.takeWhile_append_dropWhile, ← hpoint]
      exact hcs
    · intro hnil
      apply hlater
      have hsame := noDigit_dropWhile later
      rwa [← List.takeWhile_append_dropWhile (p := isDigit) (l := later), hnil, List.nil_append]
  · refine Or.inl ⟨_, hcs, noDigit_dropWhile cs, fun later hlater => ?_⟩
    by_contra hnot
    exact hfraction ⟨later, hlater, hnot⟩

theorem digits_before_point {ds es fs rest : List Char} (hds : ∀ d ∈ ds, isDigit d)
    (hes : ∀ d ∈ es, isDigit d) (hrest : NoDigit rest) (h : es ++ '.' :: fs <+: ds ++ rest) :
    es = ds ∧ '.' :: fs <+: rest := by
  obtain ⟨later, hlater⟩ := h
  rw [List.append_assoc, List.cons_append] at hlater
  have hleft := span_digits hes (noDigit_point (fs ++ later))
  have hright := span_digits hds hrest
  rw [hlater] at hleft
  exact ⟨hleft.1.symm.trans hright.1, later, hleft.2.symm.trans hright.2⟩

theorem numeral_longest {digit : Char} (cs : List Char) (h : isDigit digit = true) :
    (numeral digit cs).1.text ++ (numeral digit cs).2 = digit :: cs ∧
      Longest "NUM" (numeral digit cs).1.text (digit :: cs) := by
  obtain ⟨ds, hds, hcases⟩ := numeral_cases cs
  have hall : ∀ d ∈ digit :: ds, isDigit d := List.forall_mem_cons.mpr ⟨h, hds⟩
  rcases hcases with ⟨rest, rfl, hrest, hpoint⟩ | ⟨fs, rest, rfl, hfs, hne, hrest⟩
  · rw [numeral_eq hds hrest hpoint]
    have htext : (Numeral.mk (digit :: ds) []).text = digit :: ds := rfl
    rw [htext]
    refine ⟨rfl, ⟨rest, rfl⟩, .whole (by simp) hall, ?_⟩
    intro name' other hother hstarts
    cases hother with
    | symbol => simp
    | whole _ hes => exact length_le_of_digits hall hes hrest hstarts
    | @fraction es fs _ hes hne hfs =>
      obtain ⟨-, later, hlater⟩ := digits_before_point hall hes hrest hstarts
      obtain ⟨f, fs, rfl⟩ := List.exists_cons_of_ne_nil hne
      have hf := hpoint _ hlater.symm f rfl
      rw [hfs f List.mem_cons_self] at hf
      cases hf
  · rw [numeral_eq_fraction hds hfs hne hrest]
    have htext : (Numeral.mk (digit :: ds) fs).text = (digit :: ds) ++ '.' :: fs := by
      simp [Numeral.text, hne]
    have hpoint := noDigit_point (fs ++ rest)
    rw [htext]
    refine ⟨by simp, ⟨rest, by simp⟩, .fraction (by simp) hall hne hfs, ?_⟩
    intro name' other hother hstarts
    simp only [List.length_append, List.length_cons]
    cases hother with
    | symbol =>
      rw [List.length_singleton]
      omega
    | whole _ hes =>
      have hle := length_le_of_digits hall hes hpoint hstarts
      rw [List.length_cons] at hle
      omega
    | @fraction es gs _ hes _ hgs =>
      obtain ⟨rfl, hgs'⟩ := digits_before_point hall hes hpoint hstarts
      have hle := length_le_of_digits hfs hgs hrest (List.cons_prefix_cons.mp hgs').2
      simp only [List.length_append, List.length_cons]
      omega

def Lexeme.Matched (text : List Char) : Lexeme → Prop
  | word w => Longest w.name w.text text
  | unknown c => Unmatched [c] text

theorem ofChar?_eq_some {c : Char} {w : Word} (h : Word.ofChar? c = some w) :
    w.text = [c] ∧ Pattern w.name [c] := by
  have hsymbol : ∀ name, name = String.singleton c →
      c ∈ ['(', ')', '+', '-', '*', '/', '^'] → Pattern name [c] := by
    rintro _ rfl hc
    exact .symbol hc
  unfold Word.ofChar? at h
  split at h
  case h_8 => cases h
  all_goals
    cases h
    exact ⟨by decide, hsymbol _ (by decide) (by decide)⟩

theorem ofChar?_ne_none {c : Char} (h : c ∈ ['(', ')', '+', '-', '*', '/', '^']) :
    Word.ofChar? c ≠ none := by
  simp only [List.mem_cons, List.not_mem_nil, or_false] at h
  rcases h with rfl | rfl | rfl | rfl | rfl | rfl | rfl <;> simp [Word.ofChar?]

theorem Pattern.eq_singleton {name : String} {other rest : List Char} {c : Char}
    (h : Pattern name other) (hstarts : other <+: c :: rest) (hc : isDigit c = false) :
    other = [c] ∧ c ∈ ['(', ')', '+', '-', '*', '/', '^'] := by
  have hdigits : ∀ ds later, ds ≠ [] → (∀ d ∈ ds, isDigit d) → ¬ ds ++ later <+: c :: rest := by
    intro ds later hne hds hstarts
    obtain ⟨d, ds, rfl⟩ := List.exists_cons_of_ne_nil hne
    obtain ⟨rfl, -⟩ := List.cons_prefix_cons.mp hstarts
    rw [hds d List.mem_cons_self] at hc
    cases hc
  cases h with
  | symbol hsymbol =>
    obtain ⟨rfl, -⟩ := List.cons_prefix_cons.mp hstarts
    exact ⟨rfl, hsymbol⟩
  | whole hne hds =>
    rw [← List.append_nil other] at hstarts
    exact absurd hstarts (hdigits _ _ hne hds)
  | fraction hne hds => exact absurd hstarts (hdigits _ _ hne hds)

theorem matched_ofChar {c : Char} (rest : List Char) (hc : isDigit c = false) :
    (Lexeme.ofChar c).text = [c] ∧ (Lexeme.ofChar c).Matched (c :: rest) := by
  have hbegins : [c] <+: c :: rest := ⟨rest, rfl⟩
  rw [Lexeme.ofChar]
  cases hw : Word.ofChar? c with
  | some w =>
    obtain ⟨htext, hpattern⟩ := ofChar?_eq_some hw
    refine ⟨htext, ?_⟩
    change Longest w.name w.text (c :: rest)
    rw [htext]
    refine ⟨hbegins, hpattern, fun name' other hother hstarts => ?_⟩
    rw [(hother.eq_singleton hstarts hc).1]
  | none =>
    refine ⟨rfl, hbegins, rfl, fun name other hother hstarts => ?_⟩
    exact ofChar?_ne_none (hother.eq_singleton hstarts hc).2 hw

def itemText : Except LexError (Token Value) → List Char
  | .ok token => token.text.toList
  | .error e => e.context.toList

inductive Part
  | blank (c : Char)
  | item (i : Except LexError (Token Value))

namespace Part

def text : Part → List Char
  | blank c => [c]
  | item i => itemText i

def item? : Part → Option (Except LexError (Token Value))
  | blank _ => none
  | item i => some i

end Part

/-- An item between what stands before and after it in a text whose lines begin at `starts`. Its
beginning and its end are found among them, each on the line and at the column that what stands
before it ends on. -/
structure Located (starts : List Nat) (before : List Char) (i : Except LexError (Token Value))
    (after : List Char) : Prop where
  nonempty : itemText i ≠ []
  beginning : position? starts (byteCount before) = some (lineAfter before, columnAfter before)
  ending : position? starts (byteCount (before ++ itemText i)) =
    some (lineAfter (before ++ itemText i), columnAfter (before ++ itemText i))
  token : ∀ token, i = .ok token → Longest token.name (itemText i) (itemText i ++ after) ∧
    token.location = ⟨lineAfter before, columnAfter before, lineAfter (before ++ itemText i),
      columnAfter (before ++ itemText i)⟩
  error : ∀ e, i = .error e → Unmatched (itemText i) (itemText i ++ after) ∧
    e.line = lineAfter before

theorem itemText_read (starts : List Nat) (offset : Nat) (l : Lexeme) :
    itemText (l.read starts offset) = l.text := by
  cases l with
  | word w => exact String.toList_ofList
  | unknown c => exact String.toList_singleton c

theorem Pattern.ne_nil {name : String} {lexeme : List Char} (h : Pattern name lexeme) :
    lexeme ≠ [] := by
  cases h with
  | symbol => simp
  | whole hne => exact hne
  | fraction => simp

theorem located_read {text before after : List Char} {l : Lexeme}
    (htext : text = before ++ (l.text ++ after)) (h : l.Matched (l.text ++ after)) :
    Located (lineStarts text) before (l.read (lineStarts text) (byteCount before)) after := by
  have hbeginning := position?_eq before (l.text ++ after)
  have hending := position?_eq (before ++ l.text) after
  rw [List.append_assoc] at hending
  rw [← htext] at hbeginning hending
  have hfirst := position_of_position? hbeginning
  have hlast := position_of_position? hending
  rw [byteCount_append] at hlast
  constructor
  all_goals try rw [itemText_read]
  · cases l with
    | word w => exact h.pattern.ne_nil
    | unknown c => exact List.cons_ne_nil c []
  · exact hbeginning
  · exact hending
  · intro token htoken
    cases l with
    | word w =>
      simp only [Lexeme.read, Lexeme.text, hfirst] at htoken hlast
      rw [hlast] at htoken
      cases htoken
      exact ⟨h, rfl⟩
    | unknown c => cases htoken
  · intro e he
    cases l with
    | word w => cases he
    | unknown c =>
      simp only [Lexeme.read, hfirst] at he
      cases he
      exact ⟨h, rfl⟩

/-- A text after what stands before it, cut into parts: blanks, and the items that were read. -/
structure Cut (starts : List Nat) (before cs : List Char) (items : Source Value)
    (parts : List Part) : Prop where
  text : cs = parts.flatMap Part.text
  items : items = parts.filterMap Part.item?
  blank : ∀ c, .blank c ∈ parts → isBlank c
  located : ∀ earlier i later, parts = earlier ++ .item i :: later →
    Located starts (before ++ earlier.flatMap Part.text) i (later.flatMap Part.text)

section Cut

variable {starts : List Nat} {before cs : List Char} {items : Source Value} {parts : List Part}

theorem Cut.nil : Cut starts before [] [] [] := by
  refine ⟨rfl, rfl, by simp, fun earlier i later h => ?_⟩
  exact absurd h.symm (List.append_ne_nil_of_right_ne_nil _ (List.cons_ne_nil _ _))

theorem Cut.cons_blank {c : Char} (h : Cut starts (before ++ [c]) cs items parts)
    (hc : isBlank c) : Cut starts before (c :: cs) items (.blank c :: parts) := by
  refine ⟨?_, ?_, ?_, ?_⟩
  · rw [List.flatMap_cons, ← h.text]
    rfl
  · rw [List.filterMap_cons_none rfl]
    exact h.items
  · intro d hd
    rcases List.mem_cons.mp hd with hd | hd
    · cases hd
      exact hc
    · exact h.blank d hd
  · intro earlier i later hparts
    rcases List.cons_eq_append_iff.mp hparts with ⟨-, hitem⟩ | ⟨earlier, rfl, hlater⟩
    · cases hitem
    · have hlocated := h.located earlier i later hlater
      rwa [List.append_assoc] at hlocated

theorem Cut.cons_item {i : Except LexError (Token Value)}
    (h : Cut starts (before ++ itemText i) cs items parts) (hi : Located starts before i cs) :
    Cut starts before (itemText i ++ cs) (i :: items) (.item i :: parts) := by
  refine ⟨?_, ?_, ?_, ?_⟩
  · rw [List.flatMap_cons, ← h.text]
    rfl
  · rw [List.filterMap_cons, ← h.items]
    rfl
  · intro d hd
    rcases List.mem_cons.mp hd with hd | hd
    · cases hd
    · exact h.blank d hd
  · intro earlier j later hparts
    rcases List.cons_eq_append_iff.mp hparts with ⟨rfl, hitem⟩ | ⟨earlier, rfl, hlater⟩
    · cases hitem
      rw [← h.text, List.flatMap_nil, List.append_nil]
      exact hi
    · have hlocated := h.located earlier j later hlater
      rwa [List.append_assoc] at hlocated

end Cut

theorem exists_cut_cons {text before after : List Char} {l : Lexeme} {items : Source Value}
    (htext : text = before ++ (l.text ++ after)) (h : l.Matched (l.text ++ after))
    (hrest : ∃ parts, Cut (lineStarts text) (before ++ l.text) after items parts) :
    ∃ parts, Cut (lineStarts text) before (l.text ++ after)
      (l.read (lineStarts text) (byteCount before) :: items) parts := by
  obtain ⟨parts, hparts⟩ := hrest
  have hi := located_read htext h
  rw [← itemText_read (lineStarts text) (byteCount before) l] at hparts ⊢
  exact ⟨_, hparts.cons_item hi⟩

theorem exists_cut (text before cs : List Char) (h : text = before ++ cs) :
    ∃ parts, Cut (lineStarts text) before cs ((lexemes (byteCount before) cs).map fun
      (offset, l) => l.read (lineStarts text) offset) parts := by
  generalize hoffset : byteCount before = offset
  fun_induction lexemes offset cs generalizing before with
  | case1 offset => exact ⟨[], .nil⟩
  | case2 offset c rest hc ih =>
    obtain ⟨parts, hparts⟩ := ih (before ++ [c]) (by simpa using h) (by simp [hoffset])
    exact ⟨_, hparts.cons_blank hc⟩
  | case3 offset c rest _ hc read ih =>
    obtain ⟨hread, hlongest⟩ := numeral_longest rest hc
    rw [← hread] at h hlongest
    have hrest := ih (before ++ read.1.text) (by rw [h, List.append_assoc])
      (by rw [byteCount_append, hoffset])
    have hcut := exists_cut_cons (l := .word (.number read.1)) h hlongest hrest
    rw [hoffset] at hcut
    rw [← hread]
    exact hcut
  | case4 offset c rest _ hc ih =>
    obtain ⟨htext, hmatched⟩ := matched_ofChar rest (Bool.eq_false_iff.mpr hc)
    have hcons : c :: rest = (Lexeme.ofChar c).text ++ rest := by rw [htext]; rfl
    rw [hcons] at h hmatched ⊢
    have hrest := ih (before ++ (Lexeme.ofChar c).text) (by rw [h, List.append_assoc])
      (by simp [htext, hoffset])
    have hcut := exists_cut_cons h hmatched hrest
    rwa [hoffset] at hcut

/-- A text is cut into blanks and the items that are read, in order. Every item is nonempty, is
the longest match or a character that no match begins with, and lies where it is said to. The
search for a line runs on sorted beginnings and stays among them. -/
theorem tokens_located (text : String) :
    (lineStarts text.toList).Pairwise (· < ·) ∧
    ∃ parts : List Part,
      text.toList = parts.flatMap Part.text ∧
      tokens text = parts.filterMap Part.item? ∧
      (∀ c, .blank c ∈ parts → isBlank c) ∧
      ∀ earlier i later, parts = earlier ++ .item i :: later →
        Located (lineStarts text.toList) (earlier.flatMap Part.text) i
          (later.flatMap Part.text) := by
  obtain ⟨parts, hparts⟩ := exists_cut text.toList [] text.toList rfl
  exact ⟨pairwise_lineStarts _, parts, hparts.text, hparts.items, hparts.blank, hparts.located⟩

theorem lexemes_lines : lexemes 0 "2.\n+".toList = [(0, .word (.number ⟨['2'], []⟩)),
    (1, .unknown '.'), (3, .word (.operator .add))] := by
  simp [lexemes, isBlank, isDigit, numeral, Lexeme.ofChar, Word.ofChar?, byteCount, Numeral.text,
    Char.utf8Size]

theorem tokens_located_lines : ∃ before after, "2.\n+".toList = before ++ '+' :: after ∧
    Located (lineStarts "2.\n+".toList) before (.ok ⟨"+", "+", .token "+", ⟨2, 0, 2, 1⟩⟩)
      after := by
  obtain ⟨-, parts, htext, hitems, -, hlocated⟩ := tokens_located "2.\n+"
  have hread : (Lexeme.word (.operator .add)).read (lineStarts "2.\n+".toList) 3 =
      .ok ⟨"+", "+", .token "+", ⟨2, 0, 2, 1⟩⟩ := by
    rfl
  have hmem : .ok ⟨"+", "+", .token "+", ⟨2, 0, 2, 1⟩⟩ ∈ tokens "2.\n+" := by
    rw [tokens, lexemes_lines, ← hread]
    simp
  rw [hitems] at hmem
  obtain ⟨part, hpart, hitem⟩ := List.mem_filterMap.mp hmem
  cases part with
  | blank => cases hitem
  | item i =>
    obtain rfl := Option.some.inj hitem
    obtain ⟨earlier, later, hparts⟩ := List.append_of_mem hpart
    refine ⟨_, _, ?_, hlocated earlier _ later hparts⟩
    rw [htext, hparts, List.flatMap_append, List.flatMap_cons]
    rfl

end TableParsing.Calculator
