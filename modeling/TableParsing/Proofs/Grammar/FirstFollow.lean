import Mathlib
import TableParsing.Proofs.Grammar.WellFormed
import TableParsing.Proofs.Propagation

/-! The nullable, first and follow sets satisfy the equations that define them. Nullability is
settled when a round changes nothing, and each round that changes something adds a
nonterminal. A terminal is in a first set exactly if it begins what the nonterminal derives,
read off the productions one step at a time. -/

namespace TableParsing

namespace FirstFollow

section Nullability

variable {productions : Array Production} {nullable : Array Bool}

def Marks (a b : Array Bool) : Prop := a.size = b.size ∧ ∀ i, a.getD i false → b.getD i false

theorem Marks.refl (a : Array Bool) : Marks a a := ⟨rfl, fun _ h => h⟩

theorem Marks.trans {a b c : Array Bool} (h : Marks a b) (h' : Marks b c) : Marks a c :=
  ⟨h.1.trans h'.1, fun i hi => h'.2 i (h.2 i hi)⟩

theorem Marks.isNullable {a b : Array Bool} (h : Marks a b) {x : Symbol}
    (hx : isNullable a x = true) : isNullable b x = true := by
  cases x with
  | terminal t => exact hx
  | nonterminal n => exact h.2 n hx

theorem marks_setIfInBounds (a : Array Bool) (i : Nat) : Marks a (a.setIfInBounds i true) := by
  refine ⟨by simp, fun j hj => ?_⟩
  rw [Array.getD_eq_getD_getElem?] at hj ⊢
  rw [Array.getElem?_setIfInBounds]
  split
  case isTrue hij =>
    subst hij
    by_cases hi : i < a.size
    · simp [hi]
    · simp [hi] at hj
  case isFalse => exact hj

def markLeft (known : Array Bool) (p : Production) : Array Bool :=
  if p.right.all (isNullable known) then known.setIfInBounds p.left true else known

theorem marks_markLeft (known : Array Bool) (p : Production) : Marks known (markLeft known p) := by
  rw [markLeft]
  split
  · exact marks_setIfInBounds _ _
  · exact .refl _

theorem marks_foldl (ps : List Production) (known : Array Bool) :
    Marks known (ps.foldl markLeft known) := by
  induction ps generalizing known with
  | nil => exact .refl _
  | cons p ps ih => exact (marks_markLeft known p).trans (ih _)

theorem nullableRound_eq (productions : Array Production) (nullable : Array Bool) :
    nullableRound productions nullable = productions.toList.foldl markLeft nullable := by
  unfold nullableRound markLeft
  rw [Array.foldl_toList]

theorem marks_nullableRound (productions : Array Production) (nullable : Array Bool) :
    Marks nullable (nullableRound productions nullable) := by
  rw [nullableRound_eq]
  exact marks_foldl _ _

def Closed (productions : Array Production) (nullable : Array Bool) : Prop :=
  ∀ p ∈ productions, p.left < nullable.size → (∀ x ∈ p.right, isNullable nullable x = true) →
    nullable.getD p.left false = true

theorem closed_of_fixed (fixed : nullableRound productions nullable = nullable) :
    Closed productions nullable := by
  intro p hp hlt hright
  rw [nullableRound_eq] at fixed
  obtain ⟨before, after, hsplit⟩ := List.append_of_mem (Array.mem_toList_iff.mpr hp)
  rw [hsplit, List.foldl_append, List.foldl_cons] at fixed
  have first := marks_foldl before nullable
  generalize before.foldl markLeft nullable = known at first fixed
  have marked : (markLeft known p).getD p.left false = true := by
    have hall : p.right.all (isNullable known) = true := by
      rw [Array.all_eq_true_iff_forall_mem]
      exact fun x hx => first.isNullable (hright x hx)
    rw [markLeft]
    rw [if_pos hall, Array.getD_eq_getD_getElem?, Array.getElem?_setIfInBounds]
    simp [first.1 ▸ hlt]
  rw [← fixed]
  exact (marks_foldl after _).2 _ marked

def marked (a : Array Bool) : Finset Nat := (Finset.range a.size).filter fun i => a.getD i false

theorem card_marked_le (a : Array Bool) : (marked a).card ≤ a.size := by
  have h := Finset.card_filter_le (Finset.range a.size) fun i => a.getD i false = true
  rwa [Finset.card_range] at h

theorem Marks.card_lt {a b : Array Bool} (h : Marks a b) (hne : b ≠ a) :
    (marked a).card < (marked b).card := by
  apply Finset.card_lt_card
  refine ⟨?_, fun hsub => hne ?_⟩
  · intro i hi
    obtain ⟨hlt, hi⟩ := Finset.mem_filter.mp hi
    exact Finset.mem_filter.mpr ⟨h.1 ▸ hlt, h.2 i hi⟩
  · apply Array.ext h.1.symm
    intro i hb ha
    have toGetD : ∀ (l : Array Bool) (hl : i < l.size), l.getD i false = l[i] := by
      intro l hl
      simp [hl]
    rw [← toGetD b hb, ← toGetD a ha, Bool.eq_iff_iff]
    refine ⟨fun hi => ?_, h.2 i⟩
    have hmem : i ∈ marked b := Finset.mem_filter.mpr ⟨Finset.mem_range.mpr hb, hi⟩
    exact (Finset.mem_filter.mp (hsub hmem)).2

theorem nullableSettle_closed {n : Nat}
    (enough : nullable.size ≤ n + (marked nullable).card) :
    Closed productions (nullableSettle productions n nullable) := by
  induction n generalizing nullable with
  | zero =>
    -- everything is marked, so a round has nothing to add
    refine closed_of_fixed ?_
    by_contra hne
    have hlt := (marks_nullableRound productions nullable).card_lt hne
    have hle := card_marked_le (nullableRound productions nullable)
    rw [← (marks_nullableRound productions nullable).1] at hle
    omega
  | succ n ih =>
    unfold nullableSettle
    dsimp only
    split
    case isTrue fixed => exact closed_of_fixed fixed
    case isFalse hne =>
      have hlt := (marks_nullableRound productions nullable).card_lt hne
      apply ih
      rw [← (marks_nullableRound productions nullable).1]
      omega

theorem size_nullableSettle (n : Nat) :
    (nullableSettle productions n nullable).size = nullable.size := by
  induction n generalizing nullable with
  | zero => rfl
  | succ n ih =>
    unfold nullableSettle
    dsimp only
    split
    · rfl
    · rw [ih, ← (marks_nullableRound productions nullable).1]

section Least

variable {Q : Nat → Prop}

theorem markLeft_keeps {p : Production}
    (hQ : (∀ x ∈ p.right, ∃ m, x = .nonterminal m ∧ Q m) → Q p.left)
    (h : ∀ n, nullable.getD n false = true → Q n) :
    ∀ n, (markLeft nullable p).getD n false = true → Q n := by
  intro n hn
  rw [markLeft] at hn
  split at hn
  case isFalse => exact h n hn
  case isTrue hall =>
    rw [Array.getD_eq_getD_getElem?, Array.getElem?_setIfInBounds] at hn
    split at hn
    case isFalse =>
      rw [← Array.getD_eq_getD_getElem?] at hn
      exact h n hn
    case isTrue heq =>
      subst heq
      apply hQ
      intro x hx
      have hx := Array.all_eq_true_iff_forall_mem.mp hall x hx
      cases x with
      | terminal t => cases hx
      | nonterminal m => exact ⟨m, rfl, h m hx⟩

theorem nullableSettle_least
    (hQ : ∀ p ∈ productions, (∀ x ∈ p.right, ∃ m, x = .nonterminal m ∧ Q m) → Q p.left)
    (h : ∀ n, nullable.getD n false = true → Q n) (k : Nat) :
    ∀ n, (nullableSettle productions k nullable).getD n false = true → Q n := by
  have fold : ∀ (ps : List Production) (known : Array Bool), (∀ p ∈ ps, p ∈ productions) →
      (∀ n, known.getD n false = true → Q n) →
      ∀ n, (ps.foldl markLeft known).getD n false = true → Q n := by
    intro ps
    induction ps with
    | nil => exact fun known _ hknown => hknown
    | cons p ps ih =>
      intro known hps hknown
      rw [List.forall_mem_cons] at hps
      exact ih _ hps.2 (markLeft_keeps (hQ p hps.1) hknown)
  induction k generalizing nullable with
  | zero => exact h
  | succ k ih =>
    unfold nullableSettle
    dsimp only
    split
    · exact h
    · apply ih
      rw [nullableRound_eq]
      exact fold _ _ (fun p hp => Array.mem_toList_iff.mp hp) h

end Least

end Nullability

section Suffixes

variable (nullable : Array Bool) (first : Array TerminalSet)

theorem suffixPrefixes_eq (symbols : List Symbol) :
    suffixPrefixes nullable first symbols = symbols.tails.map (prefixes nullable first) := by
  induction symbols with
  | nil => rfl
  | cons x symbols ih =>
    rw [suffixPrefixes] at ih
    rw [suffixPrefixes, List.foldr_cons, ih]
    cases symbols with
    | nil => rfl
    | cons y symbols => simp [List.tails, prefixes]

theorem getD_suffixPrefixes (symbols : List Symbol) (i : Nat) :
    (suffixPrefixes nullable first symbols).toArray.getD i ⟨∅, true⟩ =
      prefixes nullable first (symbols.drop i) := by
  rw [suffixPrefixes_eq, Array.getD_eq_getD_getElem?, List.getElem?_toArray, List.getElem?_map]
  by_cases hi : i < symbols.tails.length
  · rw [List.getElem?_eq_getElem hi, List.getElem_tails]
    rfl
  · rw [List.getElem?_eq_none (by omega)]
    rw [List.length_tails] at hi
    rw [List.drop_eq_nil_of_le (by omega)]
    rfl

theorem mem_zip_tails {β : Type} {f : List Symbol → β} {symbols : List Symbol} {x : Symbol}
    {b : β} : (x, b) ∈ symbols.zip (symbols.tails.map f).tail ↔
      ∃ before after, symbols = before ++ x :: after ∧ b = f after := by
  induction symbols with
  | nil => simp
  | cons y symbols ih =>
    have htails : symbols.tails.map f = f symbols :: (symbols.tails.map f).tail := by
      cases symbols <;> rfl
    rw [List.tails, List.map_cons, List.tail_cons, htails, List.zip_cons_cons, List.mem_cons, ih]
    constructor
    · intro h
      rcases h with h | ⟨before, after, hsymbols, hb⟩
      · cases h
        exact ⟨[], symbols, rfl, rfl⟩
      · exact ⟨y :: before, after, by rw [hsymbols]; rfl, hb⟩
    · intro h
      obtain ⟨before, after, hsymbols, hb⟩ := h
      cases before with
      | nil =>
        left
        cases hsymbols
        rw [hb]
      | cons z before =>
        right
        exact ⟨before, after, (List.cons.inj hsymbols).2, hb⟩

theorem mem_leading {right : List Symbol} {x : Symbol} :
    x ∈ leading nullable right ↔
      ∃ α β, right = α ++ x :: β ∧ ∀ y ∈ α, isNullable nullable y = true := by
  induction right with
  | nil => simp [leading]
  | cons y right ih =>
    by_cases hy : isNullable nullable y = true
    · have hstep : leading nullable (y :: right) = y :: leading nullable right := by
        simp [leading, hy]
      rw [hstep, List.mem_cons, ih]
      constructor
      · intro h
        rcases h with h | ⟨α, β, hright, hα⟩
        · exact ⟨[], right, by rw [h]; rfl, by simp⟩
        · refine ⟨y :: α, β, by rw [hright]; rfl, ?_⟩
          simpa using ⟨hy, hα⟩
      · intro h
        obtain ⟨α, β, hright, hα⟩ := h
        cases α with
        | nil =>
          left
          simpa using (List.cons.inj hright).1.symm
        | cons z α =>
          right
          obtain ⟨-, hright⟩ := List.cons.inj hright
          exact ⟨α, β, hright, fun w hw => hα w (List.mem_cons_of_mem _ hw)⟩
    · have hstep : leading nullable (y :: right) = [y] := by simp [leading, hy]
      rw [hstep, List.mem_singleton]
      constructor
      · intro h
        exact ⟨[], right, by rw [h]; rfl, by simp⟩
      · intro h
        obtain ⟨α, β, hright, hα⟩ := h
        cases α with
        | nil => simpa using (List.cons.inj hright).1.symm
        | cons z α =>
          obtain ⟨hz, -⟩ := List.cons.inj hright
          exact absurd (hα y (by simp [hz])) hy

end Suffixes

end FirstFollow

namespace Grammar

variable {g : Grammar}

def Nullable (g : Grammar) (x : Symbol) : Prop :=
  FirstFollow.isNullable g.sets.nullable x = true

theorem not_nullable_terminal (t : Nat) : ¬ g.Nullable (.terminal t) := by
  simp [Nullable, FirstFollow.isNullable]

theorem nullable_nonterminal {n : Nat} : g.Nullable (.nonterminal n) ↔ g.isNullable n = true :=
  Iff.rfl

theorem sets_nullable : g.sets.nullable = FirstFollow.nullableSettle g.productions
    g.nonterminals.size (Array.replicate g.nonterminals.size false) := by
  rw [g.sets_eq]
  rfl

theorem sets_first : g.sets.first =
    FirstFollow.firstSets g.nonterminals.size g.productions g.sets.nullable := by
  rw [g.sets_eq]
  rfl

theorem production_mem {p : Nat} (hp : p < g.productions.size) :
    g.production p ∈ g.productions := by
  simp only [production, Array.getD_eq_getD_getElem?, Array.getElem?_eq_getElem hp,
    Option.getD_some]
  exact Array.getElem_mem hp

theorem exists_production {q : Production} (h : q ∈ g.productions) :
    ∃ p < g.productions.size, g.production p = q := by
  obtain ⟨p, hp, rfl⟩ := Array.mem_iff_getElem.mp h
  refine ⟨p, hp, ?_⟩
  simp only [production, Array.getD_eq_getD_getElem?, Array.getElem?_eq_getElem hp,
    Option.getD_some]

theorem WellFormed.nullable_left (wf : g.WellFormed) {p : Nat} (hp : p < g.productions.size)
    (h : ∀ x ∈ (g.production p).right, g.Nullable x) :
    g.Nullable (.nonterminal (g.production p).left) := by
  have closed : FirstFollow.Closed g.productions g.sets.nullable := by
    rw [sets_nullable]
    apply FirstFollow.nullableSettle_closed
    simp
  refine closed _ (production_mem hp) ?_ h
  rw [sets_nullable, FirstFollow.size_nullableSettle, Array.size_replicate]
  exact wf.left_lt hp

def Leads (g : Grammar) (n : Nat) (x : Symbol) : Prop :=
  ∃ p ∈ g.productionsOf n, ∃ α β, (g.production p).right.toList = α ++ x :: β ∧
    ∀ y ∈ α, g.Nullable y

/-- The terminal begins what the symbol derives. -/
inductive Begins (g : Grammar) : Symbol → Nat → Prop
  | terminal (t : Nat) : Begins g (.terminal t) t
  | nonterminal {n : Nat} {x : Symbol} {t : Nat} :
      g.Leads n x → Begins g x t → Begins g (.nonterminal n) t

theorem mem_leadingOf {n : Nat} {x : Symbol} :
    x ∈ FirstFollow.leadingOf g.productions g.sets.nullable n ↔ g.Leads n x := by
  simp only [FirstFollow.leadingOf, List.mem_flatMap, List.mem_filter, Array.mem_toList_iff,
    beq_iff_eq, FirstFollow.mem_leading]
  constructor
  · intro h
    obtain ⟨q, ⟨hq, hleft⟩, hx⟩ := h
    obtain ⟨p, hp, rfl⟩ := exists_production hq
    exact ⟨p, mem_productionsOf.mpr ⟨hp, hleft⟩, hx⟩
  · intro h
    obtain ⟨p, hp, hx⟩ := h
    obtain ⟨hlt, hleft⟩ := mem_productionsOf.mp hp
    exact ⟨g.production p, ⟨production_mem hlt, hleft⟩, hx⟩

theorem WellFormed.leads_lt (wf : g.WellFormed) {n m : Nat} (h : g.Leads n (.nonterminal m)) :
    m < g.nonterminals.size := by
  obtain ⟨p, -, α, β, hright, -⟩ := h
  have hmem : .nonterminal m ∈ (g.production p).right.toList := by simp [hright]
  exact (wf.nonterminal_proper (Array.mem_toList_iff.mp hmem)).2

theorem WellFormed.lt_of_leads (wf : g.WellFormed) {n : Nat} {x : Symbol} (h : g.Leads n x) :
    n < g.nonterminals.size := by
  obtain ⟨p, hp, -⟩ := h
  obtain ⟨hlt, rfl⟩ := mem_productionsOf.mp hp
  exact wf.left_lt hlt

theorem WellFormed.begins_iff_reaches (wf : g.WellFormed) {edges : Array (List Nat)}
    (hedges : ∀ i j, j ∈ edges.getD i [] ↔ i < g.nonterminals.size ∧ g.Leads i (.nonterminal j))
    {n t : Nat} :
    g.Begins (.nonterminal n) t ↔
      ∃ m, Propagation.Reaches edges g.nonterminals.size n m ∧ g.Leads m (.terminal t) := by
  constructor
  · intro h
    generalize hx : Symbol.nonterminal n = x at h
    induction h generalizing n with
    | terminal => cases hx
    | @nonterminal k x t hlead hbegins ih =>
      cases hx
      cases x with
      | terminal u =>
        cases hbegins
        exact ⟨_, .refl, hlead⟩
      | nonterminal l =>
        obtain ⟨m, hm, ht⟩ := ih rfl
        have hmem := (hedges _ l).mpr ⟨wf.lt_of_leads hlead, hlead⟩
        exact ⟨m, .head ⟨hmem, wf.leads_lt hlead⟩ hm, ht⟩
  · intro h
    obtain ⟨m, hm, ht⟩ := h
    induction hm using Relation.ReflTransGen.head_induction_on with
    | refl => exact .nonterminal ht (.terminal t)
    | head he _ ih => exact .nonterminal ((hedges _ _).mp he.1).2 ih

theorem mem_leadEdges {i j : Nat} : j ∈ (((Array.range g.nonterminals.size).map
      (FirstFollow.leadingOf g.productions g.sets.nullable)).map
        (·.filterMap Symbol.nonterminal?)).getD i [] ↔
    i < g.nonterminals.size ∧ g.Leads i (.nonterminal j) := by
  rw [Array.getD_eq_getD_getElem?]
  by_cases hi : i < g.nonterminals.size
  · simp only [Array.getElem?_map, Array.getElem?_range, hi, if_true, Option.map_some,
      Option.getD_some, List.mem_filterMap, mem_leadingOf, true_and]
    constructor
    · intro h
      obtain ⟨x, hx, hj⟩ := h
      cases x with
      | terminal u => cases hj
      | nonterminal k =>
        cases hj
        exact hx
    · intro h
      exact ⟨_, h, rfl⟩
  · simp [hi]

theorem holds_leadSets {m t : Nat} : Propagation.Holds ((((Array.range g.nonterminals.size).map
      (FirstFollow.leadingOf g.productions g.sets.nullable)).map fun symbols =>
        TerminalSet.ofList (symbols.filterMap Symbol.terminal?))) m t ↔
    m < g.nonterminals.size ∧ g.Leads m (.terminal t) := by
  by_cases hm : m < g.nonterminals.size
  · simp only [Propagation.Holds, Array.getElem?_map, Array.getElem?_range, hm, if_true,
      Option.map_some, Option.some.injEq, exists_eq_left', TerminalSet.mem_ofList,
      List.mem_filterMap, mem_leadingOf, true_and]
    constructor
    · intro h
      obtain ⟨x, hx, ht⟩ := h
      cases x with
      | terminal u =>
        cases ht
        exact hx
      | nonterminal k => cases ht
    · intro h
      exact ⟨_, h, rfl⟩
  · simp [Propagation.Holds, hm]

theorem WellFormed.mem_first (wf : g.WellFormed) {n t : Nat} :
    t ∈ g.first n ↔ g.Begins (.nonterminal n) t := by
  rw [wf.begins_iff_reaches fun _ _ => mem_leadEdges]
  simp only [first, sets_first, FirstFollow.firstSets, Propagation.mem_getD_iff_holds,
    Propagation.holds_close TerminalSet.mem_union, Array.size_map, Array.size_range]
  constructor
  · intro h
    obtain ⟨-, m, hm, ht⟩ := h
    exact ⟨m, hm, (holds_leadSets.mp ht).2⟩
  · intro h
    obtain ⟨m, hm, ht⟩ := h
    refine ⟨?_, m, hm, holds_leadSets.mpr ⟨wf.lt_of_leads ht, ht⟩⟩
    rcases Relation.ReflTransGen.cases_head hm with rfl | ⟨k, he, -⟩
    · exact wf.lt_of_leads ht
    · exact (mem_leadEdges.mp he.1).1

theorem prefixes_cons (x : Symbol) (symbols : List Symbol) :
    g.prefixes (x :: symbols) =
      FirstFollow.prepend g.sets.nullable g.sets.first x (g.prefixes symbols) := rfl

theorem nullable_prefixes {symbols : List Symbol} :
    (g.prefixes symbols).nullable = true ↔ ∀ x ∈ symbols, g.Nullable x := by
  induction symbols with
  | nil => simp [prefixes, FirstFollow.prefixes]
  | cons x symbols ih =>
    rw [prefixes_cons, List.forall_mem_cons, ← ih]
    cases x with
    | terminal t => simp [FirstFollow.prepend, not_nullable_terminal]
    | nonterminal n =>
      simp only [FirstFollow.prepend, nullable_nonterminal, isNullable]
      split <;> simp_all

theorem WellFormed.mem_prefixes_cons (wf : g.WellFormed) {x : Symbol} {symbols : List Symbol}
    {t : Nat} : t ∈ (g.prefixes (x :: symbols)).first ↔
      g.Begins x t ∨ g.Nullable x ∧ t ∈ (g.prefixes symbols).first := by
  rw [prefixes_cons]
  cases x with
  | terminal u =>
    simp only [FirstFollow.prepend, TerminalSet.mem_singleton, not_nullable_terminal, false_and,
      or_false]
    constructor
    · intro h
      exact h ▸ .terminal t
    · intro h
      cases h
      rfl
  | nonterminal n =>
    rw [← wf.mem_first, nullable_nonterminal]
    simp only [FirstFollow.prepend, isNullable, first]
    split
    case isTrue h => simp [h, TerminalSet.mem_union]
    case isFalse h => simp [h]

theorem WellFormed.mem_prefixes (wf : g.WellFormed) {symbols : List Symbol} {t : Nat} :
    t ∈ (g.prefixes symbols).first ↔
      ∃ α x β, symbols = α ++ x :: β ∧ (∀ y ∈ α, g.Nullable y) ∧ g.Begins x t := by
  induction symbols with
  | nil => simp [prefixes, FirstFollow.prefixes, TerminalSet.not_mem_empty]
  | cons y symbols ih =>
    rw [wf.mem_prefixes_cons, ih]
    constructor
    · intro h
      rcases h with h | ⟨hy, α, x, β, hsymbols, hα, hx⟩
      · exact ⟨[], y, symbols, rfl, by simp, h⟩
      · refine ⟨y :: α, x, β, by rw [hsymbols]; rfl, ?_, hx⟩
        simpa using ⟨hy, hα⟩
    · intro h
      obtain ⟨α, x, β, hsymbols, hα, hx⟩ := h
      cases α with
      | nil =>
        left
        obtain ⟨rfl, -⟩ := List.cons.inj hsymbols
        exact hx
      | cons z α =>
        right
        obtain ⟨rfl, htail⟩ := List.cons.inj hsymbols
        rw [List.forall_mem_cons] at hα
        exact ⟨hα.1, α, x, β, htail, hα.2, hx⟩

theorem WellFormed.mem_prefixes_append (wf : g.WellFormed) {α β : List Symbol} {t : Nat} :
    t ∈ (g.prefixes (α ++ β)).first ↔
      t ∈ (g.prefixes α).first ∨ (∀ y ∈ α, g.Nullable y) ∧ t ∈ (g.prefixes β).first := by
  induction α with
  | nil => simp [prefixes, FirstFollow.prefixes, TerminalSet.not_mem_empty]
  | cons x α ih =>
    rw [List.cons_append, wf.mem_prefixes_cons, wf.mem_prefixes_cons, ih, List.forall_mem_cons]
    tauto

theorem tail_eq (p i : Nat) :
    g.tail p i = g.prefixes ((g.production p).right.toList.drop i) := by
  have htails : g.sets.tails = g.productions.map fun p =>
      (FirstFollow.suffixPrefixes g.sets.nullable g.sets.first p.right.toList).toArray := by
    rw [g.sets_eq]
    rfl
  simp only [tail, htails, prefixes]
  by_cases hp : p < g.productions.size
  · rw [← FirstFollow.getD_suffixPrefixes, production]
    simp [hp]
  · have hright : (g.production p).right = #[] := right_eq_empty (by omega)
    rw [hright]
    simp [hp, FirstFollow.prefixes]

def Occurs (g : Grammar) (m n : Nat) (rest : List Symbol) : Prop :=
  ∃ p ∈ g.productionsOf m, ∃ α, (g.production p).right.toList = α ++ .nonterminal n :: rest

theorem mem_occurrences {right : Array Symbol} {n : Nat} {rest : Prefixes} :
    (n, rest) ∈ FirstFollow.occurrences right
      (FirstFollow.suffixPrefixes g.sets.nullable g.sets.first right.toList).toArray ↔
      ∃ α β, right.toList = α ++ .nonterminal n :: β ∧ rest = g.prefixes β := by
  simp only [FirstFollow.occurrences, FirstFollow.suffixPrefixes_eq, List.mem_filterMap,
    Prod.exists, FirstFollow.mem_zip_tails]
  constructor
  · intro h
    obtain ⟨x, r, ⟨α, β, hright, hr⟩, hpair⟩ := h
    cases x with
    | terminal t => cases hpair
    | nonterminal m =>
      cases hpair
      exact ⟨α, β, hright, hr⟩
  · intro h
    obtain ⟨α, β, hright, hβ⟩ := h
    exact ⟨.nonterminal n, rest, ⟨α, β, hright, hβ⟩, rfl⟩

def followUses (g : Grammar) : List (Nat × Nat × Prefixes) :=
  (g.productions.toList.zip g.sets.tails.toList).flatMap fun (p, tails) =>
    (FirstFollow.occurrences p.right tails).map fun (n, rest) => (p.left, n, rest)

theorem mem_followUses {m n : Nat} {rest : Prefixes} :
    (m, n, rest) ∈ g.followUses ↔ ∃ β, g.Occurs m n β ∧ rest = g.prefixes β := by
  have htails : g.sets.tails.toList = g.productions.toList.map fun p =>
      (FirstFollow.suffixPrefixes g.sets.nullable g.sets.first p.right.toList).toArray := by
    rw [g.sets_eq]
    simp [FirstFollow.ofProductions]
  simp only [followUses, htails, List.zip_map_right, List.mem_flatMap, List.mem_map, Prod.exists]
  constructor
  · intro h
    obtain ⟨q, tails, ⟨a, b, hab, hmap⟩, k, r, hocc, heq⟩ := h
    have hsame : a = b ∧ a ∈ g.productions.toList := by
      rw [List.zip_eq_zipWith, List.zipWith_self, List.mem_map] at hab
      obtain ⟨c, hc, hpair⟩ := hab
      cases hpair
      exact ⟨rfl, hc⟩
    obtain ⟨rfl, ha⟩ := hsame
    cases hmap
    cases heq
    obtain ⟨p, hp, rfl⟩ := exists_production (Array.mem_toList_iff.mp ha)
    obtain ⟨α, β, hright, hβ⟩ := mem_occurrences.mp hocc
    exact ⟨β, ⟨p, mem_productionsOf.mpr ⟨hp, rfl⟩, α, hright⟩, hβ⟩
  · intro h
    obtain ⟨β, ⟨p, hp, α, hright⟩, hβ⟩ := h
    obtain ⟨hlt, rfl⟩ := mem_productionsOf.mp hp
    refine ⟨g.production p, _, ⟨g.production p, g.production p, ?_, rfl⟩, n, rest,
      mem_occurrences.mpr ⟨α, β, hright, hβ⟩, rfl⟩
    rw [List.zip_eq_zipWith, List.zipWith_self, List.mem_map]
    exact ⟨_, Array.mem_toList_iff.mpr (production_mem hlt), rfl⟩

theorem mem_follow {n t : Nat} : t ∈ g.follow n ↔ n < g.nonterminals.size ∧
    ∃ m, Propagation.Reaches (Propagation.ofPairs g.nonterminals.size
      (g.followUses.filterMap fun (left, n, rest) =>
        if rest.nullable then some (n, left) else none)) g.nonterminals.size n m ∧
      m < g.nonterminals.size ∧ (m = g.start ∧ t = Symbol.endOfInput ∨
        ∃ k β, g.Occurs k m β ∧ t ∈ (g.prefixes β).first) := by
  have hfollow : g.sets.follow = FirstFollow.followSets g.nonterminals.size g.productions
      g.sets.tails g.start := by
    rw [g.sets_eq]
    rfl
  simp only [follow, hfollow, FirstFollow.followSets]
  rw [Propagation.mem_close_accumulate]
  refine and_congr_right fun _ => exists_congr fun m => and_congr_right fun _ =>
    and_congr_right fun _ => ?_
  constructor
  · intro h
    obtain ⟨a, ha, ht⟩ := h
    rcases List.mem_cons.mp ha with ha | ha
    · cases ha
      exact Or.inl ⟨rfl, TerminalSet.mem_singleton.mp ht⟩
    · obtain ⟨⟨k, m', rest⟩, huse, hpair⟩ := List.mem_map.mp ha
      cases hpair
      obtain ⟨β, hocc, rfl⟩ := mem_followUses.mp huse
      exact Or.inr ⟨k, β, hocc, ht⟩
  · intro h
    rcases h with ⟨rfl, rfl⟩ | ⟨k, β, hocc, ht⟩
    · exact ⟨_, List.mem_cons_self, TerminalSet.mem_singleton.mpr rfl⟩
    · refine ⟨(g.prefixes β).first, List.mem_cons_of_mem _ ?_, ht⟩
      exact List.mem_map.mpr ⟨(k, m, g.prefixes β), mem_followUses.mpr ⟨β, hocc, rfl⟩, rfl⟩

namespace WellFormed

variable (wf : g.WellFormed)

include wf

theorem occurs_lt {m n : Nat} {β : List Symbol} (h : g.Occurs m n β) :
    n < g.nonterminals.size := by
  obtain ⟨p, -, α, hright⟩ := h
  have hmem : .nonterminal n ∈ (g.production p).right.toList := by simp [hright]
  exact (wf.nonterminal_proper (Array.mem_toList_iff.mp hmem)).2

theorem mem_follow_of_first {m n t : Nat} {β : List Symbol} (h : g.Occurs m n β)
    (ht : t ∈ (g.prefixes β).first) : t ∈ g.follow n :=
  mem_follow.mpr ⟨wf.occurs_lt h, n, .refl, wf.occurs_lt h, Or.inr ⟨m, β, h, ht⟩⟩

theorem follow_subset {m n t : Nat} {β : List Symbol} (h : g.Occurs m n β)
    (hβ : (g.prefixes β).nullable = true) (ht : t ∈ g.follow m) : t ∈ g.follow n := by
  obtain ⟨hm, k, hk, hlt, hinit⟩ := mem_follow.mp ht
  refine mem_follow.mpr ⟨wf.occurs_lt h, k, .head ⟨?_, hm⟩ hk, hlt, hinit⟩
  refine Propagation.mem_ofPairs.mpr ⟨wf.occurs_lt h, List.mem_filterMap.mpr
    ⟨(m, n, g.prefixes β), mem_followUses.mpr ⟨β, h, rfl⟩, ?_⟩⟩
  simp [hβ]

end WellFormed

end Grammar

end TableParsing
