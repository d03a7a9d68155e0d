import TableParsing.Proofs.Automaton.ViablePrefix
import TableParsing.Proofs.Grammar.Derivation
import TableParsing.Source

/-! What the forms derived from a sequence of symbols begin with. A form that begins with some
terminals comes from trees for the symbols before the one that the last terminal stands in, and
from productions that open the way down to it; what stands after plays no part, whether or not
it derives any word. -/

namespace TableParsing

namespace Grammar

variable {g : Grammar}

theorem Rewrites.append (α β : List Symbol) {γ δ : List Symbol} (h : g.Rewrites γ δ) :
    g.Rewrites (α ++ γ ++ β) (α ++ δ ++ β) := by
  cases h with
  | rule γ₁ γ₂ hp =>
    have hrule := Rewrites.rule (α ++ γ₁) (γ₂ ++ β) hp
    simpa only [List.append_assoc, List.cons_append] using hrule

theorem Derives.append (α β : List Symbol) {γ δ : List Symbol} (h : g.Derives γ δ) :
    g.Derives (α ++ γ ++ β) (α ++ δ ++ β) := by
  induction h with
  | refl => exact .refl
  | tail _ hstep ih => exact ih.tail (hstep.append α β)

theorem Rewrites.split {α β δ : List Symbol} (h : g.Rewrites (α ++ β) δ) :
    (∃ α', g.Rewrites α α' ∧ δ = α' ++ β) ∨ ∃ β', g.Rewrites β β' ∧ δ = α ++ β' := by
  generalize hγ : α ++ β = γ at h
  cases h with
  | @rule φ ψ p hp =>
    rcases List.append_eq_append_iff.mp hγ with ⟨χ, rfl, rfl⟩ | ⟨χ, rfl, hψ⟩
    · refine Or.inr ⟨_, .rule χ ψ hp, ?_⟩
      simp only [List.append_assoc]
    · cases χ with
      | nil =>
        rw [List.nil_append] at hψ
        subst hψ
        refine Or.inr ⟨_, .rule [] ψ hp, ?_⟩
        simp only [List.append_nil, List.nil_append, List.append_assoc]
      | cons x χ =>
        rw [List.cons_append] at hψ
        obtain ⟨rfl, rfl⟩ := List.cons.inj hψ
        refine Or.inl ⟨_, .rule φ χ hp, ?_⟩
        simp only [List.append_assoc]

theorem Derives.split {α β δ : List Symbol} (h : g.Derives (α ++ β) δ) :
    ∃ α' β', g.Derives α α' ∧ g.Derives β β' ∧ δ = α' ++ β' := by
  induction h with
  | refl => exact ⟨α, β, .refl, .refl, rfl⟩
  | tail _ hstep ih =>
    obtain ⟨α', β', hα, hβ, rfl⟩ := ih
    rcases hstep.split with ⟨α'', hα', rfl⟩ | ⟨β'', hβ', rfl⟩
    · exact ⟨α'', β', hα.tail hα', hβ, rfl⟩
    · exact ⟨α', β'', hα, hβ.tail hβ', rfl⟩

theorem Derives.eq_of_terminal {t : Nat} {δ : List Symbol} (h : g.Derives [.terminal t] δ) :
    δ = [.terminal t] := by
  induction h with
  | refl => rfl
  | tail _ hstep ih =>
    subst ih
    generalize hγ : [Symbol.terminal t] = γ at hstep
    cases hstep with
    | @rule α β p hp =>
      have hmem : .nonterminal (g.production p).left ∈ [Symbol.terminal t] := by
        rw [hγ]
        exact List.mem_append_right α List.mem_cons_self
      simp at hmem

theorem Yields.derives {α : Type} {trees : List (Tree α)} {γ : List Symbol}
    {w : List (Nat × α)} {ps : List Nat} (h : g.Yields trees γ w ps) :
    g.Derives γ (w.map fun e => .terminal e.1) := by
  have hrightmost := h.rightmost [] []
  simp only [List.nil_append, List.map_nil, List.append_nil] at hrightmost
  exact hrightmost.derives

/-- Some form derived from the symbols begins with the terminals, of which there is at least
one. -/
inductive BeginsWith (g : Grammar) : List Symbol → List Nat → Prop
  | here (t : Nat) (γ : List Symbol) : BeginsWith g (.terminal t :: γ) [t]
  | expand {p : Nat} {v : List Nat} (γ : List Symbol) : p < g.productions.size →
      BeginsWith g (g.production p).right.toList v →
      BeginsWith g (.nonterminal (g.production p).left :: γ) v
  | skip {x : Symbol} {γ : List Symbol} {trees : List (Tree Unit)} {w : List (Nat × Unit)}
      {ps v : List Nat} : Yields g trees [x] w ps → BeginsWith g γ v →
      BeginsWith g (x :: γ) (w.map (·.1) ++ v)

namespace BeginsWith

variable {γ δ : List Symbol} {v : List Nat}

theorem ne_nil (h : g.BeginsWith γ v) : v ≠ [] := by
  induction h with
  | here t γ => simp
  | expand _ _ _ ih => exact ih
  | skip _ _ ih => simp [ih]

theorem append (h : g.BeginsWith γ v) (δ : List Symbol) : g.BeginsWith (γ ++ δ) v := by
  induction h with
  | here t γ => exact .here t _
  | expand γ hp hright _ => exact .expand _ hp hright
  | skip hyields _ ih => exact .skip hyields ih

theorem skips (h : g.BeginsWith δ v) {trees : List (Tree Unit)} {w : List (Nat × Unit)}
    {ps : List Nat} (hyields : g.Yields trees γ w ps) :
    g.BeginsWith (γ ++ δ) (w.map (·.1) ++ v) := by
  induction hyields with
  | nil => exact h
  | @leaf trees γ w ps t read _ ih =>
    exact BeginsWith.skip (w := [(t, read)]) (.leaf t read .nil) ih
  | node hp hchildren _ _ ih =>
    have hnode := Yields.node hp hchildren .nil
    rw [List.append_nil] at hnode
    rw [List.map_append, List.append_assoc]
    exact .skip hnode ih

theorem split (h : g.BeginsWith (γ ++ δ) v) : g.BeginsWith γ v ∨
    ∃ (trees : List (Tree Unit)) (w : List (Nat × Unit)) (ps v' : List Nat),
      g.Yields trees γ w ps ∧ g.BeginsWith δ v' ∧ v = w.map (·.1) ++ v' := by
  induction γ generalizing v with
  | nil => exact Or.inr ⟨[], [], [], v, .nil, h, rfl⟩
  | cons x γ ih =>
    cases h with
    | here t => exact Or.inl (.here t γ)
    | expand _ hp hright => exact Or.inl (.expand γ hp hright)
    | skip hx hrest =>
      rcases ih hrest with hγ | ⟨trees, w, ps, v', hyields, hδ, rfl⟩
      · exact Or.inl (.skip hx hγ)
      · refine Or.inr ⟨_, _, _, v', hx.append hyields, hδ, ?_⟩
        rw [List.map_append, List.append_assoc]

theorem terminals {t : Nat} (v : List Nat) (γ : List Symbol) :
    g.BeginsWith ((t :: v).map .terminal ++ γ) (t :: v) := by
  induction v generalizing t with
  | nil => exact .here t γ
  | cons u v ih => exact .skip (.leaf t () .nil) ih

theorem of_terminal {t u : Nat} (h : g.BeginsWith (.terminal t :: γ) (u :: v)) :
    u = t ∧ (v ≠ [] → g.BeginsWith γ v) := by
  generalize hw : u :: v = w at h
  cases h with
  | here =>
    cases hw
    exact ⟨rfl, fun hne => absurd rfl hne⟩
  | skip hyields hrest =>
    cases hyields with
    | leaf _ _ hnil =>
      cases hnil
      cases hw
      exact ⟨rfl, fun _ => hrest⟩

theorem rewrites (hstep : g.Rewrites γ δ) (h : g.BeginsWith δ v) : g.BeginsWith γ v := by
  cases hstep with
  | rule α β hp =>
    rw [List.append_assoc] at h
    rcases h.split with hα | ⟨trees, w, ps, v', hyields, hrest, rfl⟩
    · exact hα.append _
    · apply skips _ hyields
      rcases hrest.split with hright | ⟨children, w', qs, v'', hchildren, hβ, rfl⟩
      · exact .expand β hp hright
      · have hnode := Yields.node hp hchildren .nil
        rw [List.append_nil] at hnode
        exact .skip hnode hβ

theorem derives (h : g.BeginsWith γ v) : ∃ β, g.Derives γ (v.map .terminal ++ β) := by
  induction h with
  | here t γ => exact ⟨γ, .refl⟩
  | @expand p v γ hp _ ih =>
    obtain ⟨β, hβ⟩ := ih
    refine ⟨β ++ γ, .head (.rule [] γ hp) ?_⟩
    have hright := hβ.append [] γ
    rw [List.nil_append (_ ++ β), List.append_assoc _ β] at hright
    exact hright
  | @skip x γ trees w ps v hyields _ ih =>
    obtain ⟨β, hβ⟩ := ih
    refine ⟨β, ?_⟩
    have hfirst := hyields.derives.append [] γ
    have hrest := hβ.append (w.map fun e => .terminal e.1) []
    simp only [List.nil_append, List.append_nil, List.singleton_append] at hfirst hrest
    rw [List.map_append, List.map_map, List.append_assoc]
    exact hfirst.trans hrest

theorem mem_first (wf : g.WellFormed) {t : Nat} (h : g.BeginsWith γ (t :: v)) :
    t ∈ (g.prefixes γ).first := by
  generalize hu : t :: v = u at h
  induction h generalizing v with
  | here =>
    cases hu
    exact wf.mem_prefixes_cons.mpr (Or.inl (.terminal t))
  | expand γ hp _ ih =>
    obtain ⟨α, x, β, hright, hα, hx⟩ := wf.mem_prefixes.mp (ih hu)
    exact wf.mem_prefixes_cons.mpr
      (Or.inl (.nonterminal ⟨_, mem_productionsOf.mpr ⟨hp, rfl⟩, α, β, hright, hα⟩ hx))
  | @skip x γ trees w ps v' hyields _ ih =>
    cases w with
    | nil =>
      have hx := hyields.nullable_of_nil wf x List.mem_cons_self
      exact wf.mem_prefixes_cons.mpr (Or.inr ⟨hx, ih hu⟩)
    | cons e w =>
      cases hu
      have hx := wf.mem_prefixes_cons.mp (hyields.mem_first wf)
      rcases hx with hx | ⟨-, hnil⟩
      · exact wf.mem_prefixes_cons.mpr (Or.inl hx)
      · exact absurd hnil (TerminalSet.not_mem_empty _)

end BeginsWith

theorem Derives.beginsWith {γ β : List Symbol} {v : List Nat} (hv : v ≠ [])
    (h : g.Derives γ (v.map .terminal ++ β)) : g.BeginsWith γ v := by
  induction h using Relation.ReflTransGen.head_induction_on with
  | refl =>
    obtain ⟨t, v, rfl⟩ := List.exists_cons_of_ne_nil hv
    exact .terminals v β
  | head hstep _ ih => exact .rewrites hstep ih

end Grammar

namespace Grammar

variable {g : Grammar}

/-- Some form derived from the symbols begins with terminals of the given names. -/
def Opens (g : Grammar) (γ : List Symbol) (names : List String) : Prop :=
  ∃ (word : List Nat) (β : List Symbol), word.map g.terminalName = names ∧
    g.Derives γ (word.map .terminal ++ β)

/-- The start symbol derives a word of terminals with the given names. -/
def Generates (g : Grammar) (names : List String) : Prop :=
  ∃ word : List Nat, names = word.map g.terminalName ∧
    g.Derives [.nonterminal g.start] (word.map .terminal)

theorem Opens.mono {γ : List Symbol} {names names' : List String} (h : g.Opens γ names)
    (hle : names' <+: names) : g.Opens γ names' := by
  obtain ⟨word, β, rfl, hderives⟩ := h
  obtain ⟨rest, hrest⟩ := hle
  obtain ⟨u, v, rfl, rfl, -⟩ := List.map_eq_append_iff.mp hrest.symm
  rw [List.map_append, List.append_assoc] at hderives
  exact ⟨u, v.map .terminal ++ β, rfl, hderives⟩

namespace WellFormed

variable (wf : g.WellFormed)

include wf

theorem left_zero : (g.production 0).left = Symbol.accept := by
  rw [wf.accepting]
  rfl

theorem eq_zero_of_left {p : Nat} (hp : p < g.productions.size)
    (h : (g.production p).left = Symbol.accept) : p = 0 := by
  by_contra hzero
  exact (wf.left_proper p hzero hp).1 h

theorem derives_terminal_lt {γ δ : List Symbol} (h : g.Derives γ δ)
    (hγ : ∀ t, .terminal t ∈ γ → t < g.terminals.size) :
    ∀ t, .terminal t ∈ δ → t < g.terminals.size := by
  induction h with
  | refl => exact hγ
  | tail _ hstep ih =>
    cases hstep with
    | rule α β hp =>
      intro t ht
      simp only [List.mem_append] at ht
      rcases ht with (ht | ht) | ht
      · exact ih t (List.mem_append_left _ ht)
      · exact wf.terminal_lt (Array.mem_toList_iff.mp ht)
      · exact ih t (List.mem_append_right _ (List.mem_cons_of_mem _ ht))

theorem derives_proper {γ δ : List Symbol} (h : g.Derives γ δ) (hγ : ∀ x ∈ γ, g.Proper x) :
    ∀ x ∈ δ, g.Proper x := by
  induction h with
  | refl => exact hγ
  | tail _ hstep ih =>
    cases hstep with
    | @rule α β p hp =>
      have hleft := ih (.nonterminal (g.production p).left) (by simp)
      have hzero : p ≠ 0 := by
        rintro rfl
        exact hleft.1 wf.left_zero
      intro x hx
      simp only [List.mem_append] at hx
      rcases hx with (hx | hx) | hx
      · exact ih x (List.mem_append_left _ hx)
      · exact wf.right_proper p hzero x (Array.mem_toList_iff.mp hx)
      · exact ih x (List.mem_append_right _ (List.mem_cons_of_mem _ hx))

theorem beginsWith_accept {v : List Nat} (h : g.BeginsWith [.nonterminal Symbol.accept] v) :
    g.BeginsWith [.nonterminal g.start, .terminal Symbol.endOfInput] v := by
  generalize hγ : [Symbol.nonterminal Symbol.accept] = γ at h
  cases h with
  | here => cases hγ
  | expand _ hp hright =>
    obtain ⟨hleft, rfl⟩ := List.cons.inj hγ
    obtain rfl := wf.eq_zero_of_left hp (Symbol.nonterminal.inj hleft).symm
    rwa [wf.right_zero] at hright
  | skip _ hrest =>
    obtain ⟨-, rfl⟩ := List.cons.inj hγ
    cases hrest

theorem derives_accept {δ : List Symbol} (h : g.Derives [.nonterminal Symbol.accept] δ) :
    δ = [.nonterminal Symbol.accept] ∨
      g.Derives [.nonterminal g.start, .terminal Symbol.endOfInput] δ := by
  rcases Relation.ReflTransGen.cases_head h with rfl | ⟨γ, hstep, hrest⟩
  · exact Or.inl rfl
  · refine Or.inr ?_
    generalize hα : [Symbol.nonterminal Symbol.accept] = α at hstep
    cases hstep with
    | rule φ ψ hp =>
      obtain ⟨rfl, hleft, rfl⟩ : φ = [] ∧ _ ∧ ψ = [] := by
        cases φ with
        | nil => exact ⟨rfl, (List.cons.inj hα).1, (List.cons.inj hα).2.symm⟩
        | cons x φ => simp at hα
      obtain rfl := wf.eq_zero_of_left hp (Symbol.nonterminal.inj hleft).symm
      rwa [wf.right_zero] at hrest

theorem derives_start {word : List Nat} {β : List Symbol}
    (h : g.Derives [.nonterminal Symbol.accept] (word.map .terminal ++ β))
    (hend : Symbol.endOfInput ∉ word) :
    ∃ β', g.Derives [.nonterminal g.start] (word.map .terminal ++ β') := by
  rcases wf.derives_accept h with haccept | hstart
  · cases word with
    | nil => exact ⟨_, .refl⟩
    | cons t word => cases haccept
  · obtain ⟨α, δ, hα, hδ, heq⟩ := Derives.split (α := [.nonterminal g.start]) hstart
    rw [hδ.eq_of_terminal] at heq
    rcases List.append_eq_append_iff.mp heq with ⟨χ, rfl, -⟩ | ⟨χ, hword, hχ⟩
    · exact ⟨χ, hα⟩
    · cases χ with
      | nil =>
        rw [List.append_nil] at hword
        exact ⟨[], by rwa [hword, List.append_nil]⟩
      | cons x χ =>
        obtain ⟨rfl, -⟩ := List.cons.inj hχ
        have hmem : Symbol.terminal Symbol.endOfInput ∈ word.map .terminal := by simp [hword]
        obtain ⟨t, ht, heq⟩ := List.mem_map.mp hmem
        cases heq
        exact absurd ht hend

theorem end_notMem_of_form {word : List Nat} {x : Symbol} {β : List Symbol}
    (h : g.Derives [.nonterminal Symbol.accept] (word.map .terminal ++ x :: β)) :
    Symbol.endOfInput ∉ word := by
  rcases wf.derives_accept h with haccept | hstart
  · cases word with
    | nil => simp
    | cons t word => cases haccept
  · obtain ⟨α, δ, hα, hδ, heq⟩ := Derives.split (α := [.nonterminal g.start]) hstart
    rw [hδ.eq_of_terminal] at heq
    have hproper := wf.derives_proper hα (by simpa using wf.start_proper)
    have hinit : word.map .terminal ++ (x :: β).dropLast = α := by
      have hlast := congrArg List.dropLast heq
      rwa [List.dropLast_append_of_ne_nil (by simp), List.dropLast_concat] at hlast
    intro hmem
    refine (hproper (.terminal Symbol.endOfInput) ?_).1 rfl
    rw [← hinit]
    exact List.mem_append_left _ (List.mem_map_of_mem hmem)

theorem terminalName_end : g.terminalName Symbol.endOfInput = Symbol.endName := by
  have hend := wf.end_name
  rw [Option.map_eq_some_iff] at hend
  obtain ⟨terminal, hterminal, hname⟩ := hend
  rw [Grammar.terminalName, Array.getD_eq_getD_getElem?]
  change (g.terminals[0]?.getD default).name = _
  rw [hterminal]
  exact hname

theorem end_notMem {V : Type} {word : List Nat} {read : List (Token V)}
    (hword : word.map g.terminalName = read.map (·.name))
    (hnames : ∀ token ∈ read, token.name ≠ Symbol.endName) : Symbol.endOfInput ∉ word := by
  intro hmem
  have hname := List.mem_map_of_mem (f := g.terminalName) hmem
  rw [hword, wf.terminalName_end] at hname
  obtain ⟨token, htoken, heq⟩ := List.mem_map.mp hname
  exact hnames token htoken heq

theorem opens_of_generates {names : List String} (h : g.Generates names) :
    g.Opens [.nonterminal Symbol.accept] (names ++ [Symbol.endName]) := by
  obtain ⟨word, rfl, hderives⟩ := h
  refine ⟨word ++ [Symbol.endOfInput], [], ?_, ?_⟩
  · rw [List.map_append, List.map_singleton, wf.terminalName_end]
  · have hrule := Rewrites.rule [] [] wf.size_pos
    rw [wf.left_zero, wf.right_zero] at hrule
    have hword := hderives.append [] [.terminal Symbol.endOfInput]
    rw [List.map_append, List.append_nil]
    exact .head hrule hword

end WellFormed

end Grammar

def nextName {V : Type} (rest : List (Token V)) : String :=
  match rest with
  | [] => Symbol.endName
  | token :: _ => token.name

theorem prefix_nextName {V : Type} (read rest : List (Token V)) :
    read.map (·.name) ++ [nextName rest] <+: (read ++ rest).map (·.name) ++ [Symbol.endName] := by
  rw [List.map_append, List.append_assoc, List.prefix_append_right_inj]
  cases rest with
  | nil => exact List.prefix_rfl
  | cons token rest => exact ⟨rest.map (·.name) ++ [Symbol.endName], rfl⟩

theorem Grammar.Opens.eq_nil {V : Type} {g : Grammar} {γ : List Symbol}
    {read more rest : List (Token V)} (h : g.Opens γ ((read ++ more).map (·.name)))
    (hnot : ¬ g.Opens γ (read.map (·.name) ++ [nextName (more ++ rest)])) : more = [] := by
  cases more with
  | nil => rfl
  | cons token more =>
    refine absurd (h.mono ?_) hnot
    rw [List.map_append, List.prefix_append_right_inj]
    exact ⟨more.map (·.name), rfl⟩

/-- There is only one place where tokens leave the forms that can be derived. -/
theorem Grammar.Opens.rest_eq {V : Type} {g : Grammar} {γ : List Symbol}
    {read rest read' rest' : List (Token V)} (h : g.Opens γ (read.map (·.name)))
    (hnot : ¬ g.Opens γ (read.map (·.name) ++ [nextName rest]))
    (h' : g.Opens γ (read'.map (·.name)))
    (hnot' : ¬ g.Opens γ (read'.map (·.name) ++ [nextName rest']))
    (heq : read ++ rest = read' ++ rest') : rest = rest' := by
  rcases List.append_eq_append_iff.mp heq with ⟨more, rfl, rfl⟩ | ⟨more, rfl, rfl⟩
  · rw [h'.eq_nil hnot, List.nil_append]
  · rw [h.eq_nil hnot', List.nil_append]

theorem Viable.derives {g : Grammar} (wf : g.WellFormed) {γ : List Symbol} {i : Item}
    (h : Viable g γ i) : ∃ ζ, g.Derives [.nonterminal Symbol.accept]
      (γ.reverse ++ (i.right g).drop i.index ++ ζ) := by
  induction h with
  | start =>
    refine ⟨[], .single ?_⟩
    have hrule := Grammar.Rewrites.rule [] [] wf.size_pos
    rw [wf.left_zero] at hrule
    exact hrule
  | @advance γ i x _ hx _ ih =>
    obtain ⟨ζ, hζ⟩ := ih
    refine ⟨ζ, ?_⟩
    rw [Item.drop_eq hx] at hζ
    rw [List.reverse_cons, List.append_assoc γ.reverse]
    exact hζ
  | @expand γ i n p _ hn hp ih =>
    obtain ⟨ζ, hζ⟩ := ih
    obtain ⟨hlt, rfl⟩ := Grammar.mem_productionsOf.mp hp
    refine ⟨(i.right g).drop (i.index + 1) ++ ζ, hζ.tail ?_⟩
    rw [Item.drop_eq hn]
    have hrule := Grammar.Rewrites.rule γ.reverse ((i.right g).drop (i.index + 1) ++ ζ) hlt
    simpa [Item.right, Item.start] using hrule

end TableParsing
