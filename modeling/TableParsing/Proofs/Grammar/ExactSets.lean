import TableParsing.Proofs.Grammar.SententialForm
import TableParsing.Proofs.Reachability

/-! The nullable, first and follow sets of a defined grammar say exactly what its derivations do.
For follow sets this needs that a definition is refused if some nonterminal is not reached from
the start symbol: what stands after a nonterminal in a production then also stands after it in
some form derived from what is to be accepted, whether or not that form derives any word. -/

namespace TableParsing

namespace Definition

theorem mem_neighbours {g : Grammar} {n m : Nat} :
    m ∈ neighbours g.productions n ↔ ∃ β, g.Occurs n m β := by
  simp only [neighbours, List.mem_flatMap, List.mem_filter, Array.mem_toList_iff, beq_iff_eq,
    List.mem_filterMap]
  constructor
  · intro h
    obtain ⟨q, ⟨hq, hleft⟩, x, hx, hm⟩ := h
    cases x with
    | terminal t => cases hm
    | nonterminal k =>
      cases hm
      obtain ⟨p, hp, rfl⟩ := Grammar.exists_production hq
      obtain ⟨α, β, hright⟩ := List.append_of_mem (Array.mem_toList_iff.mpr hx)
      exact ⟨β, p, Grammar.mem_productionsOf.mpr ⟨hp, hleft⟩, α, hright⟩
  · intro h
    obtain ⟨β, p, hp, α, hright⟩ := h
    obtain ⟨hlt, hleft⟩ := Grammar.mem_productionsOf.mp hp
    have hmem : .nonterminal m ∈ (g.production p).right.toList := by simp [hright]
    exact ⟨g.production p, ⟨Grammar.production_mem hlt, hleft⟩, _, Array.mem_toList_iff.mp hmem,
      rfl⟩

theorem reaches_of_unreachable?_eq_none {g : Grammar} (wf : g.WellFormed)
    (h : unreachable? g.nonterminals.size g.productions g.start = none) {n : Nat}
    (hn : g.Proper (.nonterminal n)) :
    Reachability.Reaches (neighbours g.productions) g.start n := by
  have hroots : ∀ r ∈ [g.start], r < g.nonterminals.size := by
    intro r hr
    rw [List.mem_singleton.mp hr]
    exact wf.start_proper.2
  have hnext : ∀ k < g.nonterminals.size, ∀ m ∈ neighbours g.productions k,
      m < g.nonterminals.size := by
    intro k _ m hm
    obtain ⟨β, hocc⟩ := mem_neighbours.mp hm
    exact wf.occurs_lt hocc
  have hlisted : n ∈ Reachability.reach g.nonterminals.size (neighbours g.productions)
      [g.start] := by
    have hfound := List.find?_eq_none.mp h n (List.mem_range.mpr hn.2)
    simpa [hn.1] using hfound
  obtain ⟨r, hr, hreach⟩ := (Reachability.mem_reach hroots hnext).mp hlisted
  rwa [List.mem_singleton.mp hr] at hreach

end Definition

namespace Grammar

variable {g : Grammar}

theorem exists_yields_of_nullable {γ : List Symbol} (h : ∀ x ∈ γ, g.Nullable x) :
    ∃ (trees : List (Tree Unit)) (ps : List Nat), g.Yields trees γ [] ps :=
  exists_yields_nil fun x hx => (h x hx).exists_yields

theorem BeginsWith.skipNullable {α β : List Symbol} {v : List Nat} (hα : ∀ x ∈ α, g.Nullable x)
    (h : g.BeginsWith β v) : g.BeginsWith (α ++ β) v := by
  obtain ⟨trees, ps, hyields⟩ := exists_yields_of_nullable hα
  exact h.skips hyields

theorem Begins.beginsWith {x : Symbol} {t : Nat} (h : g.Begins x t) : g.BeginsWith [x] [t] := by
  induction h with
  | terminal t => exact .here t []
  | nonterminal hlead _ ih =>
    obtain ⟨p, hp, α, β, hright, hα⟩ := hlead
    obtain ⟨hlt, rfl⟩ := mem_productionsOf.mp hp
    refine .expand [] hlt ?_
    rw [hright]
    exact .skipNullable hα (ih.append β)

theorem append_eq_append_cons {l l' α β : List Symbol} {x : Symbol}
    (h : l ++ l' = α ++ x :: β) :
    (∃ γ, l = α ++ x :: γ ∧ β = γ ++ l') ∨ ∃ γ, α = l ++ γ ∧ l' = γ ++ x :: β := by
  rcases List.append_eq_append_iff.mp h with ⟨γ, hα, hl'⟩ | ⟨γ, hl, hβ⟩
  · exact Or.inr ⟨γ, hα, hl'⟩
  · cases γ with
    | nil => exact Or.inr ⟨[], by rw [hl]; simp, hβ.symm⟩
    | cons y γ =>
      obtain ⟨rfl, rfl⟩ := List.cons.inj hβ
      exact Or.inl ⟨γ, hl, rfl⟩

theorem derives_occurs {δ α β γ : List Symbol} {m n : Nat} (hocc : g.Occurs m n γ)
    (h : g.Derives δ (α ++ .nonterminal m :: β)) :
    ∃ α', g.Derives δ (α' ++ .nonterminal n :: (γ ++ β)) := by
  obtain ⟨p, hp, φ, hright⟩ := hocc
  obtain ⟨hlt, rfl⟩ := mem_productionsOf.mp hp
  have hrule : g.Rewrites (α ++ .nonterminal (g.production p).left :: β)
      (α ++ (g.production p).right.toList ++ β) := .rule α β hlt
  refine ⟨α ++ φ, h.tail ?_⟩
  rw [hright] at hrule
  simpa only [List.append_assoc, List.cons_append] using hrule

theorem derives_before {δ α β γ γ' : List Symbol} {x : Symbol} (hγ : g.Derives γ γ')
    (h : g.Derives δ (α ++ x :: (γ ++ β))) : g.Derives δ (α ++ x :: (γ' ++ β)) := by
  have hcontext := hγ.append (α ++ [x]) β
  simp only [List.append_assoc, List.cons_append, List.nil_append] at hcontext
  exact h.trans hcontext

namespace WellFormed

variable (wf : g.WellFormed)

include wf

theorem mem_prefixes_iff_derives {γ : List Symbol} {t : Nat} :
    t ∈ (g.prefixes γ).first ↔ ∃ β, g.Derives γ (.terminal t :: β) := by
  constructor
  · intro h
    obtain ⟨α, x, β, rfl, hα, hx⟩ := wf.mem_prefixes.mp h
    exact (BeginsWith.skipNullable hα (hx.beginsWith.append β)).derives
  · intro h
    obtain ⟨β, hβ⟩ := h
    have hbegins : g.BeginsWith γ [t] := Derives.beginsWith (by simp) hβ
    exact hbegins.mem_first wf

theorem nullable_prefixes_iff_derives {γ : List Symbol} :
    (g.prefixes γ).nullable = true ↔ g.Derives γ [] := by
  rw [nullable_prefixes]
  constructor
  · intro h
    obtain ⟨trees, ps, hyields⟩ := exists_yields_of_nullable h
    exact hyields.derives
  · intro h
    obtain ⟨trees, ps, hyields⟩ := Derives.exists_yields (α := Unit) (w := []) h
    exact hyields.nullable_of_nil wf

theorem isNullable_iff_derives {n : Nat} :
    g.isNullable n = true ↔ g.Derives [.nonterminal n] [] := by
  rw [← wf.nullable_prefixes_iff_derives, nullable_prefixes, ← nullable_nonterminal]
  simp

theorem mem_first_iff_derives {n t : Nat} :
    t ∈ g.first n ↔ ∃ β, g.Derives [.nonterminal n] (.terminal t :: β) := by
  rw [← wf.mem_prefixes_iff_derives, wf.mem_prefixes_cons, wf.mem_first]
  simp [prefixes, FirstFollow.prefixes, TerminalSet.not_mem_empty]

theorem mem_prefixes_of_rewrites {γ δ : List Symbol} {t : Nat} (hstep : g.Rewrites γ δ)
    (ht : t ∈ (g.prefixes δ).first) : t ∈ (g.prefixes γ).first := by
  obtain ⟨β, hβ⟩ := wf.mem_prefixes_iff_derives.mp ht
  exact wf.mem_prefixes_iff_derives.mpr ⟨β, .head hstep hβ⟩

theorem mem_follow_of_form {δ : List Symbol} (h : g.Derives [.nonterminal Symbol.accept] δ)
    {α β : List Symbol} {n t : Nat} (hδ : δ = α ++ .nonterminal n :: β)
    (ht : t ∈ (g.prefixes β).first) : t ∈ g.follow n := by
  induction h generalizing α β n with
  | refl =>
    have hβ : β = [] := by
      cases α with
      | nil => exact (List.cons.inj hδ).2.symm
      | cons x α => simp at hδ
    rw [hβ] at ht
    exact absurd ht (TerminalSet.not_mem_empty t)
  | tail _ hstep ih =>
    cases hstep with
    | @rule φ ψ p hp =>
      -- the nonterminal stands before the right side put in, inside it or behind it
      rw [List.append_assoc] at hδ
      rcases append_eq_append_cons hδ with ⟨χ, rfl, rfl⟩ | ⟨χ, rfl, hχ⟩
      · refine ih (α := α) (by simp only [List.append_assoc, List.cons_append]; rfl) ?_
        rw [← List.append_assoc] at ht
        exact wf.mem_prefixes_of_rewrites (.rule χ ψ hp) ht
      · rcases append_eq_append_cons hχ with ⟨ω, hright, rfl⟩ | ⟨ω, rfl, rfl⟩
        · have hocc : g.Occurs (g.production p).left n ω :=
            ⟨p, mem_productionsOf.mpr ⟨hp, rfl⟩, χ, hright⟩
          rcases wf.mem_prefixes_append.mp ht with ht | ⟨hnull, ht⟩
          · exact wf.mem_follow_of_first hocc ht
          · exact wf.follow_subset hocc (nullable_prefixes.mpr hnull) (ih rfl ht)
        · exact ih (α := φ ++ .nonterminal (g.production p).left :: ω)
            (by simp only [List.append_assoc, List.cons_append]) ht

theorem derives_start_end : g.Derives [.nonterminal Symbol.accept]
    [.nonterminal g.start, .terminal Symbol.endOfInput] := by
  have hrule := Rewrites.rule [] [] wf.size_pos
  rw [wf.left_zero, wf.right_zero] at hrule
  exact .single hrule

theorem exists_form_of_reaches {n : Nat}
    (h : Reachability.Reaches (Definition.neighbours g.productions) g.start n) :
    ∃ α β, g.Derives [.nonterminal Symbol.accept] (α ++ .nonterminal n :: β) := by
  induction h with
  | refl => exact ⟨[], _, wf.derives_start_end⟩
  | tail _ hstep ih =>
    obtain ⟨α, β, hform⟩ := ih
    obtain ⟨γ, hocc⟩ := Definition.mem_neighbours.mp hstep
    obtain ⟨α', hform⟩ := derives_occurs hocc hform
    exact ⟨α', _, hform⟩

theorem exists_form_of_mem_follow
    (hforms : ∀ n, n < g.nonterminals.size →
      ∃ α β, g.Derives [.nonterminal Symbol.accept] (α ++ .nonterminal n :: β))
    {n t : Nat} (h : t ∈ g.follow n) :
    ∃ α β, g.Derives [.nonterminal Symbol.accept]
      (α ++ .nonterminal n :: .terminal t :: β) := by
  obtain ⟨-, m, hreach, -, hinit⟩ := mem_follow.mp h
  clear h
  induction hreach using Relation.ReflTransGen.head_induction_on with
  | refl =>
    rcases hinit with ⟨rfl, rfl⟩ | ⟨k, γ, hocc, ht⟩
    · exact ⟨[], [], wf.derives_start_end⟩
    · have hk : k < g.nonterminals.size := by
        obtain ⟨p, hp, -⟩ := hocc
        obtain ⟨hlt, rfl⟩ := mem_productionsOf.mp hp
        exact wf.left_lt hlt
      obtain ⟨α, β, hform⟩ := hforms k hk
      obtain ⟨α', hform⟩ := derives_occurs hocc hform
      obtain ⟨γ', hγ'⟩ := wf.mem_prefixes_iff_derives.mp ht
      exact ⟨α', γ' ++ β, derives_before hγ' hform⟩
  | head hedge _ ih =>
    -- the follow set of a left side passes to what only nullable symbols stand behind
    obtain ⟨α, β, hform⟩ := ih
    obtain ⟨⟨left, n, rest⟩, huse, hpair⟩ :=
      List.mem_filterMap.mp (Propagation.mem_ofPairs.mp hedge.1).2
    obtain ⟨γ, hocc, rfl⟩ := mem_followUses.mp huse
    dsimp only at hpair
    split at hpair
    case isFalse => cases hpair
    case isTrue hnull =>
      cases hpair
      obtain ⟨α', hform⟩ := derives_occurs hocc hform
      exact ⟨α', β, derives_before (wf.nullable_prefixes_iff_derives.mp hnull) hform⟩

end WellFormed

theorem Defined.exists_form (hg : g.Defined) {n : Nat} (hn : n < g.nonterminals.size) :
    ∃ α β, g.Derives [.nonterminal Symbol.accept] (α ++ .nonterminal n :: β) := by
  have wf := hg.wellFormed
  by_cases haccept : n = Symbol.accept
  · exact ⟨[], [], haccept ▸ .refl⟩
  · obtain ⟨lenient, steps, h⟩ := hg
    obtain ⟨d, -, hc⟩ :=
      Definition.exists_complete_of_define (I := fun _ => True) (fun _ _ _ => trivial) trivial h
    obtain ⟨ts, start, rules, completed⟩ := Definition.complete_ok hc
    exact wf.exists_form_of_reaches
      (Definition.reaches_of_unreachable?_eq_none wf completed.reached ⟨haccept, hn⟩)

/-- A nonterminal is nullable if it derives the empty form, its first set holds the terminals
that begin forms derived from it, and its follow set those that stand right after it in forms
derived from what is to be accepted; nothing else is in these sets. The same holds of what is
found for any sequence of symbols. -/
theorem sets_exact (hg : g.Defined) :
    (∀ n, g.isNullable n = true ↔ g.Derives [.nonterminal n] []) ∧
    (∀ n t, t ∈ g.first n ↔ ∃ β, g.Derives [.nonterminal n] (.terminal t :: β)) ∧
    (∀ n t, t ∈ g.follow n ↔ ∃ α β, g.Derives [.nonterminal Symbol.accept]
      (α ++ .nonterminal n :: .terminal t :: β)) ∧
    ∀ γ, (∀ t, t ∈ (g.prefixes γ).first ↔ ∃ β, g.Derives γ (.terminal t :: β)) ∧
      ((g.prefixes γ).nullable = true ↔ g.Derives γ []) := by
  have wf := hg.wellFormed
  refine ⟨fun n => wf.isNullable_iff_derives, fun n t => wf.mem_first_iff_derives,
    fun n t => ⟨fun h => ?_, fun h => ?_⟩,
    fun γ => ⟨fun t => wf.mem_prefixes_iff_derives, wf.nullable_prefixes_iff_derives⟩⟩
  · exact wf.exists_form_of_mem_follow (fun n hn => hg.exists_form hn) h
  · obtain ⟨α, β, hform⟩ := h
    refine wf.mem_follow_of_form hform rfl ?_
    exact wf.mem_prefixes_iff_derives.mpr ⟨β, .refl⟩

theorem sets_exact_lenient :
    Grammar.lenient.Derives [.nonterminal 3] [] ∧
    (∀ t β, ¬ Grammar.lenient.Derives [.nonterminal 2] (.terminal t :: β)) ∧
    (∀ t α β, ¬ Grammar.lenient.Derives [.nonterminal Symbol.accept]
      (α ++ .nonterminal 3 :: .terminal t :: β)) ∧
    (∃ α β, Grammar.lenient.Derives [.nonterminal Symbol.accept]
      (α ++ .nonterminal 2 :: .terminal Symbol.endOfInput :: β)) ∧
    (∃ β, Grammar.lenient.Derives [.nonterminal 3, .terminal 2] (.terminal 2 :: β)) ∧
    ¬ Grammar.lenient.Derives [.nonterminal 3, .nonterminal 2] [] := by
  obtain ⟨hnullable, hfirst, hfollow, hprefixes⟩ := sets_exact lenient_defined
  have hC : Grammar.lenient.first 2 = ∅ := by decide +kernel
  have hA : Grammar.lenient.follow 3 = ∅ := by decide +kernel
  refine ⟨(hnullable 3).mp (by decide +kernel), ?_, ?_, (hfollow 2 _).mp ?_,
    ((hprefixes _).1 2).mp ?_, fun h => ?_⟩
  · intro t β h
    have hmem := (hfirst 2 t).mpr ⟨β, h⟩
    rw [hC] at hmem
    exact TerminalSet.not_mem_empty t hmem
  · intro t α β h
    have hmem := (hfollow 3 t).mpr ⟨α, β, h⟩
    rw [hA] at hmem
    exact TerminalSet.not_mem_empty t hmem
  · rw [TerminalSet.mem_def]
    decide +kernel
  · rw [TerminalSet.mem_def]
    decide +kernel
  · have hnull : (Grammar.lenient.prefixes [.nonterminal 3, .nonterminal 2]).nullable = false := by
      decide +kernel
    rw [(hprefixes _).2.mpr h] at hnull
    cases hnull

end Grammar

end TableParsing
