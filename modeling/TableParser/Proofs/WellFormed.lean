import TableParser.Proofs.Derivation
import TableParser.Proofs.Fold

/-!
# Well-formed grammars

Whatever the steps of a definition, the grammar that comes out of it is `Grammar.WellFormed`: it has rules, one for each
left-hand side, and each of them is `Rule.Proper` (`wellFormed_of_define`).
-/

namespace TableParser

/-! ## The symbols of a grammar -/

theorem Grammar.mem_rhsSymbols {g : Grammar} {s : Symbol} :
    s ∈ g.rhsSymbols ↔ ∃ lhs a, g.Produces lhs a ∧ s ∈ a.symbols := by
  simp only [rhsSymbols, List.mem_flatMap, Produces]
  constructor
  · rintro ⟨r, hr, a, ha, hs⟩
    exact ⟨r.lhs, a, ⟨r, hr, rfl, ha⟩, hs⟩
  · rintro ⟨_, a, ⟨r, hr, _, ha⟩, hs⟩
    exact ⟨r, hr, a, ha, hs⟩

theorem Grammar.mem_terminals {g : Grammar} {s : Symbol} :
    s ∈ g.terminals ↔ s.isTerminal = true ∧ ∃ lhs a, g.Produces lhs a ∧ s ∈ a.symbols := by
  rw [terminals, mem_insertSymbols, List.mem_filter, mem_rhsSymbols, and_comm]
  exact or_iff_right List.not_mem_nil

theorem Grammar.mem_nonterminals {g : Grammar} {s : Symbol} :
    s ∈ g.nonterminals ↔ s ∈ g.lhsSymbols ∨ s.isNonterminal = true ∧ ∃ lhs a, g.Produces lhs a ∧ s ∈ a.symbols := by
  rw [nonterminals, mem_insertSymbols, List.mem_append, List.mem_filter, mem_rhsSymbols, and_comm]
  exact or_iff_right List.not_mem_nil

/-- All nonterminals of the alternatives are among those taken. -/
def Rule.Within (r : Rule) (taken : List Symbol) : Prop :=
  ∀ a ∈ r.alternatives, ∀ s ∈ a.symbols, s.isNonterminal = true → s ∈ taken

theorem Rule.Within.mono {r : Rule} {taken taken' : List Symbol} (h : r.Within taken) (hsub : taken ⊆ taken') :
    r.Within taken' :=
  fun a ha s hs hnt => hsub (h a ha s hs hnt)

/-- A nonterminal that is not taken stands in no alternative. -/
theorem Rule.Within.not_mem {r : Rule} {taken : List Symbol} {s : Symbol} (h : r.Within taken)
    (hs : s.isNonterminal = true) (hnot : s ∉ taken) : ∀ a ∈ r.alternatives, s ∉ a.symbols :=
  fun a ha hmem => hnot (h a ha s hmem hs)

theorem Grammar.within_nonterminals {g : Grammar} {r : Rule} (hr : r ∈ g.rules) : r.Within g.nonterminals :=
  fun a ha _ hs hnt => mem_nonterminals.mpr (.inr ⟨hnt, r.lhs, a, ⟨r, hr, rfl, ha⟩, hs⟩)

theorem Grammar.Produces.mem_lhsSymbols {g : Grammar} {lhs : Symbol} {a : Alternative} (h : g.Produces lhs a) :
    lhs ∈ g.lhsSymbols := by
  obtain ⟨r, hr, rfl, _⟩ := h
  exact List.mem_map_of_mem hr

/-! ## Well-formedness -/

/-- What every rule satisfies: its left-hand side is a nonterminal, none of its alternatives is without symbols, the empty
derivation stands alone in its alternative, and no two alternatives have the same symbols. -/
structure Rule.Proper (r : Rule) : Prop where
  nonterminal_lhs : r.lhs.isNonterminal = true
  symbols_ne_nil : ∀ a ∈ r.alternatives, a.symbols ≠ []
  epsilonAlone : ∀ a ∈ r.alternatives, Symbol.epsilon ∈ a.symbols → a.symbols = [Symbol.epsilon]
  nodup_symbols : (r.alternatives.map Alternative.symbols).Nodup

theorem Rule.Proper.nodup {r : Rule} (hr : r.Proper) : r.alternatives.Nodup :=
  List.Pairwise.of_map Alternative.symbols (fun _ _ hne heq => hne (congrArg _ heq)) hr.nodup_symbols

/-- What every defined grammar satisfies. -/
structure Grammar.WellFormed (g : Grammar) : Prop where
  rules_ne_nil : g.rules ≠ []
  nodup_lhs : (g.rules.map Rule.lhs).Nodup
  proper : ∀ r ∈ g.rules, r.Proper

namespace Grammar.WellFormed

variable {g : Grammar} {lhs start s : Symbol} {a : Alternative}

theorem nonterminal_lhs (hg : g.WellFormed) : ∀ r ∈ g.rules, r.lhs.isNonterminal = true := fun r hr =>
  (hg.proper r hr).nonterminal_lhs

theorem symbols_ne_nil (hg : g.WellFormed) : ∀ lhs a, g.Produces lhs a → a.symbols ≠ [] := by
  rintro _ a ⟨r, hr, _, ha⟩
  exact (hg.proper r hr).symbols_ne_nil a ha

theorem epsilonAlone (hg : g.WellFormed) : EpsilonAlone g.Produces := by
  rintro _ a ⟨r, hr, _, ha⟩
  exact (hg.proper r hr).epsilonAlone a ha

/-- The left-hand sides of a well-formed grammar have alternatives of their own only. -/
theorem nonterminal (hg : g.WellFormed) (h : g.Produces lhs a) : lhs.isNonterminal = true := by
  obtain ⟨r, hr, rfl, _⟩ := h
  exact hg.nonterminal_lhs r hr

/-- A well-formed grammar has a start symbol. -/
theorem exists_start (hg : g.WellFormed) : ∃ r ∈ g.rules, g.start = .ok r.lhs := by
  cases h : g.rules with
  | nil => exact absurd h hg.rules_ne_nil
  | cons r rest => exact ⟨r, List.mem_cons_self, by rw [Grammar.start, h]⟩

theorem isNonterminal_of_mem (hg : g.WellFormed) (h : s ∈ g.nonterminals) : s.isNonterminal = true := by
  rcases Grammar.mem_nonterminals.mp h with hs | ⟨hs, _⟩
  · obtain ⟨r, hr, rfl⟩ := List.mem_map.mp hs
    exact hg.nonterminal_lhs r hr
  · exact hs

theorem start_mem_nonterminals (hg : g.WellFormed) (h : g.start = .ok start) : start ∈ g.nonterminals := by
  obtain ⟨r, hr, hstart⟩ := hg.exists_start
  rw [h] at hstart
  rw [Except.ok.inj hstart]
  exact Grammar.mem_nonterminals.mpr (.inl (List.mem_map_of_mem hr))

theorem start_nonterminal (hg : g.WellFormed) (h : g.start = .ok start) : start.isNonterminal = true :=
  hg.isNonterminal_of_mem (hg.start_mem_nonterminals h)

end Grammar.WellFormed

/-! ## Alternatives added -/

namespace Rule

variable {r : Rule} {a b : Alternative} {alternatives : List Alternative}

theorem perm_alternatives_add : (r.add a).alternatives.Perm (a :: r.alternatives) := by
  unfold add
  split
  · exact List.Perm.refl _
  · exact List.perm_append_singleton a r.alternatives

theorem perm_alternatives_addAll : (r.addAll alternatives).alternatives.Perm (alternatives ++ r.alternatives) := by
  induction alternatives generalizing r with
  | nil => exact List.Perm.refl _
  | cons a alternatives ih =>
    rw [addAll, List.foldl_cons, ← addAll]
    exact (ih.trans (perm_alternatives_add.append_left _)).trans List.perm_middle

theorem mem_alternatives_add : b ∈ (r.add a).alternatives ↔ b = a ∨ b ∈ r.alternatives :=
  perm_alternatives_add.mem_iff.trans List.mem_cons

@[simp] theorem lhs_add (r : Rule) (a : Alternative) : (r.add a).lhs = r.lhs := by
  unfold add
  split <;> rfl

@[simp] theorem lhs_addAll (r : Rule) (alternatives : List Alternative) : (r.addAll alternatives).lhs = r.lhs := by
  induction alternatives generalizing r with
  | nil => rfl
  | cons a alternatives ih =>
    rw [addAll, List.foldl_cons, ← addAll, ih, lhs_add]

/-- Only the left-hand side decides which alternatives are left-recursive. -/
theorem isLeftRecursive_congr {r r' : Rule} (h : r.lhs = r'.lhs) : r.isLeftRecursive = r'.isLeftRecursive := by
  funext a
  rw [isLeftRecursive, isLeftRecursive, h]

/-- Left-recursive alternatives end up in front, the last one first, and the others at the end. -/
theorem alternatives_addAll_eq (r : Rule) (alternatives : List Alternative) : (r.addAll alternatives).alternatives =
    (alternatives.filter r.isLeftRecursive).reverse ++ r.alternatives ++
      alternatives.filter fun a => !r.isLeftRecursive a := by
  induction alternatives generalizing r with
  | nil => simp [addAll]
  | cons a alternatives ih =>
    rw [addAll, List.foldl_cons, ← addAll, ih]
    rw [isLeftRecursive_congr (lhs_add r a)]
    cases ha : r.isLeftRecursive a <;> simp [add, ha]

theorem mem_alternatives_addAll : b ∈ (r.addAll alternatives).alternatives ↔ b ∈ alternatives ∨ b ∈ r.alternatives :=
  perm_alternatives_addAll.mem_iff.trans List.mem_append

/-- The order of the alternatives does not matter. -/
theorem Proper.of_perm {r' : Rule} (h : r.Proper) (hlhs : r'.lhs = r.lhs)
    (hperm : r'.alternatives.Perm r.alternatives) : r'.Proper where
  nonterminal_lhs := hlhs ▸ h.nonterminal_lhs
  symbols_ne_nil a ha := h.symbols_ne_nil a (hperm.mem_iff.mp ha)
  epsilonAlone a ha := h.epsilonAlone a (hperm.mem_iff.mp ha)
  nodup_symbols := (hperm.map _).nodup_iff.mpr h.nodup_symbols

theorem Proper.addAll {lhs : Symbol} (h : (⟨lhs, alternatives⟩ : Rule).Proper) :
    (Rule.addAll ⟨lhs, []⟩ alternatives).Proper := by
  refine h.of_perm (lhs_addAll _ _) (perm_alternatives_addAll.trans ?_)
  rw [List.append_nil]

/-- Alternatives with different symbols stay different when they are changed without loss. -/
theorem nodup_map_symbols {f : Alternative → Alternative} (h : (alternatives.map Alternative.symbols).Nodup)
    (hf : ∀ a ∈ alternatives, ∀ b ∈ alternatives, (f a).symbols = (f b).symbols → a.symbols = b.symbols) :
    ((alternatives.map f).map Alternative.symbols).Nodup := by
  rw [List.map_map]
  refine List.pairwise_map.mpr ((List.pairwise_map.mp h).imp_of_mem ?_)
  exact fun ha hb hne heq => hne (hf _ ha _ hb heq)

/-- An alternative that the rule does not have yet can be added. -/
theorem Proper.add (h : r.Proper) (hne : a.symbols ≠ [])
    (halone : Symbol.epsilon ∈ a.symbols → a.symbols = [Symbol.epsilon])
    (hnew : ∀ b ∈ r.alternatives, b.symbols ≠ a.symbols) : (r.add a).Proper where
  nonterminal_lhs := by
    rw [lhs_add]
    exact h.nonterminal_lhs
  symbols_ne_nil b hb := by
    rcases mem_alternatives_add.mp hb with rfl | hb
    · exact hne
    · exact h.symbols_ne_nil b hb
  epsilonAlone b hb := by
    rcases mem_alternatives_add.mp hb with rfl | hb
    · exact halone
    · exact h.epsilonAlone b hb
  nodup_symbols := by
    refine (perm_alternatives_add.map _).nodup_iff.mpr (List.nodup_cons.mpr ⟨?_, h.nodup_symbols⟩)
    intro hmem
    obtain ⟨b, hb, heq⟩ := List.mem_map.mp hmem
    exact hnew b hb heq

end Rule

/-! ## Drafts -/

/-- What every step of a definition keeps. -/
structure Draft.Proper (d : Draft) : Prop where
  nodup_lhs : (d.rules.map Rule.lhs).Nodup
  proper : ∀ r ∈ d.rules, r.Proper

namespace Draft

variable {d : Draft}

/-- The rule of a nonterminal as defined so far is proper, also if there is none. -/
theorem Proper.ruleOf (h : d.Proper) {lhs : Symbol} (hl : lhs.isNonterminal = true) :
    (d.ruleOf lhs).lhs = lhs ∧ (d.ruleOf lhs).Proper := by
  unfold Draft.ruleOf
  cases hf : d.rules.find? fun r => r.lhs == lhs with
  | none => exact ⟨rfl, hl, fun _ ha => absurd ha List.not_mem_nil, fun _ ha => absurd ha List.not_mem_nil, .nil⟩
  | some r =>
    exact ⟨beq_iff_eq.mp (List.find?_some (p := fun r : Rule => r.lhs == lhs) hf), h.proper r (List.mem_of_find?_eq_some hf)⟩

theorem mem_setRule {rule r : Rule} (h : r ∈ (d.setRule rule).rules) : r = rule ∨ r ∈ d.rules := by
  unfold setRule at h
  split at h
  · obtain ⟨u, hu, hr⟩ := List.mem_map.mp h
    split at hr
    · exact .inl hr.symm
    · exact .inr (hr ▸ hu)
  · rcases List.mem_append.mp h with h | h
    · exact .inr h
    · exact .inl (List.mem_singleton.mp h)

/-- Setting a rule adds its left-hand side at most, and only if it is new. -/
theorem nodup_setRule (h : (d.rules.map Rule.lhs).Nodup) (rule : Rule) :
    ((d.setRule rule).rules.map Rule.lhs).Nodup := by
  unfold setRule
  split
  · have hsame : (d.rules.map fun r => if r.lhs == rule.lhs then rule else r).map Rule.lhs = d.rules.map Rule.lhs := by
      rw [List.map_map]
      refine List.map_congr_left fun r _ => ?_
      show (if r.lhs == rule.lhs then rule else r).lhs = r.lhs
      split
      · rename_i hr
        exact (beq_iff_eq.mp hr).symm
      · rfl
    rw [hsame]
    exact h
  · rename_i hnew
    rw [List.map_append]
    refine List.nodup_append.mpr ⟨h, List.pairwise_singleton _ _, ?_⟩
    intro s hs u hu hsu
    obtain ⟨r, hr, rfl⟩ := List.mem_map.mp hs
    rw [List.map_singleton, List.mem_singleton] at hu
    exact hnew (List.any_eq_true.mpr ⟨r, hr, beq_iff_eq.mpr (hsu.trans hu)⟩)

theorem Proper.empty : Draft.empty.Proper := ⟨.nil, fun _ h => absurd h List.not_mem_nil⟩

theorem Proper.addRule (hd : d.Proper) {d' : Draft} {lhs : Symbol} {rhs : List Symbol} {action : Option String}
    (h : d.addRule lhs rhs action = .ok d') : d'.Proper := by
  unfold Draft.addRule at h
  split at h
  · cases h
  rename_i ht
  split at h
  · cases h
  rename_i hempty
  split at h
  · cases h
  rename_i hmixed
  split at h
  · cases h
  rename_i hnew
  cases h
  -- what the checks before the addition leave over for an alternative with the empty derivation
  have hrhs : Symbol.epsilon ∈ rhs → rhs = [Symbol.epsilon] := by
    intro hm
    match rhs, hm with
    | [s], hm => rw [List.mem_singleton.mp hm]
    | s :: u :: rest, hm => exact absurd (by simpa using hm) (by simpa using hmixed)
  have hl := Symbol.isTerminal_eq_false_iff.mp (Bool.eq_false_iff.mpr ht)
  refine ⟨nodup_setRule hd.nodup_lhs _, fun r hr => ?_⟩
  rcases mem_setRule hr with rfl | hr
  · refine (hd.ruleOf hl).2.add (fun hnil => hempty (List.isEmpty_iff.mpr hnil)) hrhs fun b hb heq => ?_
    exact hnew (List.any_eq_true.mpr ⟨b, hb, beq_iff_eq.mpr heq⟩)
  · exact hd.proper r hr

/-- Each step of a definition keeps the draft proper. -/
theorem Proper.step (hd : d.Proper) {d' : Draft} {step : DefinitionStep} (h : step.apply d = .ok d') : d'.Proper := by
  cases step with
  | rule lhs rhs action => exact hd.addRule h
  | start s =>
    simp only [DefinitionStep.apply, setStart] at h
    split at h
    · cases h
    · cases h
      exact ⟨hd.nodup_lhs, hd.proper⟩

/-- The rule of the start symbol moves to the front, the others stay. -/
theorem perm_of_ordered {rules : List Rule} (h : d.ordered = .ok rules) : rules.Perm d.rules := by
  unfold ordered at h
  cases hs : d.start with
  | none =>
    rw [hs] at h
    cases h
    exact List.Perm.refl _
  | some s =>
    rw [hs] at h
    cases hf : d.rules.find? fun r => r.lhs == s with
    | none =>
      simp only [hf] at h
      cases h
    | some rule =>
      simp only [hf] at h
      cases h
      obtain ⟨hrule, before, after, hrules, hbefore⟩ := List.find?_eq_some_iff_append.mp hf
      have herase : (d.rules.eraseP fun r => r.lhs == s) = before ++ after := by
        rw [hrules, List.eraseP_append_right _ fun r hr => by simpa using hbefore r hr,
          List.eraseP_cons_of_pos (p := fun r : Rule => r.lhs == s) hrule]
      rw [herase, hrules]
      exact List.perm_middle.symm

end Draft

/-! ## Defined grammars -/

/-- A defined grammar is the completion of a draft that the steps lead to. -/
theorem exists_draft_of_define {steps : List DefinitionStep} {g : Grammar} (h : (Grammar.define steps).result = .ok g) :
    ∃ d, steps.foldlM (fun d step => DefinitionStep.apply d step) Draft.empty = .ok d ∧ d.finish = .ok g := by
  unfold Grammar.define at h
  obtain ⟨d, hd, hg⟩ := Trail.result_bind_eq_ok_iff.mp h
  have hfold : (steps.foldlM DefinitionStep.run Draft.empty).result = .ok d := mapError_eq_ok_iff.mp hd
  rw [Trail.result_foldlM] at hfold
  refine ⟨d, ?_, hg⟩
  have hrun : (fun d step => (DefinitionStep.run d step).result) = fun d step => DefinitionStep.apply d step := by
    funext d step
    rfl
  rw [← hrun]
  exact hfold

theorem mem_rules_of_finish {d : Draft} {g : Grammar} (h : d.finish = .ok g) :
    g.rules ≠ [] ∧ g.rules.Perm d.rules := by
  unfold Draft.finish at h
  split at h
  · cases h
  rename_i hne
  split at h
  · cases h
  rename_i rules hr
  have hp := Draft.perm_of_ordered hr
  split at h
  · cases h
  · cases h
    refine ⟨?_, hp⟩
    rintro rfl
    exact hne (List.isEmpty_iff.mpr (List.nil_perm.mp hp))

/-- **Defined grammars are well-formed.** -/
theorem wellFormed_of_define {steps : List DefinitionStep} {g : Grammar} (h : (Grammar.define steps).result = .ok g) :
    g.WellFormed := by
  obtain ⟨d, hd, hg⟩ := exists_draft_of_define h
  have hproper : d.Proper := foldlM_invariant hd Draft.Proper.empty fun step _ _ _ hb hs => hb.step hs
  obtain ⟨hne, hp⟩ := mem_rules_of_finish hg
  exact ⟨hne, (hp.map Rule.lhs).nodup_iff.mpr hproper.nodup_lhs, fun r hr => hproper.proper r (hp.mem_iff.mp hr)⟩

end TableParser
