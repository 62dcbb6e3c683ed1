import TableParser.Proofs.PredictSets
import TableParser.Proofs.PredictiveConflicts

/-!
# LL(1) grammars stay free of conflicts

Both transformations keep predict sets disjoint (`Unrolled.predictable`, `Factored.predictable`), so the table built for
an LL(1) grammar has no conflicts (`LL.Parser.conflicts_eq_nil_of_isLL1`). They do rewrite such grammars, for strings
that derive nothing but the empty string (`Mute`) can be repeated where others cannot:

* **Left recursion** (`Predictable.mute_lhs`, `Predictable.not_behind`): the nonterminal, its alternatives and what
  follows the recursion are mute, and no terminal comes behind the nonterminal.
* **Common beginnings** (`Factored.mute_stem`): the stem is mute, so what is behind it predicts the helper's
  alternatives as it predicted those of the run.
-/

namespace TableParser

open FollowSets (Behind)

variable {P Q : Productions} {F : Symbol → Prop} {α β γ : List Symbol} {start lhs helper s t : Symbol} {r : Rule}
  {a b c : Alternative}

/-! ## Left recursion -/

/-- A left-recursive alternative is none of the others. -/
theorem Rule.Proper.ne_of_base (hr : r.Proper) (ha : a ∈ r.recursiveAlternatives) (hc : c ∈ r.baseAlternatives) :
    a ≠ c := by
  have hnodup : (r.recursiveAlternatives ++ r.baseAlternatives).Nodup := by
    unfold recursiveAlternatives baseAlternatives
    rw [List.takeWhile_append_dropWhile]
    exact hr.nodup
  exact (List.nodup_append.mp hnodup).2.2 a ha c hc

namespace Predictable

variable (hP : Predictable P start) (hr : r.Proper) (hold : ∀ a, P r.lhs a ↔ a ∈ r.alternatives)
  (ha : a ∈ r.recursiveAlternatives) (hc : c ∈ r.baseAlternatives)
include hP hr hold ha hc

/-- No terminal predicts a left-recursive alternative and another one. -/
theorem not_both (hat : BeginsBefore P (Behind P start r.lhs) a.symbols t) :
    ¬BeginsBefore P (Behind P start r.lhs) c.symbols t := fun hct =>
  hr.ne_of_base ha hc (hP.unique r.lhs a c t ((hold a).mpr (Rule.mem_alternatives_iff.mpr (.inl ha)))
    ((hold c).mpr (Rule.mem_alternatives_iff.mpr (.inr hc))) hat hct)

/-- The recursion begins with all that another alternative begins with, which is nothing therefore. -/
theorem mute_base : Mute P c.symbols := by
  have hpc := (hold c).mpr (Rule.mem_alternatives_iff.mpr (.inr hc))
  obtain ⟨w, hw⟩ := hP.productive r.lhs c hpc
  refine .of_generates hw fun t ht => ?_
  have hlhs : Begins P [r.lhs] t := .expand hr.nonterminal_lhs hpc ht
  have hat : Begins P a.symbols t := by
    rw [Rule.symbols_eq_of_recursive ha]
    exact hlhs.append_right _
  exact hP.not_both hr hold ha hc (.inl hat) (.inl ht)

theorem vanishes_lhs : Generates P [r.lhs] [] :=
  .of_alternative hr.nonterminal_lhs ((hold c).mpr (Rule.mem_alternatives_iff.mpr (.inr hc)))
    (hP.mute_base hr hold ha hc).vanishes

/-- What follows the recursion comes behind the left-hand side, so it begins with nothing either. -/
theorem mute_tail : Mute P a.symbols.tail := by
  have hpa := (hold a).mpr (Rule.mem_alternatives_iff.mpr (.inl ha))
  have hsymbols := Rule.symbols_eq_of_recursive ha
  obtain ⟨w, hw⟩ := hP.productive r.lhs a hpa
  rw [hsymbols] at hw
  obtain ⟨_, v, _, _, hv⟩ := Generates.of_append (α := [r.lhs]) hw
  refine .of_generates hv fun t ht => ?_
  have hat : Begins P a.symbols t := by
    rw [hsymbols]
    exact .vanish (hP.vanishes_lhs hr hold ha hc) ht
  have hbehind : Behind P start r.lhs t := .begins (α := []) hpa hsymbols hr.nonterminal_lhs ht
  exact hP.not_both hr hold ha hc (.inl hat) (.inr ⟨(hP.mute_base hr hold ha hc).vanishes, hbehind⟩)

/-- All alternatives vanish, so nothing comes behind the left-hand side. -/
theorem not_behind : ¬Behind P start r.lhs t := by
  intro ht
  have hvanish : Generates P a.symbols [] := by
    rw [Rule.symbols_eq_of_recursive ha]
    exact (hP.vanishes_lhs hr hold ha hc).append (hP.mute_tail hr hold ha hc).vanishes
  exact hP.not_both hr hold ha hc (.inr ⟨hvanish, ht⟩) (.inr ⟨(hP.mute_base hr hold ha hc).vanishes, ht⟩)

/-- **A left-recursive nonterminal is mute.** -/
theorem mute_lhs : Mute P [r.lhs] := by
  have hskip : ∀ {α t}, Begins P α t → ∀ rest, α = r.lhs :: rest → Begins P rest t := by
    intro α t ht
    induction ht with
    | terminal ht _ =>
      rintro rest heq
      cases heq
      exact absurd ht (Symbol.not_isTerminal hr.nonterminal_lhs)
    | vanish _ h _ =>
      rintro rest heq
      cases heq
      exact h
    | @expand lhs t b _ _ hp h ih =>
      rintro rest heq
      cases heq
      rcases Rule.mem_alternatives_iff.mp ((hold b).mp hp) with hb | hb
      · exact absurd (ih _ (Rule.symbols_eq_of_recursive hb)) ((hP.mute_tail hr hold hb hc).not_begins t)
      · exact absurd h ((hP.mute_base hr hold ha hb).not_begins t)
  exact ⟨hP.vanishes_lhs hr hold ha hc, fun t ht => nomatch hskip ht [] rfl⟩

end Predictable

namespace Unrolled

variable (h : Unrolled P Q r helper) (hP : Predictable P start) (hr : r.Proper) (hE : EpsilonAlone P)
  (ha : a ∈ r.recursiveAlternatives) (hc : c ∈ r.baseAlternatives)
include h hP hr ha hc

/-- The new alternatives are the empty one and mute strings before the helper, with which old alternatives end. -/
theorem cases_of_mem (hb : b ∈ (r.recursionHead helper).alternatives ++ (r.recursionTail helper).alternatives) :
    b.symbols = [Symbol.epsilon] ∨ ∃ γ, b.symbols = γ ++ [helper] ∧ Mute P γ ∧ helper ∉ γ ∧
      ∃ d μ, P r.lhs d ∧ d.symbols = μ ++ γ := by
  rcases List.mem_append.mp hb with hb | hb
  · obtain ⟨d, hd, rfl⟩ := Rule.mem_recursionHead.mp hb
    have hpd := (h.old d).mpr (Rule.mem_alternatives_iff.mpr (.inr hd))
    refine .inr ⟨_, rfl, ?_⟩
    split
    · exact ⟨⟨.nil, fun t ht => nomatch ht⟩, List.not_mem_nil, d, d.symbols, hpd, (List.append_nil _).symm⟩
    · exact ⟨hP.mute_base hr h.old ha hd, h.not_mem r.lhs d hpd, d, [], hpd, rfl⟩
  · rcases h.tail_iff.mp ((h.tail b).mpr hb) with rfl | ⟨d, hd, _, rfl⟩
    · exact .inl rfl
    · have hpd := (h.old d).mpr (Rule.mem_alternatives_iff.mpr (.inl hd))
      have hne : helper ∉ d.symbols.tail := fun hmem => h.not_mem r.lhs d hpd (List.mem_of_mem_tail hmem)
      exact .inr ⟨_, rfl, hP.mute_tail hr h.old hd hc, hne, d, [r.lhs], hpd, Rule.symbols_eq_of_recursive hd⟩

include hE

theorem conservative : Conservative P Q r (r.recursionHead helper) (r.recursionTail helper) helper where
  toHelped := h
  generates_iff lhs hl hne w := ⟨h.generates_of_old hE hl, h.generates_of_new hE hl hne⟩
  vanishes _ := hP.vanishes_lhs hr h.old ha hc
  begins b hb t ht := by
    rcases h.cases_of_mem hP hr ha hc hb with hb | ⟨γ, hb, hγ, hne, _⟩
    · have hne : helper ∉ [Symbol.epsilon] := fun hmem =>
        Symbol.ne_epsilon_of_isNonterminal h.nonterminal (List.mem_singleton.mp hmem)
      rw [hb, map_unhelped hne, ← begins_sententialForm] at ht
      cases ht
    · rw [hb, List.map_append, map_unhelped hne, List.map_singleton, unhelped_self] at ht
      exact (Begins.append_iff.mp ht).elim (fun ht => absurd ht (hγ.not_begins t)) fun ht => ht.2

/-- The helper is as mute as what it helps. -/
theorem mute_helper : Mute Q [helper] := by
  refine ⟨h.generates_nil, fun t ht => (hP.mute_lhs hr h.old ha hc).not_begins t ?_⟩
  have ht := (h.conservative hP hr hE ha hc).begins_unhelped ht
  rwa [List.map_singleton, unhelped_self] at ht

theorem beginsBefore_of_snoc (ht : BeginsBefore Q F (γ ++ [helper]) t) : BeginsBefore Q F γ t :=
  (beginsBefore_append.mp ht).mono (h.mute_helper hP hr hE ha hc).beginsBefore_iff.mp

/-- No terminal predicts any of the new alternatives. -/
theorem not_beginsBefore (hb : b ∈ (r.recursionHead helper).alternatives ++ (r.recursionTail helper).alternatives) :
    ¬BeginsBefore Q (Behind P start r.lhs) b.symbols t := by
  intro ht
  refine hP.not_behind hr h.old ha hc (t := t) ?_
  rcases h.cases_of_mem hP hr ha hc hb with hb | ⟨γ, hb, hγ, hne, _⟩
  · rw [hb] at ht
    simpa using ht
  · rw [hb] at ht
    have ht := (h.conservative hP hr hE ha hc).beginsBefore_old hne (h.beginsBefore_of_snoc hP hr hE ha hc ht)
    exact hγ.beginsBefore_iff.mp ht

/-- Behind an occurrence in a new alternative comes what came behind it in an old one, and behind the helper what came
behind the left-hand side. -/
theorem behind_of_mem (hb : b ∈ (r.recursionHead helper).alternatives ++ (r.recursionTail helper).alternatives)
    (hsymbols : b.symbols = α ++ s :: β) (hs : s.isNonterminal = true)
    (ht : BeginsBefore Q (Behind P start r.lhs) β t) : Behind P start (unhelped helper r.lhs s) t := by
  rcases h.cases_of_mem hP hr ha hc hb with hb | ⟨γ, hb, _, hne, d, μ, hpd, hd⟩
  · have hmem : s ∈ [Symbol.epsilon] := hb ▸ hsymbols ▸ List.mem_append_right α List.mem_cons_self
    exact absurd (List.mem_singleton.mp hmem) (Symbol.ne_epsilon_of_isNonterminal hs)
  · rcases occurrence_cases (hb.symm.trans hsymbols) with ⟨δ, rfl, rfl⟩ | ⟨δ, _, hlast⟩
    · have ht := h.beginsBefore_of_snoc hP hr hE ha hc ht
      exact (h.conservative hP hr hE ha hc).behind_old hpd (hd.trans (List.append_assoc μ α _).symm) hs ht
    · obtain ⟨rfl, rfl, rfl⟩ : δ = [] ∧ s = helper ∧ β = [] := by simpa [List.singleton_eq_append_iff] using hlast
      rw [unhelped_self]
      exact beginsBefore_nil.mp ht

/-- **Removing left recursion keeps predict sets disjoint.** -/
theorem predictable (hstart : start ≠ helper) : Predictable Q start := by
  have hC := h.conservative hP hr hE ha hc
  refine hC.predictable hstart (fun b hb α s β t => h.behind_of_mem hP hr hE ha hc hb) hP ?_ ?_ ?_
  · intro b hb
    rcases h.cases_of_mem hP hr ha hc hb with hb | ⟨γ, hb, hγ, hne, _⟩
    · exact ⟨[], hb ▸ .epsilon .nil⟩
    · exact ⟨_, hb ▸ (hC.generates_new hne hγ.vanishes).append h.generates_nil⟩
  · exact fun b hb _ _ t ht => absurd ht (h.not_beginsBefore hP hr hE ha hc (List.mem_append_left _ hb))
  · exact fun b hb _ _ t ht => absurd ht (h.not_beginsBefore hP hr hE ha hc (List.mem_append_right _ hb))

end Unrolled

/-! ## Common beginnings -/

namespace Factor

variable {f : Factor}

/-- What is left of an alternative writes the form that it has behind the stem. -/
theorem sententialForm_rest :
    sententialForm (f.rest a).symbols = sententialForm (a.symbols.drop f.stem.length) := by
  unfold rest
  dsimp only
  split
  · rename_i hempty
    rw [List.isEmpty_iff.mp hempty]
    rfl
  · rfl

theorem generates_rest {w : List Symbol} :
    Generates P (f.rest a).symbols w ↔ Generates P (a.symbols.drop f.stem.length) w := by
  rw [← generates_sententialForm, sententialForm_rest, generates_sententialForm]

theorem begins_rest : Begins P (f.rest a).symbols t ↔ Begins P (a.symbols.drop f.stem.length) t := by
  rw [← begins_sententialForm, sententialForm_rest, begins_sententialForm]

theorem beginsBefore_rest :
    BeginsBefore P F (f.rest a).symbols t ↔ BeginsBefore P F (a.symbols.drop f.stem.length) t :=
  or_congr begins_rest (and_congr_left' generates_rest)

/-- An occurrence of a nonterminal in what is left of an alternative is one in the alternative. -/
theorem symbols_eq_of_rest {alternatives : List Alternative} (hf : f.Splits alternatives) (ha : a ∈ f.run)
    (hrest : (f.rest a).symbols = α ++ s :: β) (hs : s.isNonterminal = true) :
    a.symbols = f.stem ++ α ++ s :: β := by
  unfold rest at hrest
  dsimp only at hrest
  split at hrest
  · have hmem : s ∈ [Symbol.epsilon] := hrest ▸ List.mem_append_right α List.mem_cons_self
    exact absurd (List.mem_singleton.mp hmem) (Symbol.ne_epsilon_of_isNonterminal hs)
  · rw [← hf.symbols_eq ha, hrest, List.append_assoc]

end Factor

namespace Factored

variable {f : Factor} {order : Registry} (h : Factored P Q r f helper order) (hf : f.Splits r.alternatives)
include h hf

theorem produces_of_run (ha : a ∈ f.run) : P r.lhs a := (h.old a).mpr (hf.mem_iff.mpr (.inl ha))

theorem helper_not_mem_stem : helper ∉ f.stem := by
  obtain ⟨a, ha⟩ := hf.exists_mem
  exact fun hmem => h.not_mem r.lhs a (h.produces_of_run hf ha) ((hf.begins a ha).subset hmem)

theorem helper_not_mem_rest (ha : a ∈ f.run) : helper ∉ (f.rest a).symbols := by
  intro hmem
  obtain ⟨α, β, hrest⟩ := List.append_of_mem hmem
  have hsymbols := Factor.symbols_eq_of_rest hf ha hrest h.nonterminal
  exact h.not_mem r.lhs a (h.produces_of_run hf ha) (hsymbols ▸ List.mem_append_right _ List.mem_cons_self)

theorem generates_iff (hl : lhs.isNonterminal = true) (hne : lhs ≠ helper) (w : List Symbol) :
    Generates P [lhs] w ↔ Generates Q [lhs] w := by
  rw [Generates.iff_translates, Generates.iff_translates]
  exact exists_congr fun acts => ⟨h.translates_of_old hf hl, h.translates_of_new hf hl hne⟩

variable (hP : Predictable P start) (hr : r.Proper)
include hP hr

/-- **The stem is mute**, since it begins two alternatives. -/
theorem mute_stem : Mute P f.stem := by
  obtain ⟨a, ha, b, hb, hne⟩ := hf.exists_symbols_ne hr
  have hbegins : ∀ {c t}, c ∈ f.run → Begins P f.stem t → Begins P c.symbols t := fun hc ht =>
    hf.symbols_eq hc ▸ ht.append_right _
  obtain ⟨w, hw⟩ := hP.productive r.lhs a (h.produces_of_run hf ha)
  rw [← hf.symbols_eq ha] at hw
  obtain ⟨u, _, _, hu, _⟩ := hw.of_append
  exact .of_generates hu fun t ht => hne (congrArg Alternative.symbols (hP.unique r.lhs a b t
    (h.produces_of_run hf ha) (h.produces_of_run hf hb) (.inl (hbegins ha ht)) (.inl (hbegins hb ht))))

/-- What predicts the rest of an alternative predicts the alternative. -/
theorem beginsBefore_run (ha : a ∈ f.run) : BeginsBefore P F (f.rest a).symbols t ↔ BeginsBefore P F a.symbols t := by
  rw [Factor.beginsBefore_rest, ← (h.mute_stem hf hP hr).beginsBefore_iff (F := BeginsBefore P F _),
    ← beginsBefore_append, hf.symbols_eq ha]

theorem conservative : Conservative P Q r ((f.replaced r.lhs helper).sorted order) (f.factored helper) helper where
  toHelped := h
  generates_iff lhs hl hne w := h.generates_iff hf hl hne w
  vanishes hw := by
    obtain ⟨b, hb, hw⟩ := hw.exists_alternative h.nonterminal
    obtain ⟨a, ha, rfl⟩ := h.tail_iff.mp hb
    have hrest : Generates P (f.rest a).symbols [] := hw.of_nonterminals fun lhs hmem hl w =>
      (h.generates_iff hf hl (fun heq => h.helper_not_mem_rest hf ha (heq ▸ hmem)) w).mpr
    refine .of_alternative h.lhs_nonterminal (h.produces_of_run hf ha) ?_
    rw [← hf.symbols_eq ha]
    exact (h.mute_stem hf hP hr).vanishes.append (Factor.generates_rest.mp hrest)
  begins b hb t ht := by
    rcases List.mem_append.mp hb with hb | hb
    · rcases Factor.mem_replaced.mp hb with rfl | hb
      · rw [List.map_append, map_unhelped (h.helper_not_mem_stem hf), List.map_singleton, unhelped_self] at ht
        exact (Begins.append_iff.mp ht).elim (fun ht => absurd ht ((h.mute_stem hf hP hr).not_begins t))
          fun ht => ht.2
      · have hpb := (h.old b).mpr (hf.mem_iff.mpr (.inr hb))
        rw [map_unhelped (h.not_mem r.lhs b hpb)] at ht
        exact .expand h.lhs_nonterminal hpb ht
    · obtain ⟨a, ha, rfl⟩ := Factor.mem_factored.mp hb
      rw [map_unhelped (h.helper_not_mem_rest hf ha)] at ht
      refine .expand h.lhs_nonterminal (h.produces_of_run hf ha) ?_
      rw [← hf.symbols_eq ha]
      exact Begins.append_iff.mpr (.inr ⟨(h.mute_stem hf hP hr).vanishes, Factor.begins_rest.mp ht⟩)

/-- A string goes on with the helper as it went on with what some alternative of the run has behind the stem. -/
theorem exists_run_of_snoc (hγ : helper ∉ γ) (ht : BeginsBefore Q F (γ ++ [helper]) t) :
    ∃ a ∈ f.run, BeginsBefore P F (γ ++ a.symbols.drop f.stem.length) t := by
  have hC := h.conservative hf hP hr
  rcases hC.beginsBefore_old hγ (beginsBefore_append.mp ht) with ht | ⟨hvanish, ht⟩
  · obtain ⟨a, ha⟩ := hf.exists_mem
    exact ⟨a, ha, .inl (ht.append_right _)⟩
  · obtain ⟨b, hb, ht⟩ := ht.exists_alternative h.nonterminal
    obtain ⟨a, ha, rfl⟩ := h.tail_iff.mp hb
    have ht := Factor.beginsBefore_rest.mp (hC.beginsBefore_old (h.helper_not_mem_rest hf ha) ht)
    exact ⟨a, ha, beginsBefore_append.mpr (.inr ⟨hvanish, ht⟩)⟩

/-- Behind an occurrence in a new alternative comes what came behind it in an old one, and behind the helper what came
behind the left-hand side. -/
theorem behind_of_mem
    (hb : b ∈ ((f.replaced r.lhs helper).sorted order).alternatives ++ (f.factored helper).alternatives)
    (hsymbols : b.symbols = α ++ s :: β) (hs : s.isNonterminal = true)
    (ht : BeginsBefore Q (Behind P start r.lhs) β t) : Behind P start (unhelped helper r.lhs s) t := by
  have hC := h.conservative hf hP hr
  rcases List.mem_append.mp hb with hb | hb
  · rcases Factor.mem_replaced.mp hb with rfl | hb
    · rcases occurrence_cases hsymbols with ⟨δ, hstem, rfl⟩ | ⟨δ, _, hlast⟩
      · have hnot := hstem ▸ h.helper_not_mem_stem hf
        rw [List.mem_append, List.mem_cons, not_or, not_or] at hnot
        obtain ⟨a, ha, ht⟩ := h.exists_run_of_snoc hf hP hr hnot.2.2 ht
        rw [unhelped_of_ne (Ne.symm hnot.2.1)]
        refine ht.behind (α := α) (h.produces_of_run hf ha) ?_ hs
        rw [← List.cons_append, ← List.append_assoc, ← hstem, hf.symbols_eq ha]
      · obtain ⟨rfl, rfl, rfl⟩ : δ = [] ∧ s = helper ∧ β = [] := by simpa [List.singleton_eq_append_iff] using hlast
        rw [unhelped_self]
        exact beginsBefore_nil.mp ht
    · exact hC.behind_old ((h.old b).mpr (hf.mem_iff.mpr (.inr hb))) hsymbols hs ht
  · obtain ⟨a, ha, rfl⟩ := Factor.mem_factored.mp hb
    exact hC.behind_old (h.produces_of_run hf ha) (Factor.symbols_eq_of_rest hf ha hsymbols hs) hs ht

/-- A new alternative of the rule is predicted where an old one is: where one of the run is, if it goes on with the
helper, and otherwise where it was. -/
theorem exists_of_replaced (hb : b ∈ ((f.replaced r.lhs helper).sorted order).alternatives)
    (ht : BeginsBefore Q F b.symbols t) : ∃ c, P r.lhs c ∧ BeginsBefore P F c.symbols t ∧
      (b = ⟨f.stem ++ [helper], none⟩ ∧ c ∈ f.run ∨ b = c ∧ c ∈ f.before ++ f.after) := by
  rcases Factor.mem_replaced.mp hb with rfl | hb
  · obtain ⟨a, ha, ht⟩ := h.exists_run_of_snoc hf hP hr (h.helper_not_mem_stem hf) ht
    rw [hf.symbols_eq ha] at ht
    exact ⟨a, h.produces_of_run hf ha, ht, .inl ⟨rfl, ha⟩⟩
  · have hpb := (h.old b).mpr (hf.mem_iff.mpr (.inr hb))
    exact ⟨b, hpb, (h.conservative hf hP hr).beginsBefore_old (h.not_mem r.lhs b hpb) ht, .inr ⟨rfl, hb⟩⟩

/-- What is left of an alternative derives a terminal string. -/
theorem exists_generates_rest (ha : a ∈ f.run) : ∃ w, Generates Q (f.rest a).symbols w := by
  obtain ⟨w, hw⟩ := hP.productive r.lhs a (h.produces_of_run hf ha)
  rw [← hf.symbols_eq ha] at hw
  obtain ⟨_, v, _, _, hv⟩ := hw.of_append
  exact ⟨v, (h.conservative hf hP hr).generates_new (h.helper_not_mem_rest hf ha) (Factor.generates_rest.mpr hv)⟩

/-- **Factoring out keeps predict sets disjoint.** -/
theorem predictable (hstart : start ≠ helper) : Predictable Q start := by
  have hC := h.conservative hf hP hr
  refine hC.predictable hstart (fun b hb α s β t => h.behind_of_mem hf hP hr hb) hP ?_ ?_ ?_
  · intro b hb
    rcases List.mem_append.mp hb with hb | hb
    · rcases Factor.mem_replaced.mp hb with rfl | hb
      · obtain ⟨a, ha⟩ := hf.exists_mem
        obtain ⟨w, hw⟩ := h.exists_generates_rest hf hP hr ha
        have hstem := hC.generates_new (h.helper_not_mem_stem hf) (h.mute_stem hf hP hr).vanishes
        exact ⟨_, hstem.append (.of_alternative h.nonterminal (h.tail_iff.mpr ⟨a, ha, rfl⟩) hw)⟩
      · have hpb := (h.old b).mpr (hf.mem_iff.mpr (.inr hb))
        obtain ⟨w, hw⟩ := hP.productive r.lhs b hpb
        exact ⟨w, hC.generates_new (h.not_mem r.lhs b hpb) hw⟩
    · obtain ⟨a, ha, rfl⟩ := Factor.mem_factored.mp hb
      exact h.exists_generates_rest hf hP hr ha
  · intro a ha b hb t hat hbt
    obtain ⟨c, hpc, hct, hc⟩ := h.exists_of_replaced hf hP hr ha hat
    obtain ⟨d, hpd, hdt, hd⟩ := h.exists_of_replaced hf hP hr hb hbt
    obtain rfl := hP.unique r.lhs c d t hpc hpd hct hdt
    rcases hc with ⟨rfl, hc⟩ | ⟨rfl, hc⟩ <;> rcases hd with ⟨rfl, hd⟩ | ⟨rfl, hd⟩
    · rfl
    · exact absurd hd (hf.not_mem_others hr hc)
    · exact absurd hc (hf.not_mem_others hr hd)
    · rfl
  · intro x hx y hy t hat hbt
    obtain ⟨a, ha, rfl⟩ := Factor.mem_factored.mp hx
    obtain ⟨b, hb, rfl⟩ := Factor.mem_factored.mp hy
    have hpredicted : ∀ {c}, c ∈ f.run → BeginsBefore Q (Behind P start r.lhs) (f.rest c).symbols t →
        BeginsBefore P (Behind P start r.lhs) c.symbols t := fun hc ht =>
      (h.beginsBefore_run hf hP hr hc).mp (hC.beginsBefore_old (h.helper_not_mem_rest hf hc) ht)
    rw [hP.unique r.lhs a b t (h.produces_of_run hf ha) (h.produces_of_run hf hb) (hpredicted ha hat)
      (hpredicted hb hbt)]

end Factored

/-! ## Whole grammars -/

namespace Grammar

/-- The second grammar has the start symbol of the first one, and is predictable if that is. -/
def StaysPredictable (g g' : Grammar) : Prop :=
  g'.start = g.start ∧ ∀ start, g.start = .ok start → Predictable g.Produces start → Predictable g'.Produces start

theorem StaysPredictable.refl (g : Grammar) : StaysPredictable g g := ⟨rfl, fun _ _ h => h⟩

theorem StaysPredictable.trans {g g' g'' : Grammar} (h₁ : StaysPredictable g g') (h₂ : StaysPredictable g' g'') :
    StaysPredictable g g'' :=
  ⟨h₂.1.trans h₁.1, fun start hs h => h₂.2 start (h₁.1.trans hs) (h₁.2 start hs h)⟩

section Steps

variable {pre post : List Rule} (hg : (⟨pre ++ r :: post⟩ : Grammar).WellFormed)
include hg

/-- A new helper is not the start symbol. -/
theorem WellFormed.start_ne_fresh (hfresh : helper ∉ (⟨pre ++ r :: post⟩ : Grammar).nonterminals)
    (hs : (⟨pre ++ r :: post⟩ : Grammar).start = .ok start) : start ≠ helper := by
  rintro rfl
  exact hfresh (hg.start_mem_nonterminals hs)

theorem staysPredictable_of_unroll (hrecursive : r.recursiveAlternatives ≠ []) (hbase : r.baseAlternatives ≠ [])
    (hnt : helper.isNonterminal = true) (hfresh : helper ∉ (⟨pre ++ r :: post⟩ : Grammar).nonterminals) :
    StaysPredictable ⟨pre ++ r :: post⟩ ⟨pre ++ r.recursionHead helper :: r.recursionTail helper :: post⟩ := by
  refine ⟨(rewrites_of_unroll hg hnt hfresh).start_eq, fun start hs hP => ?_⟩
  obtain ⟨a, ha⟩ := List.exists_mem_of_ne_nil _ hrecursive
  obtain ⟨c, hc⟩ := List.exists_mem_of_ne_nil _ hbase
  exact (unrolled_of_fresh hg hnt hfresh).predictable hP (hg.proper r (List.mem_append_right _ List.mem_cons_self))
    hg.epsilonAlone ha hc (hg.start_ne_fresh hfresh hs)

theorem staysPredictable_of_factor {f : Factor} (hf : f.Splits r.alternatives) (hnt : helper.isNonterminal = true)
    (hfresh : helper ∉ (⟨pre ++ r :: post⟩ : Grammar).nonterminals) (order : Registry) : StaysPredictable
      ⟨pre ++ r :: post⟩ ⟨pre ++ (f.replaced r.lhs helper).sorted order :: f.factored helper :: post⟩ := by
  refine ⟨(retranslates_of_factor hg hf hnt hfresh order).start_eq, fun start hs hP => ?_⟩
  exact (factored_of_fresh hg hf hnt hfresh order).predictable hf hP
    (hg.proper r (List.mem_append_right _ List.mem_cons_self)) (hg.start_ne_fresh hfresh hs)

theorem staysPredictable_sorted (order : Registry) :
    StaysPredictable ⟨pre ++ r :: post⟩ ⟨pre ++ r.sorted order :: post⟩ := by
  refine ⟨(retranslates_sorted order hg).start_eq, fun start _ hP => ?_⟩
  rwa [produces_sorted]

end Steps

theorem staysPredictable_of_removeLeftRecursion {g : Grammar} {order : Registry} {t : Transformation}
    (hg : g.WellFormed) (h : (g.removeLeftRecursion order).result = .ok t) : StaysPredictable g t.grammar :=
  removeLeftRecursion_induction (fun g _ => .refl g) .trans staysPredictable_of_unroll hg h

theorem staysPredictable_of_leftFactor {ε : Type} {g : Grammar} {order : Registry} {t : Transformation}
    (hg : g.WellFormed) (h : (g.leftFactor order : Reported ε Transformation).result = .ok t) :
    StaysPredictable g t.grammar :=
  leftFactor_induction (fun g _ => .refl g) .trans (fun hg hf => staysPredictable_of_factor hg hf)
    staysPredictable_sorted hg h

end Grammar

/-! ## Parsers -/

namespace LL

/-- An alternative of a left-hand side has one number. -/
theorem eq_of_target? {g : Grammar} (hg : g.WellFormed) {id id' : AlternativeId} {r r' : Rule}
    (h : g.target? id = some (r, a)) (h' : g.target? id' = some (r', a)) (hlhs : r'.lhs = r.lhs) : id = id' := by
  obtain ⟨hr, ha⟩ := Grammar.target?_eq_some.mp h
  obtain ⟨hr', ha'⟩ := Grammar.target?_eq_some.mp h'
  have hfind := (Grammar.find_eq_ok_iff hg.nodup_lhs).mpr ⟨hr, rfl⟩
  have hfind' := (Grammar.find_eq_ok_iff hg.nodup_lhs).mpr ⟨hr', hlhs⟩
  obtain ⟨hrule, rfl⟩ := Prod.mk.inj (Except.ok.inj (hfind.symm.trans hfind'))
  have hnodup := (hg.proper r (List.mem_of_getElem? hr)).nodup
  have hindex := (List.getElem?_inj (List.getElem?_eq_some_iff.mp ha).1 hnodup).mp (ha.trans ha'.symm)
  exact AlternativeId.toRaw_inj (by simp only [AlternativeId.toRaw, hrule, hindex])

/-- A terminal that predicts an alternative by the computed sets does so by derivations. -/
theorem Predicts.exists_beginsBefore {g : Grammar} {follow : FollowSets} {id : AlternativeId} (hg : g.WellFormed)
    (hstart : g.start = .ok start) (hfollow : FollowSets.ofGrammar g (.ofGrammar g) = .ok follow)
    (h : Predicts g (.ofGrammar g) follow lhs t id) : ∃ r a, g.target? id = some (r, a) ∧ r.lhs = lhs ∧
      BeginsBefore g.Produces (Behind g.Produces start lhs) a.symbols t := by
  obtain ⟨r, a, htarget, hlhs, ht⟩ := h
  refine ⟨r, a, htarget, hlhs, ?_⟩
  rw [FirstSets.mem_ofSequence, FirstSets.mem_ofSequence] at ht
  refine ht.imp (fun ht => (FirstSets.mem_iff_begins hg.nonterminal_lhs ht.2).mp ht.1) fun ht => ?_
  exact ⟨(FirstSets.epsilon_mem_iff hg.nonterminal_lhs).mp ht.1, FollowSets.behind_of_mem hg hfollow hstart ht.2⟩

/-- **Tables of LL(1) grammars have no conflicts**, though the rules may be rewritten. -/
theorem Parser.conflicts_eq_nil_of_isLL1 {steps : List DefinitionStep} {g : Grammar} {order : Registry} {p : Parser}
    (hg : (Grammar.define steps).result = .ok g) (hstart : g.start = .ok start) (hll : g.IsLL1 start)
    (h : (Parser.build order g).result = .ok p) : p.conflicts = [] := by
  have hwell := wellFormed_of_define hg
  have hx := Parser.exact_of_build hwell h
  obtain ⟨direct, factored, follow, filling, hbuilt⟩ := Parser.exists_built h
  have hstays : Grammar.StaysPredictable g p.grammar := by
    obtain rfl := hbuilt.parser_eq
    have hdirect := (Grammar.rewrites_of_removeLeftRecursion hwell hbuilt.direct_eq).wellFormed
    exact (Grammar.staysPredictable_of_removeLeftRecursion hwell hbuilt.direct_eq).trans
      (Grammar.staysPredictable_of_leftFactor hdirect hbuilt.factored_eq)
  have hP := hstays.2 start hstart (hll.predictable hwell)
  refine (Parser.isPredictive_of_build hg h).conflicts_eq_nil_iff.mpr fun lhs id id' hne t hid hid' => hne ?_
  have hfollow := hx.follow_eq
  rw [hx.first_eq] at hid hid' hfollow
  obtain ⟨r, a, ht, rfl, hat⟩ := hid.exists_beginsBefore hx.rewrites.wellFormed (hstays.1.trans hstart) hfollow
  obtain ⟨r', b, ht', hlhs, hbt⟩ := hid'.exists_beginsBefore hx.rewrites.wellFormed (hstays.1.trans hstart) hfollow
  have hpa := (Grammar.produces_of_target? ht).2
  have hpb := (Grammar.produces_of_target? ht').2
  rw [hlhs] at hpb
  obtain rfl := hP.unique r.lhs a b t hpa hpb hat hbt
  exact eq_of_target? hx.rewrites.wellFormed ht ht' hlhs

/-- The terminals selected by derivations are in the computed predict sets. -/
theorem mem_predictSet_of_selects {g : Grammar} {follow : FollowSets} (hg : g.WellFormed) (hstart : g.start = .ok start)
    (hfollow : FollowSets.ofGrammar g (.ofGrammar g) = .ok follow) (hp : g.Produces lhs a)
    (h : g.Selects start lhs a t) : t ∈ predictSet (.ofGrammar g) follow lhs a.symbols := by
  obtain ⟨ht, h⟩ := h
  refine Parser.mem_predictSet.mpr (h.imp ?_ fun ⟨hempty, hfollows⟩ => ?_)
  · rintro ⟨rest, hd⟩
    have hne : t ≠ Symbol.epsilon := by
      rintro rfl
      exact hd.epsilon_not_mem epsilon_not_mem_sententialForm List.mem_cons_self
    exact ⟨(FirstSets.mem_iff_begins hg.nonterminal_lhs hne).mpr ((exists_derives_cons_iff ht hne).mp ⟨rest, hd⟩), hne⟩
  · exact ⟨(FirstSets.epsilon_mem_iff hg.nonterminal_lhs).mpr (derives_nil_iff.mp hempty),
      FollowSets.mem_of_follows hg hfollow hstart (hg.nonterminal hp) ht hfollows⟩

/-- **LL(1) grammars are known by their computed predict sets.** -/
theorem isLL1_of_predictSets {g : Grammar} {follow : FollowSets} (hg : g.WellFormed) (hstart : g.start = .ok start)
    (hfollow : FollowSets.ofGrammar g (.ofGrammar g) = .ok follow)
    (hproductive : ∀ s ∈ g.nonterminals, ∃ w, Generates g.Produces [s] w)
    (hdisjoint : ∀ r ∈ g.rules, ∀ a ∈ r.alternatives, ∀ b ∈ r.alternatives, a ≠ b →
      ∀ t ∈ predictSet (.ofGrammar g) follow r.lhs a.symbols, t ∉ predictSet (.ofGrammar g) follow r.lhs b.symbols) :
    g.IsLL1 start := by
  constructor
  case productive =>
    intro s hs
    obtain ⟨w, hw⟩ := hproductive s hs
    have hd := hw.derives
    rw [sententialForm_cons (Symbol.ne_epsilon_of_isNonterminal (hg.isNonterminal_of_mem hs))] at hd
    exact ⟨w, fun t ht => (hw.terminals t ht).1, hd⟩
  case disjoint =>
    rintro lhs a b ⟨r, hr, rfl, ha⟩ hpb hne t hat hbt
    have hb : b ∈ r.alternatives := by
      obtain ⟨r', hr', hlhs, hb⟩ := hpb
      exact List.inj_on_of_nodup_map hg.nodup_lhs hr' hr hlhs ▸ hb
    exact hdisjoint r hr a ha b hb hne t (mem_predictSet_of_selects hg hstart hfollow ⟨r, hr, rfl, ha⟩ hat)
      (mem_predictSet_of_selects hg hstart hfollow hpb hbt)

section Silent

open TableParser.Symbol

/-- Alternatives that begin with the same nonterminal without letters, and a nonterminal that stands for itself. -/
def silentSteps : List DefinitionStep := [
  .rule (nonterminal "S") [nonterminal "N", terminal "a"] none,
  .rule (nonterminal "S") [nonterminal "N", terminal "b"] none,
  .rule (nonterminal "N") [epsilon] none,
  .rule (nonterminal "A") [nonterminal "A", nonterminal "N"] none,
  .rule (nonterminal "A") [epsilon] none]

/-- The symbols in the order in which the grammar is defined. -/
def silentOrder : Registry :=
  Registry.fresh.internAll [nonterminal "S", nonterminal "N", terminal "a", terminal "b", nonterminal "A"]

/-- The rules as they are defined. -/
def silentRules : Grammar := ⟨[
  ⟨nonterminal "S", [⟨[nonterminal "N", terminal "a"], none⟩, ⟨[nonterminal "N", terminal "b"], none⟩]⟩,
  ⟨nonterminal "N", [⟨[epsilon], none⟩]⟩,
  ⟨nonterminal "A", [⟨[nonterminal "A", nonterminal "N"], none⟩, ⟨[epsilon], none⟩]⟩]⟩

/-- The rules without left recursion and factored: two of the three have a helper. -/
def factoredSilentRules : Grammar := ⟨[
  ⟨nonterminal "S", [⟨[nonterminal "N", nonterminal "S_2"], none⟩]⟩,
  ⟨nonterminal "S_2", [⟨[terminal "b"], none⟩, ⟨[terminal "a"], none⟩]⟩,
  ⟨nonterminal "N", [⟨[epsilon], none⟩]⟩,
  ⟨nonterminal "A", [⟨[nonterminal "A_2"], none⟩]⟩,
  ⟨nonterminal "A_2", [⟨[nonterminal "N", nonterminal "A_2"], none⟩, ⟨[epsilon], none⟩]⟩]⟩

/-- The letters tell the alternatives apart. -/
theorem isLL1_silentRules : silentRules.IsLL1 (nonterminal "S") := by
  have hg : (Grammar.define silentSteps).result = .ok silentRules := by rfl
  have heval : ((FollowSets.ofGrammar silentRules (.ofGrammar silentRules)).toOption.any fun follow =>
      decide (∀ r ∈ silentRules.rules, ∀ a ∈ r.alternatives, ∀ b ∈ r.alternatives, a ≠ b →
        ∀ t ∈ predictSet (.ofGrammar silentRules) follow r.lhs a.symbols,
          t ∉ predictSet (.ofGrammar silentRules) follow r.lhs b.symbols)) = true := by rfl
  obtain ⟨follow, hfollow, hdisjoint⟩ := exists_ok_of_any heval
  refine isLL1_of_predictSets (wellFormed_of_define hg) rfl hfollow ?_ (of_decide_eq_true hdisjoint)
  have hN : Generates silentRules.Produces [nonterminal "N"] [] :=
    .of_alternative rfl ⟨_, .tail _ (.head _), rfl, .head _⟩ (.epsilon .nil)
  have hmem : ∀ s ∈ silentRules.nonterminals, s = nonterminal "S" ∨ s = nonterminal "N" ∨ s = nonterminal "A" := by
    decide
  intro s hs
  rcases hmem s hs with rfl | rfl | rfl
  · exact ⟨[terminal "a"], .of_alternative rfl ⟨_, .head _, rfl, .head _⟩ (hN.append (.terminal rfl (by decide) .nil))⟩
  · exact ⟨[], hN⟩
  · exact ⟨[], .of_alternative rfl ⟨_, .tail _ (.tail _ (.head _)), rfl, .tail _ (.head _)⟩ (.epsilon .nil)⟩

/-- The table of the rewritten rules has no conflicts, since those of the rules as they are defined do not overlap. -/
theorem Parser.conflicts_eq_nil_of_isLL1_silent : (Grammar.define silentSteps).result = .ok silentRules ∧
    silentRules.start = .ok (nonterminal "S") ∧ silentRules.IsLL1 (nonterminal "S") ∧
    ∃ p, (Parser.build silentOrder silentRules).result = .ok p ∧ p.grammar = factoredSilentRules ∧ p.conflicts = [] := by
  have hg : (Grammar.define silentSteps).result = .ok silentRules := by rfl
  have heval : ((Parser.build silentOrder silentRules).result.toOption.any fun p =>
      p.grammar = factoredSilentRules) = true := by rfl
  obtain ⟨p, hp, hrules⟩ := exists_ok_of_any heval
  exact ⟨hg, rfl, isLL1_silentRules, p, hp, of_decide_eq_true hrules,
    Parser.conflicts_eq_nil_of_isLL1 hg rfl isLL1_silentRules hp⟩

end Silent

end LL
end TableParser
