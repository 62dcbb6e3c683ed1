import TableParser.Proofs.FactoredGroups
import TableParser.Proofs.SententialForm

/-!
# The normal form of the rules

Removing left recursion and then factoring common beginnings out leaves rules that a predictive parser can work with
(`Grammar.NormalFormOf`, `Grammar.normalFormOf_of_leftFactor`): no alternative begins with its own left-hand side, no two
alternatives of a rule begin alike, and the rules are those of the grammar and of new helpers, in the order of the grammar.

* **Left recursion** (`Rule.Direct`): defined rules have their left-recursive alternatives in front
  (`recursionInFront_of_define`), so that all of them are found; factoring brings none back.
* **Common beginnings** (`Grammar.prefixFree_of_leftFactor`): a helper takes a whole group, so it need not be factored again.
* **Helpers** (`Grammar.AddsHelpers`): one replacement of a rule adds one left-hand side that is new.
-/

namespace TableParser

/-! ## Left recursion -/

namespace Rule

variable {r : Rule} {a : Alternative} {helper : Symbol}

/-- No alternative begins with the left-hand side. -/
def Direct (r : Rule) : Prop := ∀ a ∈ r.alternatives, r.isLeftRecursive a = false

/-- The left-recursive alternatives stand in front. -/
def RecursionInFront (r : Rule) : Prop := ∀ a ∈ r.baseAlternatives, r.isLeftRecursive a = false

theorem isLeftRecursive_eq_false_iff : r.isLeftRecursive a = false ↔ a.symbols.head? ≠ some r.lhs := by
  unfold isLeftRecursive
  rw [beq_eq_false_iff_ne]

/-- Adding an alternative keeps the left-recursive ones in front. -/
theorem RecursionInFront.add (h : r.RecursionInFront) (a : Alternative) : (r.add a).RecursionInFront := by
  unfold Rule.add
  split
  · rename_i hrec
    intro b hb
    have hrest : (⟨r.lhs, a :: r.alternatives⟩ : Rule).baseAlternatives = r.baseAlternatives :=
      List.dropWhile_cons_of_pos hrec
    rw [hrest] at hb
    exact h b hb
  · rename_i hrec
    intro b hb
    have hb : b ∈ (r.alternatives ++ [a]).dropWhile r.isLeftRecursive := hb
    rw [List.dropWhile_append] at hb
    split at hb
    · rw [List.dropWhile_cons_of_neg hrec, List.mem_singleton] at hb
      rw [hb]
      exact Bool.eq_false_iff.mpr hrec
    · rcases List.mem_append.mp hb with hb | hb
      · exact h b hb
      · rw [List.mem_singleton.mp hb]
        exact Bool.eq_false_iff.mpr hrec

/-- A rule without left-recursive alternatives in front has none at all. -/
theorem RecursionInFront.direct (h : r.RecursionInFront) (hnil : r.recursiveAlternatives = []) : r.Direct := by
  intro a ha
  rcases mem_alternatives_iff.mp ha with ha | ha
  · rw [hnil] at ha
    cases ha
  · exact h a ha

theorem direct_recursionHead (hr : r.Proper) (hfront : r.RecursionInFront) (hne : helper ≠ r.lhs) :
    (r.recursionHead helper).Direct := by
  intro b hb
  obtain ⟨a, ha, rfl⟩ := mem_recursionHead.mp hb
  rw [isLeftRecursive_eq_false_iff, lhs_recursionHead]
  dsimp only
  split
  · exact fun hhead => hne (Option.some.inj hhead)
  · rw [List.head?_append_of_ne_nil _ (hr.symbols_ne_nil a (mem_alternatives_iff.mpr (.inr ha)))]
    exact isLeftRecursive_eq_false_iff.mp (hfront a ha)

theorem direct_recursionTail (hnt : helper.isNonterminal = true) (hfresh : ∀ a ∈ r.alternatives, helper ∉ a.symbols) :
    (r.recursionTail helper).Direct := by
  intro b hb
  rw [isLeftRecursive_eq_false_iff, lhs_recursionTail]
  rcases mem_recursionTail.mp hb with rfl | ⟨a, ha, htail, rfl⟩
  · exact fun hhead => Symbol.ne_epsilon_of_isNonterminal hnt (Option.some.inj hhead).symm
  · dsimp only
    rw [List.head?_append_of_ne_nil _ htail]
    intro hhead
    exact hfresh a (mem_alternatives_iff.mpr (.inl ha)) (List.mem_of_mem_tail (List.mem_of_head? hhead))

/-- Sorting only moves the alternatives. -/
theorem Direct.sorted (h : r.Direct) (order : Registry) : (r.sorted order).Direct := fun a ha =>
  h a ((sortBy_perm _).mem_iff.mp ha)

end Rule

namespace Factor

variable {r : Rule} {f : Factor} {helper : Symbol}

/-- The stem is no left-hand side in front, as little as the alternatives that begin with it. -/
theorem direct_replaced (hf : f.Splits r.alternatives) (hdirect : r.Direct) (order : Registry) :
    ((f.replaced r.lhs helper).sorted order).Direct := by
  intro b hb
  have hlhs : ((f.replaced r.lhs helper).sorted order).lhs = r.lhs := Rule.lhs_addAll _ _
  rw [Rule.isLeftRecursive_eq_false_iff, hlhs]
  rcases mem_replaced.mp hb with rfl | hb
  · obtain ⟨a, ha⟩ := hf.exists_mem
    have hhead := Rule.isLeftRecursive_eq_false_iff.mp (hdirect a (hf.mem_iff.mpr (.inl ha)))
    rw [← hf.symbols_eq ha, List.head?_append_of_ne_nil _ hf.stem_ne_nil] at hhead
    rwa [List.head?_append_of_ne_nil _ hf.stem_ne_nil]
  · exact Rule.isLeftRecursive_eq_false_iff.mp (hdirect b (hf.mem_iff.mpr (.inr hb)))

theorem direct_factored (hf : f.Splits r.alternatives) (hnt : helper.isNonterminal = true)
    (hfresh : ∀ a ∈ r.alternatives, helper ∉ a.symbols) : (f.factored helper).Direct := by
  intro b hb
  obtain ⟨a, ha, rfl⟩ := mem_factored.mp hb
  rw [Rule.isLeftRecursive_eq_false_iff, lhs_factored]
  intro hhead
  have hmem := List.mem_of_head? hhead
  unfold rest at hmem
  dsimp only at hmem
  split at hmem
  · exact Symbol.ne_epsilon_of_isNonterminal hnt (List.mem_singleton.mp hmem)
  · exact hfresh a (hf.mem_iff.mpr (.inl ha)) (List.mem_of_mem_drop hmem)

end Factor

/-! ## Defined rules -/

namespace Draft

variable {d d' : Draft}

theorem eq_setRule_of_addRule {lhs : Symbol} {rhs : List Symbol} {action : Option String}
    (h : d.addRule lhs rhs action = .ok d') : d' = d.setRule ((d.ruleOf lhs).add ⟨rhs, action⟩) := by
  unfold addRule at h
  repeat' split at h
  all_goals cases h
  rfl

theorem recursionInFront_ruleOf (h : ∀ r ∈ d.rules, r.RecursionInFront) (lhs : Symbol) :
    (d.ruleOf lhs).RecursionInFront := by
  unfold ruleOf
  cases hfind : d.rules.find? fun r => r.lhs == lhs with
  | none => exact nofun
  | some r => exact h r (List.mem_of_find?_eq_some hfind)

/-- Each step of a definition keeps left-recursive alternatives in front. -/
theorem recursionInFront_of_step (h : ∀ r ∈ d.rules, r.RecursionInFront) {step : DefinitionStep}
    (hstep : step.apply d = .ok d') : ∀ r ∈ d'.rules, r.RecursionInFront := by
  cases step with
  | rule lhs rhs action =>
    rw [eq_setRule_of_addRule hstep]
    intro r hr
    rcases mem_setRule hr with rfl | hr
    · exact (recursionInFront_ruleOf h lhs).add _
    · exact h r hr
  | start s =>
    unfold DefinitionStep.apply setStart at hstep
    dsimp only at hstep
    split at hstep
    · cases hstep
    · cases hstep
      exact h

end Draft

/-- **Defined rules have their left-recursive alternatives in front.** -/
theorem recursionInFront_of_define {steps : List DefinitionStep} {g : Grammar}
    (h : (Grammar.define steps).result = .ok g) : ∀ r ∈ g.rules, r.RecursionInFront := by
  obtain ⟨d, hd, hg⟩ := exists_draft_of_define h
  have hfront : ∀ r ∈ d.rules, r.RecursionInFront :=
    foldlM_invariant (P := fun d => ∀ r ∈ d.rules, r.RecursionInFront) hd nofun fun _ _ _ _ hd hstep =>
      Draft.recursionInFront_of_step hd hstep
  exact fun r hr => hfront r ((mem_rules_of_finish hg).2.mem_iff.mp hr)

/-- Every nonterminal has a rule. -/
def Grammar.Closed (g : Grammar) : Prop := ∀ s ∈ g.nonterminals, s ∈ g.lhsSymbols

/-- Every nonterminal has a rule exactly if none is found that has none. -/
theorem Grammar.closed_iff (g : Grammar) : g.Closed ↔ (g.nonterminals.find? fun s => (g.position? s).isNone) = none := by
  have hposition : ∀ s, s ∈ g.lhsSymbols ↔ ¬(g.position? s).isNone = true := by
    intro s
    simp [position?, lhsSymbols]
  simp only [Closed, List.find?_eq_none, hposition]

/-- **Defined grammars have rules for all of their nonterminals.** -/
theorem closed_of_define {steps : List DefinitionStep} {g : Grammar} (h : (Grammar.define steps).result = .ok g) :
    g.Closed := by
  obtain ⟨d, _, hg⟩ := exists_draft_of_define h
  unfold Draft.finish at hg
  split at hg
  · cases hg
  split at hg
  · cases hg
  split at hg
  · cases hg
  · rename_i hnone
    cases hg
    exact (Grammar.closed_iff _).mpr hnone

/-! ## Helpers -/

/-- The second grammar has the rules of the first one, in order, and those of new helpers. -/
structure Grammar.AddsHelpers (g g' : Grammar) : Prop extends Grammar.Reshapes g g' where
  sublist : g.lhsSymbols.Sublist g'.lhsSymbols
  helpers : ∃ helpers, g'.lhsSymbols.Perm (g.lhsSymbols ++ helpers) ∧ ∀ h ∈ helpers, h ∉ g.nonterminals
  closed : g.Closed → g'.Closed

namespace Grammar.AddsHelpers

variable {g g' g'' : Grammar}

theorem refl (h : g.WellFormed) : AddsHelpers g g :=
  ⟨.refl h, .refl _, ⟨[], by rw [List.append_nil], nofun⟩, id⟩

theorem trans (h₁ : AddsHelpers g g') (h₂ : AddsHelpers g' g'') : AddsHelpers g g'' where
  toReshapes := h₁.toReshapes.trans h₂.toReshapes
  sublist := h₁.sublist.trans h₂.sublist
  helpers := by
    obtain ⟨hs₁, hperm₁, hnew₁⟩ := h₁.helpers
    obtain ⟨hs₂, hperm₂, hnew₂⟩ := h₂.helpers
    refine ⟨hs₁ ++ hs₂, ?_, fun h hh => ?_⟩
    · rw [← List.append_assoc]
      exact hperm₂.trans (hperm₁.append_right hs₂)
    · rcases List.mem_append.mp hh with hh | hh
      · exact hnew₁ h hh
      · exact fun hmem => hnew₂ h hh (h₁.subset h hmem)
  closed h := h₂.closed (h₁.closed h)

variable {pre post : List Rule} {r r' h : Rule}

/-- A replacement adds one helper. -/
theorem of_replaces (hg : (⟨pre ++ r :: post⟩ : Grammar).WellFormed) (hr : r.Replaces r' h)
    (hfresh : h.lhs ∉ (⟨pre ++ r :: post⟩ : Grammar).nonterminals) :
    AddsHelpers ⟨pre ++ r :: post⟩ ⟨pre ++ r' :: h :: post⟩ where
  toReshapes := reshapes_of_replaces hg hr hfresh
  sublist := by
    unfold lhsSymbols
    dsimp only
    rw [List.map_append, List.map_append, List.map_cons, List.map_cons, List.map_cons, hr.lhs_eq]
    exact ((List.sublist_cons_self _ _).cons_cons r.lhs).append_left _
  helpers := ⟨[h.lhs], (perm_lhsSymbols hr).trans (List.perm_append_singleton _ _).symm, fun s hs => by
    rw [List.mem_singleton.mp hs]
    exact hfresh⟩
  closed hclosed s hs := by
    rw [(perm_lhsSymbols hr).mem_iff, List.mem_cons]
    exact ((mem_nonterminals_of_replaces hg hr hfresh).mp hs).symm.imp_right (hclosed s)

theorem sorted (hg : (⟨pre ++ r :: post⟩ : Grammar).WellFormed) (order : Registry) :
    AddsHelpers ⟨pre ++ r :: post⟩ ⟨pre ++ r.sorted order :: post⟩ := by
  have hlhs : (⟨pre ++ r.sorted order :: post⟩ : Grammar).lhsSymbols = (⟨pre ++ r :: post⟩ : Grammar).lhsSymbols := by
    unfold lhsSymbols
    rw [List.map_append, List.map_append]
    rfl
  refine ⟨(retranslates_sorted order hg).toReshapes, hlhs ▸ .refl _, ⟨[], ?_, nofun⟩, fun h s hs => ?_⟩
  · rw [hlhs, List.append_nil]
  · rw [hlhs]
    exact h s (mem_nonterminals_sorted.mp hs)

end Grammar.AddsHelpers

/-! ## Both transformations -/

namespace Grammar

variable {g : Grammar} {order : Registry} {t : Transformation}

theorem addsHelpers_of_removeLeftRecursion (hg : g.WellFormed) (h : (g.removeLeftRecursion order).result = .ok t) :
    AddsHelpers g t.grammar :=
  removeLeftRecursion_induction (fun _ => .refl) .trans (fun hg _ _ hnt hfresh =>
    .of_replaces hg (hg.recursion_replaces hnt) (by rwa [Rule.lhs_recursionTail])) hg h

theorem addsHelpers_of_leftFactor {ε : Type} (hg : g.WellFormed)
    (h : (g.leftFactor order : Reported ε Transformation).result = .ok t) : AddsHelpers g t.grammar :=
  leftFactor_induction (fun _ => .refl) .trans (fun hg hf hnt hfresh order =>
    .of_replaces hg (factor_replaces hg hf hnt hfresh order) (by rwa [Factor.lhs_factored]))
    (fun hg order => .sorted hg order) hg h

/-- **No left recursion is left** where it stood in front. -/
theorem direct_of_removeLeftRecursion (hg : g.WellFormed) (hfront : ∀ r ∈ g.rules, r.RecursionInFront)
    (h : (g.removeLeftRecursion order).result = .ok t) : ∀ r ∈ t.grammar.rules, r.Direct := by
  unfold removeLeftRecursion at h
  obtain ⟨s, hs, h⟩ := Trail.result_bind_eq_ok_iff.mp h
  rw [Trail.result_foldlM] at hs
  cases h
  refine (foldlM_invariant (P := fun s : RecursionRemoval => (∀ x ∈ g.nonterminals, x ∈ s.taken) ∧ ∀ r ∈ s.done, r.Direct)
    hs ⟨fun _ hx => hx, nofun⟩ fun r hr s s' hall hstep => ?_).2
  obtain ⟨htaken, hdone⟩ := hall
  rcases RecursionRemoval.step_cases hstep with ⟨hnil, hdone', htaken'⟩ | ⟨_, _, helper, hnt, hnot, hdone', htaken'⟩
  · rw [hdone', htaken', List.forall_mem_append, List.forall_mem_singleton]
    exact ⟨htaken, hdone, (hfront r hr).direct hnil⟩
  · have hne : helper ≠ r.lhs := by
      rintro rfl
      exact hnot (htaken r.lhs (mem_nonterminals.mpr (.inl (List.mem_map_of_mem hr))))
    have hfresh : ∀ a ∈ r.alternatives, helper ∉ a.symbols :=
      (within_nonterminals hr).not_mem hnt fun hmem => hnot (htaken helper hmem)
    rw [hdone', htaken', List.forall_mem_append, List.forall_mem_cons, List.forall_mem_singleton]
    refine ⟨fun x hx => mem_insertSymbol.mpr (.inl (htaken x hx)), hdone, ?_, ?_⟩
    · exact Rule.direct_recursionHead (hg.proper r hr) (hfront r hr) hne
    · exact Rule.direct_recursionTail hnt hfresh

/-- **Factoring brings no left recursion back.** -/
theorem direct_of_leftFactor {ε : Type} (hg : g.WellFormed) (hdirect : ∀ r ∈ g.rules, r.Direct)
    (h : (g.leftFactor order : Reported ε Transformation).result = .ok t) : ∀ r ∈ t.grammar.rules, r.Direct := by
  refine leftFactor_induction (R := fun g g' => (∀ r ∈ g.rules, r.Direct) → ∀ r ∈ g'.rules, r.Direct) (fun _ _ => id)
    (fun h₁ h₂ h => h₂ (h₁ h)) ?_ ?_ hg h hdirect
  · intro pre post r helper f hg hf hnt hfresh order hall
    obtain ⟨hpre, hr, hpost⟩ : (∀ x ∈ pre, x.Direct) ∧ r.Direct ∧ ∀ x ∈ post, x.Direct := by
      rwa [List.forall_mem_append, List.forall_mem_cons] at hall
    have hnew : ∀ a ∈ r.alternatives, helper ∉ a.symbols :=
      (within_nonterminals (List.mem_append_right pre List.mem_cons_self)).not_mem hnt hfresh
    rw [List.forall_mem_append, List.forall_mem_cons, List.forall_mem_cons]
    exact ⟨hpre, Factor.direct_replaced hf hr order, Factor.direct_factored hf hnt hnew, hpost⟩
  · intro pre post r _ order hall
    rw [List.forall_mem_append, List.forall_mem_cons] at hall ⊢
    exact ⟨hall.1, hall.2.1.sorted order, hall.2.2⟩

theorem prefixFree_of_leftFactor {ε : Type} (hg : g.WellFormed)
    (h : (g.leftFactor order : Reported ε Transformation).result = .ok t) :
    ∀ r ∈ t.grammar.rules, PrefixFree r.alternatives := by
  obtain ⟨segment, hrules, hsegment⟩ := exists_groups_of_leftFactor
    (motive := fun _ r' new => ∀ x ∈ r' :: new, PrefixFree x.alternatives)
    (fun _ hfree => by rwa [List.forall_mem_singleton]) (fun hr hf _ hall => by
      rw [← List.cons_append, List.forall_mem_append, List.forall_mem_singleton]
      exact ⟨hall, hf.prefixFree_factored hr⟩) hg h
  intro x hx
  rw [hrules, List.mem_flatMap] at hx
  obtain ⟨r, hr, hx⟩ := hx
  obtain ⟨_, r', new, heq, hfree⟩ := hsegment r hr
  exact hfree x (heq ▸ hx)

end Grammar

/-- What the rules of a grammar are like after both transformations. -/
structure Grammar.NormalFormOf (g c : Grammar) : Prop where
  /-- No alternative begins with its own left-hand side. -/
  direct : ∀ r ∈ c.rules, ∀ a ∈ r.alternatives, a.symbols.head? ≠ some r.lhs
  /-- No two alternatives of a rule, or of a helper, have anything in common. -/
  prefixFree : ∀ r ∈ c.rules, r.alternatives.Pairwise fun a b => commonLength a.symbols b.symbols = 0
  /-- Each left-hand side has one rule. -/
  nodup_lhs : c.lhsSymbols.Nodup
  /-- The left-hand sides are those of the grammar and the helpers, which are none of its nonterminals. -/
  helpers : ∃ helpers, c.lhsSymbols.Perm (g.lhsSymbols ++ helpers) ∧ ∀ h ∈ helpers, h ∉ g.nonterminals
  /-- Every nonterminal on a right-hand side has a rule. -/
  closed : ∀ r ∈ c.rules, ∀ a ∈ r.alternatives, ∀ s ∈ a.symbols, s.isNonterminal = true → s ∈ c.lhsSymbols
  /-- The left-hand sides of the grammar keep their order. -/
  sublist : g.lhsSymbols.Sublist c.lhsSymbols
  /-- The start symbol stays the same. -/
  start_eq : c.start = g.start

/-- **Both transformations lead to the normal form**: once left recursion is removed, factoring succeeds, whatever the order
of the symbols. -/
theorem Grammar.normalFormOf_of_leftFactor {ε : Type} {steps : List DefinitionStep} {g : Grammar} {before : Registry}
    {u : Transformation} (hg : (Grammar.define steps).result = .ok g)
    (hu : (g.removeLeftRecursion before).result = .ok u) (order : Registry) :
    ∃ t, (u.grammar.leftFactor order : Reported ε Transformation).result = .ok t ∧ g.NormalFormOf t.grammar := by
  have hwell := wellFormed_of_define hg
  have hremoved := addsHelpers_of_removeLeftRecursion hwell hu
  obtain ⟨t, ht⟩ := exists_leftFactor (ε := ε) u.grammar order
  have hall := hremoved.trans (addsHelpers_of_leftFactor hremoved.wellFormed ht)
  have hdirect := direct_of_leftFactor hremoved.wellFormed
    (direct_of_removeLeftRecursion hwell (recursionInFront_of_define hg) hu) ht
  refine ⟨t, ht, ?_, prefixFree_of_leftFactor hremoved.wellFormed ht, hall.wellFormed.nodup_lhs, hall.helpers, ?_,
    hall.sublist, hall.start_eq⟩
  · exact fun r hr a ha => Rule.isLeftRecursive_eq_false_iff.mp (hdirect r hr a ha)
  · exact fun r hr a ha s hs hnt => hall.closed (closed_of_define hg) s
      (mem_nonterminals.mpr (.inr ⟨hnt, r.lhs, a, ⟨r, hr, rfl, ha⟩, hs⟩))

section Colliding

open TableParser.Symbol

/-- A left-recursive rule with a common beginning, beside a nonterminal that is named like its helper. -/
def collidingSteps : List DefinitionStep := [
  .rule (nonterminal "A") [nonterminal "A", terminal "x"] none,
  .rule (nonterminal "A") [nonterminal "A_2", terminal "y"] none,
  .rule (nonterminal "A") [nonterminal "A_2", terminal "z"] none,
  .rule (nonterminal "A_2") [terminal "a", terminal "b"] none,
  .rule (nonterminal "A_2") [terminal "a", terminal "b", terminal "c"] none]

/-- Each of the two rules has helpers behind it, with numbers that are not taken. -/
theorem Grammar.normalFormOf_of_leftFactor_colliding : ∃ g u t, (Grammar.define collidingSteps).result = .ok g ∧
    (g.removeLeftRecursion .fresh).result = .ok u ∧
    (u.grammar.leftFactor u.order : Reported Fault Transformation).result = .ok t ∧ g.NormalFormOf t.grammar ∧
    t.grammar.lhsSymbols =
      [nonterminal "A", nonterminal "A_4", nonterminal "A_3", nonterminal "A_2", nonterminal "A_2_2"] := by
  have heval : ((Grammar.define collidingSteps).result.toOption.any fun g =>
      (g.removeLeftRecursion .fresh).result.toOption.any fun u =>
        (u.grammar.leftFactor u.order : Reported Fault Transformation).result.toOption.any fun t =>
          t.grammar.lhsSymbols =
            [nonterminal "A", nonterminal "A_4", nonterminal "A_3", nonterminal "A_2", nonterminal "A_2_2"]) = true := by
    rfl
  obtain ⟨g, hg, hrest⟩ := exists_ok_of_any heval
  obtain ⟨u, hu, hrest⟩ := exists_ok_of_any hrest
  obtain ⟨t', ht', hlhs⟩ := exists_ok_of_any hrest
  have hnormal : ∃ t, (u.grammar.leftFactor u.order : Reported Fault Transformation).result = .ok t ∧ _ :=
    Grammar.normalFormOf_of_leftFactor hg hu u.order
  obtain ⟨t, ht, hnormal⟩ := hnormal
  obtain rfl := Except.ok.inj (ht.symm.trans ht')
  exact ⟨g, u, t, hg, hu, ht, hnormal, of_decide_eq_true hlhs⟩

end Colliding

end TableParser
