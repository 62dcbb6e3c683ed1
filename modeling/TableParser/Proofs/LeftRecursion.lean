import Mathlib.Data.List.TakeWhile
import TableParser.LL.LeftRecursion
import TableParser.Proofs.Fresh
import TableParser.Proofs.Replacement

/-!
# Left recursion can be removed

Removing left recursion changes neither what a nonterminal derives nor the shape of the grammar
(`Grammar.rewrites_of_removeLeftRecursion`). One rule at a time: what the helper derives can be put behind what the
left-hand side derives, which interprets the helper over the old productions; and can be made longer at its end
(`generates_snoc_of_recursion`), which is how the old productions grow.
-/

namespace TableParser

/-! ## Alternatives of both rules -/

namespace Rule

variable {r : Rule} {helper : Symbol} {a b : Alternative}

theorem mem_recursionHead : b ∈ (r.recursionHead helper).alternatives ↔
    ∃ a ∈ r.baseAlternatives, ⟨(if a.isEpsilon then [] else a.symbols) ++ [helper], a.action⟩ = b := by
  unfold recursionHead
  rw [mem_alternatives_addAll, List.mem_map]
  exact or_iff_left List.not_mem_nil

theorem mem_recursionTail : b ∈ (r.recursionTail helper).alternatives ↔ b = Alternative.epsilon ∨
    ∃ a ∈ r.recursiveAlternatives, a.symbols.tail ≠ [] ∧ ⟨a.symbols.tail ++ [helper], a.action⟩ = b := by
  unfold recursionTail
  rw [mem_alternatives_add, mem_alternatives_addAll, List.mem_map]
  refine or_congr_right ((or_iff_left List.not_mem_nil).trans ?_)
  simp only [List.mem_filter, Bool.not_eq_true', List.isEmpty_eq_false_iff, and_assoc]

@[simp] theorem lhs_recursionHead : (r.recursionHead helper).lhs = r.lhs := lhs_addAll _ _

@[simp] theorem lhs_recursionTail : (r.recursionTail helper).lhs = helper := by
  unfold recursionTail
  rw [lhs_add, lhs_addAll]

theorem mem_alternatives_iff : a ∈ r.alternatives ↔ a ∈ r.recursiveAlternatives ∨ a ∈ r.baseAlternatives := by
  rw [← List.mem_append]
  unfold recursiveAlternatives baseAlternatives
  rw [List.takeWhile_append_dropWhile]

/-- A left-recursive alternative is the left-hand side and something behind it. -/
theorem symbols_eq_of_recursive (ha : a ∈ r.recursiveAlternatives) : a.symbols = r.lhs :: a.symbols.tail := by
  have hrec : r.isLeftRecursive a = true := List.all_eq_true.mp List.all_takeWhile a ha
  obtain ⟨rest, hrest⟩ := List.head?_eq_some_iff.mp (beq_iff_eq.mp hrec)
  rw [hrest, List.tail_cons]

section Proper

variable (hr : r.Proper) (hhelper : helper.isNonterminal = true)
include hr

theorem symbols_eq_of_base (ha : a ∈ r.baseAlternatives) (he : a.isEpsilon = true) : a.symbols = [Symbol.epsilon] := by
  obtain ⟨rest, hrest⟩ := Alternative.isEpsilon_iff.mp he
  exact hr.epsilonAlone a (mem_alternatives_iff.mpr (.inr ha)) (hrest ▸ List.mem_cons_self)

/-- The empty derivation stands neither in front of the helper nor behind the recursion. -/
theorem epsilon_not_mem_of_base (ha : a ∈ r.baseAlternatives) :
    Symbol.epsilon ∉ if a.isEpsilon then [] else a.symbols := by
  split
  · exact List.not_mem_nil
  · rename_i hnot
    intro he
    have heq := hr.epsilonAlone a (mem_alternatives_iff.mpr (.inr ha)) he
    exact hnot (Alternative.isEpsilon_iff.mpr ⟨[], heq⟩)

theorem epsilon_not_mem_of_recursive (ha : a ∈ r.recursiveAlternatives) : Symbol.epsilon ∉ a.symbols.tail := by
  intro he
  have heq := hr.epsilonAlone a (mem_alternatives_iff.mpr (.inl ha)) (List.mem_of_mem_tail he)
  rw [heq] at he
  cases he

include hhelper

theorem proper_recursionHead : (r.recursionHead helper).Proper := by
  refine Proper.addAll ⟨hr.nonterminal_lhs, ?_, ?_, ?_⟩
  · intro b hb
    obtain ⟨a, _, rfl⟩ := List.mem_map.mp hb
    exact List.append_ne_nil_of_right_ne_nil _ (List.cons_ne_nil helper [])
  · intro b hb he
    obtain ⟨a, ha, rfl⟩ := List.mem_map.mp hb
    rcases List.mem_append.mp he with he | he
    · exact absurd he (epsilon_not_mem_of_base hr ha)
    · exact absurd (List.mem_singleton.mp he).symm (Symbol.ne_epsilon_of_isNonterminal hhelper)
  · refine nodup_map_symbols (hr.nodup_symbols.sublist ((List.dropWhile_sublist _).map _)) fun a ha b hb heq => ?_
    have hne : ∀ {c}, c ∈ r.baseAlternatives → c.symbols ≠ [] := fun hc =>
      hr.symbols_ne_nil _ (mem_alternatives_iff.mpr (.inr hc))
    have heq' := List.append_cancel_right heq
    split at heq' <;> rename_i hea <;> split at heq' <;> rename_i heb
    · rw [symbols_eq_of_base hr ha hea, symbols_eq_of_base hr hb heb]
    · exact absurd heq'.symm (hne hb)
    · exact absurd heq' (hne ha)
    · exact heq'

theorem proper_recursionTail : (r.recursionTail helper).Proper := by
  refine Proper.add (Proper.addAll ⟨hhelper, ?_, ?_, ?_⟩) (List.cons_ne_nil _ _) (fun _ => rfl) ?_
  · intro b hb
    obtain ⟨a, _, rfl⟩ := List.mem_map.mp hb
    exact List.append_ne_nil_of_right_ne_nil _ (List.cons_ne_nil helper [])
  · intro b hb he
    obtain ⟨a, ha, rfl⟩ := List.mem_map.mp hb
    rcases List.mem_append.mp he with he | he
    · exact absurd he (epsilon_not_mem_of_recursive hr (List.mem_filter.mp ha).1)
    · exact absurd (List.mem_singleton.mp he).symm (Symbol.ne_epsilon_of_isNonterminal hhelper)
  · refine nodup_map_symbols (hr.nodup_symbols.sublist ((List.filter_sublist.trans
      (List.takeWhile_sublist _)).map _)) fun a ha b hb heq => ?_
    rw [symbols_eq_of_recursive (List.mem_filter.mp ha).1, symbols_eq_of_recursive (List.mem_filter.mp hb).1]
    exact congrArg (r.lhs :: ·) (List.append_cancel_right heq)
  · intro b hb heq
    rcases mem_alternatives_addAll.mp hb with hb | hb
    · obtain ⟨a, ha, rfl⟩ := List.mem_map.mp hb
      have hmem : helper ∈ Alternative.epsilon.symbols := heq ▸ List.mem_append_right _ List.mem_cons_self
      exact absurd (List.mem_singleton.mp hmem) (Symbol.ne_epsilon_of_isNonterminal hhelper)
    · cases hb

/-- **A left-recursive rule is replaced** by one without left recursion and the rule of the helper. -/
theorem recursion_replaces : r.Replaces (r.recursionHead helper) (r.recursionTail helper) := by
  refine ⟨lhs_recursionHead, proper_recursionHead hr hhelper, proper_recursionTail hr hhelper, fun s hs hsl hsh => ?_⟩
  rw [lhs_recursionTail] at hsh
  constructor
  · rintro ⟨b, hb, hsb⟩
    rcases List.mem_append.mp hb with hb | hb
    · obtain ⟨a, ha, rfl⟩ := mem_recursionHead.mp hb
      have hsa := (List.mem_append.mp hsb).resolve_right fun hh => hsh (List.mem_singleton.mp hh)
      split at hsa
      · cases hsa
      · exact ⟨a, mem_alternatives_iff.mpr (.inr ha), hsa⟩
    · rcases mem_recursionTail.mp hb with rfl | ⟨a, ha, _, rfl⟩
      · exact absurd (List.mem_singleton.mp hsb) hs
      · have hsa := (List.mem_append.mp hsb).resolve_right fun hh => hsh (List.mem_singleton.mp hh)
        exact ⟨a, mem_alternatives_iff.mpr (.inl ha), List.mem_of_mem_tail hsa⟩
  · rintro ⟨a, ha, hsa⟩
    rcases mem_alternatives_iff.mp ha with ha | ha
    · rw [symbols_eq_of_recursive ha] at hsa
      have htail := (List.mem_cons.mp hsa).resolve_left hsl
      refine ⟨_, List.mem_append_right _ (mem_recursionTail.mpr (.inr ⟨a, ha, List.ne_nil_of_mem htail, rfl⟩)), ?_⟩
      exact List.mem_append_left _ htail
    · refine ⟨_, List.mem_append_left _ (mem_recursionHead.mpr ⟨a, ha, rfl⟩), List.mem_append_left _ ?_⟩
      split
      · rename_i he
        rw [symbols_eq_of_base hr ha he] at hsa
        exact absurd (List.mem_singleton.mp hsa) hs
      · exact hsa

end Proper

end Rule

/-! ## What is derived -/

section Language

variable {P Q : Productions} {r : Rule} {helper lhs : Symbol} {u v w : List Symbol} {a b : Alternative}

/-- The productions after the left recursion of a rule was removed. -/
abbrev Unrolled (P Q : Productions) (r : Rule) (helper : Symbol) : Prop :=
  Helped P Q r (r.recursionHead helper) (r.recursionTail helper) helper

namespace Unrolled

theorem tail_iff (h : Unrolled P Q r helper) : Q helper b ↔ b = Alternative.epsilon ∨
    ∃ a ∈ r.recursiveAlternatives, a.symbols.tail ≠ [] ∧ ⟨a.symbols.tail ++ [helper], a.action⟩ = b :=
  (h.tail b).trans Rule.mem_recursionTail

theorem generates_nil (h : Unrolled P Q r helper) : Generates Q [helper] [] :=
  .of_alternative (a := Alternative.epsilon) h.nonterminal (h.tail_iff.mpr (.inl rfl)) (.epsilon .nil)

/-- The helper derives what follows the recursion once more. -/
theorem generates_cons (h : Unrolled P Q r helper) (ha : a ∈ r.recursiveAlternatives)
    (hu : Generates Q a.symbols.tail u) (hv : Generates Q [helper] v) : Generates Q [helper] (u ++ v) := by
  by_cases htail : a.symbols.tail = []
  · rw [htail] at hu
    cases hu
    exact hv
  · exact .of_alternative h.nonterminal (h.tail_iff.mpr (.inr ⟨a, ha, htail, rfl⟩)) (hu.append hv)

/-- **What follows the recursion can be put behind** all that the helper derives. -/
theorem generates_snoc (h : Unrolled P Q r helper) (ha : a ∈ r.recursiveAlternatives)
    (hw : Generates Q [helper] w) (hu : Generates Q a.symbols.tail u) : Generates Q [helper] (w ++ u) := by
  -- the helper is read as that for which this holds
  obtain ⟨acts, hread⟩ := hw.interprets (S := fun lhs w _ => Generates Q [lhs] w ∧
    (lhs = helper → Generates Q [helper] (w ++ u))) fun lhs b v acts hl hp hb => by
      refine ⟨.of_alternative hl hp (hb.generates fun _ _ _ _ h => h.1), ?_⟩
      rintro rfl
      rcases h.tail_iff.mp hp with rfl | ⟨c, hc, _, rfl⟩
      · have hnil : Generates Q [Symbol.epsilon] v := hb.generates fun _ _ _ _ h => h.1
        rw [hnil.eq_nil_of_epsilon]
        have := h.generates_cons ha hu h.generates_nil
        rwa [List.append_nil] at this
      · obtain ⟨x, y, _, _, rfl, _, hx, hy⟩ := interprets_append.mp hb
        have hx' : Generates Q c.symbols.tail x := hx.generates fun _ _ _ _ h => h.1
        have hy' := ((interprets_singleton h.nonterminal).mp hy).2 rfl
        rw [List.append_assoc]
        exact h.generates_cons hc hx' hy'
  exact ((interprets_singleton h.nonterminal).mp hread).2 rfl

/-- **The new productions derive** what the old ones do. -/
theorem generates_of_old (h : Unrolled P Q r helper) (hP : EpsilonAlone P) (hl : lhs.isNonterminal = true)
    (hw : Generates P [lhs] w) : Generates Q [lhs] w := by
  obtain ⟨acts, hread⟩ := hw.interprets (S := fun lhs w _ => Generates Q [lhs] w) fun lhs a v acts hl hp ha => by
    have hgen : Generates Q a.symbols v := ha.generates fun _ _ _ _ h => h
    by_cases hlhs : lhs = r.lhs
    · subst hlhs
      rcases Rule.mem_alternatives_iff.mp ((h.old a).mp hp) with hrec | hbase
      · -- the recursion stops somewhere, where the helper takes over
        rw [Rule.symbols_eq_of_recursive hrec] at hgen
        obtain ⟨x, y, rfl, hx, hy⟩ := Generates.of_append (α := [r.lhs]) hgen
        obtain ⟨b, hb, hx⟩ := hx.exists_alternative hl
        obtain ⟨c, hc, rfl⟩ := Rule.mem_recursionHead.mp ((h.head b).mp hb)
        obtain ⟨x, z, rfl, hx, hz⟩ := hx.of_append
        rw [List.append_assoc]
        exact .of_alternative hl hb (hx.append (h.generates_snoc hrec hz hy))
      · have hq : Q r.lhs _ := (h.head _).mpr (Rule.mem_recursionHead.mpr ⟨a, hbase, rfl⟩)
        have hsymbols : Generates Q (if a.isEpsilon then [] else a.symbols) v := by
          split
          · rename_i he
            rw [hP.symbols_eq hp he] at hgen
            rw [hgen.eq_nil_of_epsilon]
            exact .nil
          · exact hgen
        have := Generates.of_alternative hl hq (hsymbols.append h.generates_nil)
        rwa [List.append_nil] at this
    · exact .of_alternative hl ((h.other _ a hlhs (h.ne_helper hp)).mpr hp) hgen
  exact (interprets_singleton hl).mp hread

/-- **The old productions derive** what the new ones do: a helper stands for what can be put behind all that the
left-hand side derives. -/
theorem generates_of_new (h : Unrolled P Q r helper) (hP : EpsilonAlone P) (hl : lhs.isNonterminal = true)
    (hne : lhs ≠ helper) (hw : Generates Q [lhs] w) : Generates P [lhs] w := by
  obtain ⟨acts, hread⟩ := hw.interprets (S := fun lhs w _ => (lhs ≠ helper → Generates P [lhs] w) ∧
    (lhs = helper → ∀ x, Generates P [r.lhs] x → Generates P [r.lhs] (x ++ w))) fun lhs b v acts hl hp hb => by
      have hold : ∀ {α v acts}, helper ∉ α → Interprets (fun lhs w _ => (lhs ≠ helper → Generates P [lhs] w) ∧
          (lhs = helper → ∀ x, Generates P [r.lhs] x → Generates P [r.lhs] (x ++ w))) α v acts → Generates P α v := by
        intro α v acts hα hread
        refine hread.generates fun lhs hmem u _ hu => hu.1 ?_
        rintro rfl
        exact hα hmem
      constructor
      · intro hne
        by_cases hlhs : lhs = r.lhs
        · subst hlhs
          obtain ⟨a, ha, rfl⟩ := Rule.mem_recursionHead.mp ((h.head b).mp hp)
          have hpa : P r.lhs a := (h.old a).mpr (Rule.mem_alternatives_iff.mpr (.inr ha))
          obtain ⟨x, y, _, _, rfl, _, hx, hy⟩ := interprets_append.mp hb
          refine ((interprets_singleton h.nonterminal).mp hy).2 rfl x (.of_alternative hl hpa ?_)
          split at hx
          · rename_i he
            rw [hP.symbols_eq hpa he]
            cases hx
            exact .epsilon .nil
          · exact hold (h.not_mem _ a hpa) hx
        · have hpb := (h.other _ b hlhs hne).mp hp
          exact .of_alternative hl hpb (hold (h.not_mem _ b hpb) hb)
      · rintro rfl x hx
        rcases h.tail_iff.mp hp with rfl | ⟨a, ha, _, rfl⟩
        · have hnil : Generates P [Symbol.epsilon] v := hold (fun hmem => by
            rw [List.mem_singleton.mp hmem] at hl
            cases hl) hb
          rw [hnil.eq_nil_of_epsilon, List.append_nil]
          exact hx
        · have hpa : P r.lhs a := (h.old a).mpr (Rule.mem_alternatives_iff.mpr (.inl ha))
          have hsymbols := Rule.symbols_eq_of_recursive ha
          obtain ⟨y, z, _, _, rfl, _, hy, hz⟩ := interprets_append.mp hb
          have hy' : Generates P a.symbols.tail y := hold (fun hmem => h.not_mem _ a hpa (List.mem_of_mem_tail hmem)) hy
          rw [← List.append_assoc]
          refine ((interprets_singleton h.nonterminal).mp hz).2 rfl (x ++ y) (.of_alternative h.lhs_nonterminal hpa ?_)
          rw [hsymbols]
          exact Generates.append hx hy'
  exact ((interprets_singleton hl).mp hread).1 hne

end Unrolled
end Language

/-! ## Whole grammars -/

/-- A rule without left recursion stays, another one makes way for two rules with a helper that is not taken. -/
theorem RecursionRemoval.step_cases {s s' : RecursionRemoval} {r : Rule} (h : (s.step r).result = .ok s') :
    r.recursiveAlternatives = [] ∧ s'.done = s.done ++ [r] ∧ s'.taken = s.taken ∨
      r.recursiveAlternatives ≠ [] ∧ r.baseAlternatives ≠ [] ∧ ∃ helper, helper.isNonterminal = true ∧
        helper ∉ s.taken ∧ s'.done = s.done ++ [r.recursionHead helper, r.recursionTail helper] ∧
        s'.taken = insertSymbol s.taken helper := by
  unfold step at h
  split at h
  · rename_i hrecursive
    cases h
    exact .inl ⟨List.isEmpty_iff.mp hrecursive, rfl, rfl⟩
  · rename_i hrecursive
    split at h
    · cases h
    · rename_i hbase
      obtain ⟨_, _, h⟩ := Trail.result_bind_eq_ok_iff.mp h
      obtain ⟨_, _, h⟩ := Trail.result_bind_eq_ok_iff.mp h
      cases h
      refine .inr ⟨fun hnil => hrecursive (List.isEmpty_iff.mpr hnil), fun hnil => hbase (List.isEmpty_iff.mpr hnil),
        _, rfl, ?_, rfl, rfl⟩
      exact Transformation.helper_freshIndex_not_mem r.lhs s.taken 2

namespace Grammar

section Unroll

variable {pre post : List Rule} {r : Rule} {helper : Symbol}

/-- The left recursion of a proper rule makes way for a helper. -/
theorem WellFormed.recursion_replaces (hg : (⟨pre ++ r :: post⟩ : Grammar).WellFormed)
    (hnt : helper.isNonterminal = true) : r.Replaces (r.recursionHead helper) (r.recursionTail helper) :=
  Rule.recursion_replaces (hg.proper r (List.mem_append_right _ List.mem_cons_self)) hnt

variable (hg : (⟨pre ++ r :: post⟩ : Grammar).WellFormed) (hnt : helper.isNonterminal = true)
  (hfresh : helper ∉ (⟨pre ++ r :: post⟩ : Grammar).nonterminals)
include hg hnt hfresh

theorem unrolled_of_fresh : Unrolled (⟨pre ++ r :: post⟩ : Grammar).Produces
    (⟨pre ++ r.recursionHead helper :: r.recursionTail helper :: post⟩ : Grammar).Produces r helper := by
  have hH := helped_of_replaces hg (hg.recursion_replaces hnt) (by rwa [Rule.lhs_recursionTail])
  rwa [Rule.lhs_recursionTail] at hH

/-- **Unrolling the left recursion of one rule** rewrites the grammar. -/
theorem rewrites_of_unroll : Grammar.Rewrites ⟨pre ++ r :: post⟩
    ⟨pre ++ r.recursionHead helper :: r.recursionTail helper :: post⟩ := by
  refine ⟨reshapes_of_replaces hg (hg.recursion_replaces hnt) (by rwa [Rule.lhs_recursionTail]), fun lhs hlhs w => ?_⟩
  have hH := unrolled_of_fresh hg hnt hfresh
  have hl := hg.isNonterminal_of_mem hlhs
  refine ⟨hH.generates_of_old hg.epsilonAlone hl, hH.generates_of_new hg.epsilonAlone hl ?_⟩
  rintro rfl
  exact hfresh hlhs

end Unroll

/-- **Left recursion is removed rule by rule**: what unrolling one rule does to a grammar, the removal does. -/
theorem removeLeftRecursion_induction {R : Grammar → Grammar → Prop} (hrefl : ∀ g, g.WellFormed → R g g)
    (htrans : ∀ {g g' g''}, R g g' → R g' g'' → R g g'')
    (hunroll : ∀ {pre post r helper}, (⟨pre ++ r :: post⟩ : Grammar).WellFormed → r.recursiveAlternatives ≠ [] →
      r.baseAlternatives ≠ [] → helper.isNonterminal = true → helper ∉ (⟨pre ++ r :: post⟩ : Grammar).nonterminals →
      R ⟨pre ++ r :: post⟩ ⟨pre ++ r.recursionHead helper :: r.recursionTail helper :: post⟩)
    {g : Grammar} {order : Registry} {t : Transformation} (hg : g.WellFormed)
    (h : (g.removeLeftRecursion order).result = .ok t) : R g t.grammar := by
  unfold removeLeftRecursion at h
  obtain ⟨s, hs, h⟩ := Trail.result_bind_eq_ok_iff.mp h
  rw [Trail.result_foldlM] at hs
  cases h
  refine (rewrites_of_foldlM (R := fun g g' => g'.WellFormed ∧ R g g') RecursionRemoval.done RecursionRemoval.taken
    (s := ⟨[], g.nonterminals, order, false⟩) (fun g hg => ⟨hg, hrefl g hg⟩) (fun h₁ h₂ => ⟨h₂.1, htrans h₁.2 h₂.2⟩)
    (fun h => h.1) ?_ hg (fun _ hx => hx) hs).2
  intro s s' r post hg htaken h
  rcases RecursionRemoval.step_cases h with ⟨_, hdone, htaken'⟩ | ⟨hrecursive, hbase, helper, hnt, hnot, hdone, htaken'⟩
  · rw [hdone, htaken', List.append_assoc, List.singleton_append]
    exact ⟨⟨hg, hrefl _ hg⟩, htaken⟩
  · have hfresh : helper ∉ (⟨s.done ++ r :: post⟩ : Grammar).nonterminals := fun hmem => hnot (htaken helper hmem)
    rw [hdone, htaken', List.append_assoc]
    refine ⟨⟨(rewrites_of_unroll hg hnt hfresh).wellFormed, hunroll hg hrecursive hbase hnt hfresh⟩, fun x hx => ?_⟩
    have hx := (mem_nonterminals_of_replaces hg (hg.recursion_replaces hnt) (by rwa [Rule.lhs_recursionTail])).mp hx
    rw [Rule.lhs_recursionTail] at hx
    exact mem_insertSymbol.mpr (hx.imp_left (htaken x))

/-- **Removing the left recursion of a grammar** keeps what every nonterminal derives, and the shape of the grammar. -/
theorem rewrites_of_removeLeftRecursion {g : Grammar} {order : Registry} {t : Transformation} (hg : g.WellFormed)
    (h : (g.removeLeftRecursion order).result = .ok t) : Grammar.Rewrites g t.grammar :=
  removeLeftRecursion_induction (fun _ => .refl) .trans (fun hg _ _ => rewrites_of_unroll hg) hg h

end Grammar

/-! ## When it succeeds -/

theorem Rule.baseAlternatives_eq_nil_iff {r : Rule} :
    r.baseAlternatives = [] ↔ ∀ a ∈ r.alternatives, r.isLeftRecursive a = true := List.dropWhile_eq_nil_iff

/-- The rule recurs on the left only if it has another alternative to stop the recursion. -/
def Rule.Stops (r : Rule) : Prop :=
  (∃ a ∈ r.alternatives, r.isLeftRecursive a = true) → ∃ a ∈ r.alternatives, r.isLeftRecursive a = false

/-- A rule is treated unless all it has are left-recursive alternatives. -/
theorem RecursionRemoval.exists_step_iff {s : RecursionRemoval} {r : Rule} :
    (∃ s', (s.step r).result = .ok s') ↔ r.Stops := by
  by_cases hbase : r.baseAlternatives = []
  · have hall := Rule.baseAlternatives_eq_nil_iff.mp hbase
    have hfront : r.recursiveAlternatives = r.alternatives := List.takeWhile_eq_self_iff.mpr hall
    unfold step Rule.Stops
    rw [hfront, hbase]
    cases halt : r.alternatives with
    | nil => exact iff_of_true ⟨_, rfl⟩ fun ⟨a, ha, _⟩ => absurd ha List.not_mem_nil
    | cons a rest =>
      rw [halt] at hall
      refine iff_of_false ?_ fun hstops => ?_
      · rintro ⟨s', h⟩
        cases h
      · obtain ⟨b, hb, hrec⟩ := hstops ⟨a, List.mem_cons_self, hall a List.mem_cons_self⟩
        rw [hall b hb] at hrec
        cases hrec
  · have hstops : r.Stops := fun _ => by
      by_contra hnone
      refine hbase (Rule.baseAlternatives_eq_nil_iff.mpr fun a ha => ?_)
      by_contra hrec
      exact hnone ⟨a, ha, Bool.eq_false_iff.mpr hrec⟩
    refine iff_of_true ?_ hstops
    unfold step
    split
    · exact ⟨_, rfl⟩
    · rw [List.isEmpty_eq_false_iff.mpr hbase]
      exact ⟨_, rfl⟩

/-- **Left recursion is removed from a grammar** unless some rule has nothing but left-recursive alternatives. -/
theorem Grammar.exists_removeLeftRecursion_iff {g : Grammar} {order : Registry} :
    (∃ t, (g.removeLeftRecursion order).result = .ok t) ↔ ∀ r ∈ g.rules, r.Stops := by
  unfold removeLeftRecursion
  rw [← exists_foldlM_iff (f := fun s r => (RecursionRemoval.step s r).result) fun s r =>
    RecursionRemoval.exists_step_iff (s := s), Trail.result_bind, Trail.result_foldlM]
  simp only [bind_eq_ok_iff]
  constructor
  · rintro ⟨_, s, hs, _⟩
    exact ⟨s, hs⟩
  · rintro ⟨s, hs⟩
    exact ⟨_, s, hs, rfl⟩

/-- **Removing left recursion keeps the language of every nonterminal.** It succeeds if each rule that recurs on the left
has an alternative that does not, and then the nonterminals derive what they did. -/
theorem Grammar.generates_iff_of_removeLeftRecursion {steps : List DefinitionStep} {g : Grammar} {order : Registry}
    (hg : (Grammar.define steps).result = .ok g) :
    ((∃ t, (g.removeLeftRecursion order).result = .ok t) ↔ ∀ r ∈ g.rules, r.Stops) ∧
      ∀ t, (g.removeLeftRecursion order).result = .ok t → ∀ lhs ∈ g.nonterminals, ∀ w,
        Generates g.Produces [lhs] w ↔ Generates t.grammar.Produces [lhs] w :=
  ⟨exists_removeLeftRecursion_iff, fun _ h => (rewrites_of_removeLeftRecursion (wellFormed_of_define hg) h).generates_iff⟩

section Stammering

open TableParser.Symbol

/-- Rules for a nonterminal that derives itself, recurs twice and may derive nothing, beside one named like its helper. -/
def stammeringSteps : List DefinitionStep := [
  .rule (nonterminal "A") [epsilon] none,
  .rule (nonterminal "A") [nonterminal "A"] (some "same"),
  .rule (nonterminal "A") [nonterminal "A", nonterminal "A", terminal "x"] none,
  .rule (nonterminal "A") [nonterminal "A_2"] none,
  .rule (nonterminal "A_2") [terminal "y"] none]

/-- The rules with the left-recursive alternatives in front. -/
def stammering : Grammar := ⟨[
  ⟨nonterminal "A", [⟨[nonterminal "A", nonterminal "A", terminal "x"], none⟩, ⟨[nonterminal "A"], some "same"⟩,
    ⟨[epsilon], none⟩, ⟨[nonterminal "A_2"], none⟩]⟩,
  ⟨nonterminal "A_2", [⟨[terminal "y"], none⟩]⟩]⟩

/-- The rules without left recursion. -/
def unrolledStammering : Grammar := ⟨[
  ⟨nonterminal "A", [⟨[nonterminal "A_3"], none⟩, ⟨[nonterminal "A_2", nonterminal "A_3"], none⟩]⟩,
  ⟨nonterminal "A_3", [⟨[nonterminal "A", terminal "x", nonterminal "A_3"], none⟩, ⟨[epsilon], none⟩]⟩,
  ⟨nonterminal "A_2", [⟨[terminal "y"], none⟩]⟩]⟩

/-- The helper of a nonterminal that derives itself gets a new name, and what it helps derives the same as before. -/
theorem generates_iff_of_removeLeftRecursion_stammering : (Grammar.define stammeringSteps).result = .ok stammering ∧
    ∃ t, (stammering.removeLeftRecursion .fresh).result = .ok t ∧ t.grammar = unrolledStammering ∧
      ∀ w, Generates stammering.Produces [nonterminal "A"] w ↔
        Generates unrolledStammering.Produces [nonterminal "A"] w := by
  have hg : (Grammar.define stammeringSteps).result = .ok stammering := by rfl
  have heval : ((stammering.removeLeftRecursion .fresh).result.toOption.any fun t =>
      t.grammar = unrolledStammering) = true := by rfl
  obtain ⟨t, ht, hrules⟩ := exists_ok_of_any heval
  have hrules : t.grammar = unrolledStammering := of_decide_eq_true hrules
  refine ⟨hg, t, ht, hrules, fun w => ?_⟩
  rw [← hrules]
  exact (Grammar.generates_iff_of_removeLeftRecursion hg).2 t ht _ (by decide) w

end Stammering

end TableParser
