import TableParser.Proofs.ViablePrefix

/-!
# What completes a string to a sentence

If every nonterminal on a way down from the start symbol derives a terminal string (`Productive`), whatever a valid item
has recognized can be completed to a sentence (`LR.exists_completion`), and the terminals to come are then in the FOLLOW
sets of the nonterminals before them (`LR.Completes`).

* **Ways down** are followed alternative by alternative (`LR.Completes.along`).
* **Unambiguous nonterminals** (`LR.Leads.unique_derivation`): if no two derivation trees of the start symbol have the
  same leaves, no two derivation trees of a nonterminal on a way down have.
* **Augmented grammars** derive the same strings, and lead down the same ways but for the first step.
-/

namespace TableParser

open FollowSets (lookahead)

/-- Every nonterminal on a way down from the start symbol derives a terminal string. -/
def Productive (P : Productions) (start : Symbol) : Prop :=
  ∀ γ lhs, LR.Leads P start γ lhs → ∃ w, Generates P [lhs] w

namespace LR

variable {P : Productions} {start lhs s : Symbol} {a : Alternative} {α β γ r w y : List Symbol}

theorem Leads.isNonterminal (h : Leads P start γ lhs) (hstart : start.isNonterminal = true) :
    lhs.isNonterminal = true := by
  cases h with
  | start => exact hstart
  | down _ _ _ hs => exact hs

theorem Leads.mem_nonterminals {g : Grammar} (h : Leads g.Produces start γ lhs) (hg : g.WellFormed)
    (hstart : g.start = .ok start) : lhs ∈ g.nonterminals := by
  cases h with
  | start => exact hg.start_mem_nonterminals hstart
  | @down _ _ _ lhs _ a _ hp ha hs =>
    exact Grammar.mem_nonterminals.mpr (.inr ⟨hs, lhs, a, hp, ha ▸ List.mem_append_right _ List.mem_cons_self⟩)

/-- What is left of an alternative on the way derives a terminal string. -/
theorem Leads.exists_generates (h : Leads P start γ lhs) (hprod : Productive P start) (hp : P lhs a)
    (ha : a.symbols = α ++ β) : ∃ w, Generates P β w := by
  refine Generates.exists_of_nonterminals fun s hs hnt => ?_
  obtain ⟨β, γ, rfl⟩ := List.append_of_mem hs
  exact hprod _ s (h.down hp (by rw [ha, List.append_assoc]) hnt)

/-! ## Completions -/

/-- The terminals make sentences of what the string derives, and may follow each nonterminal of the string, behind what
the symbols between derive. -/
structure Completes (P : Productions) (follow : FollowSets) (start : Symbol) (γ z : List Symbol) : Prop where
  sentence : ∀ v, Generates P γ v → Generates P [start] (v ++ z)
  follows : ∀ α s β v, γ = α ++ s :: β → s.isNonterminal = true → Generates P β v →
    lookahead (v ++ z) ∈ SymbolSets.members follow s

variable {first : FirstSets} {follow : FollowSets}

theorem Completes.followed (h : Completes P follow start γ z) : FollowSets.Followed P follow γ z := h.follows

/-- **Along an alternative**: what completes the string before it, whatever its left-hand side derives, completes the
string with the first symbols of the alternative, behind what its other symbols derive. -/
theorem Completes.along (hfollow : FollowSets.Closed first follow P) (hfirst : FirstSets.Closed first P)
    (h : ∀ w, Generates P [lhs] w → Completes P follow start γ (w ++ r))
    (hr : lookahead r ∈ SymbolSets.members follow lhs) (hl : lhs.isNonterminal = true) (hp : P lhs a)
    (ha : a.symbols = α ++ β) (hy : Generates P β y) : Completes P follow start (γ ++ α) (y ++ r) := by
  have hlhs : ∀ v, Generates P α v → Generates P [lhs] (v ++ y) := fun v hv =>
    .of_alternative hl hp (ha ▸ hv.append hy)
  constructor
  · intro v hv
    obtain ⟨v₁, v₂, rfl, h₁, h₂⟩ := hv.of_append
    have hsentence := (h _ (hlhs v₂ h₂)).sentence v₁ h₁
    rwa [List.append_assoc v₁, ← List.append_assoc v₂]
  · intro α' s β' v heq hs hv
    rcases split_of_append_eq heq.symm with ⟨mid, hγ, rfl⟩ | ⟨mid, _, rfl⟩
    · -- the nonterminal stands before the alternative
      obtain ⟨v₁, v₂, rfl, h₁, h₂⟩ := hv.of_append
      have hmem := (h _ (hlhs v₂ h₂)).follows α' s mid v₁ hγ hs h₁
      rwa [List.append_assoc v₁, ← List.append_assoc v₂]
    · -- it stands in the alternative
      rw [List.append_assoc, List.cons_append] at ha
      rw [← List.append_assoc]
      exact hfollow.lookahead_mem hfirst hp ha hs (hv.append hy) hr

variable {g : Grammar} {i : Item}

section Completions

variable (hfollow : FollowSets.Closed first follow P) (hfirst : FirstSets.Closed first P)
  (hstart : start.isNonterminal = true) (hend : Symbol.endMarker ∈ SymbolSets.members follow start)
  (hprod : Productive P start)
include hfollow hfirst hstart hend hprod

/-- **What completes a way down**: the same terminals, whatever the nonterminal at its end derives. -/
theorem Leads.exists_context (h : Leads P start γ lhs) : ∃ r, lookahead r ∈ SymbolSets.members follow lhs ∧
    ∀ w, Generates P [lhs] w → Completes P follow start γ (w ++ r) := by
  induction h with
  | start =>
    refine ⟨[], hend, fun w hw => ⟨fun v hv => ?_, fun α s β v heq _ _ => ?_⟩⟩
    · cases hv
      rwa [List.nil_append, List.append_nil]
    · cases α <;> cases heq
  | @down γ α β lhs s a hlead hp ha hs ih =>
    obtain ⟨r, hr, hctx⟩ := ih
    have hl := hlead.isNonterminal hstart
    have hsplit : a.symbols = (α ++ [s]) ++ β := by rw [ha, List.append_assoc, List.singleton_append]
    obtain ⟨v, hv⟩ := hlead.exists_generates hprod hp hsplit
    refine ⟨v ++ r, hfollow.lookahead_mem hfirst hp ha hs hv hr, fun w hw => ?_⟩
    rw [← List.append_assoc]
    exact Completes.along hfollow hfirst hctx hr hl hp ha (hw.append hv)

end Completions

/-- **What valid items have recognized can be completed.** -/
theorem exists_completion (hfollow : FollowSets.Closed first follow g.Produces)
    (hfirst : FirstSets.Closed first g.Produces) (hstart : start.isNonterminal = true)
    (hend : Symbol.endMarker ∈ SymbolSets.members follow start) (hprod : Productive g.Produces start)
    (h : i.ValidFor g start γ) : ∃ z, Completes g.Produces follow start γ z := by
  obtain ⟨δ, rule, b, hlead, ht, _, _, rfl⟩ := h
  have hp := (Grammar.produces_of_target? ht).2
  have hsplit := (List.take_append_drop i.dot.toNat b.symbols).symm
  obtain ⟨r, hr, hctx⟩ := hlead.exists_context hfollow hfirst hstart hend hprod
  obtain ⟨y, hy⟩ := hlead.exists_generates hprod hp hsplit
  exact ⟨y ++ r, Completes.along hfollow hfirst hctx hr (hlead.isNonterminal hstart) hp hsplit hy⟩

/-! ## Unambiguous nonterminals -/

/-- **Trees are known by their leaves all the way down** if those of the start symbol are. -/
theorem Leads.unique_derivation (halone : EpsilonAlone P) (hne : ∀ lhs a, P lhs a → a.symbols ≠ [])
    (hstart : start.isNonterminal = true) (hprod : Productive P start)
    (hunique : ∀ d₁ d₂ : Derivation Symbol, d₁.Valid P → d₂.Valid P → d₁.symbol = start → d₂.symbol = start →
      d₁.yield = d₂.yield → d₁ = d₂)
    (h : Leads P start γ lhs) {d₁ d₂ : Derivation Symbol} (h₁ : d₁.Valid P) (h₂ : d₂.Valid P) (hs₁ : d₁.symbol = lhs)
    (hs₂ : d₂.symbol = lhs) (hyield : d₁.yield = d₂.yield) : d₁ = d₂ := by
  induction h generalizing d₁ d₂ with
  | start => exact hunique d₁ d₂ h₁ h₂ hs₁ hs₂ hyield
  | @down γ α β lhs s a hlead hp ha hs ih =>
    have he := halone.isEpsilon_eq_false hp (ha ▸ List.mem_append_right α List.mem_cons_self) hs
    have hnot := halone.not_mem hp he
    rw [ha, List.mem_append, List.mem_cons, not_or, not_or] at hnot
    -- trees for the symbols before and behind
    obtain ⟨u, hu⟩ : ∃ u, Generates P α u := by
      obtain ⟨w, hw⟩ := hlead.exists_generates hprod hp (α := []) (β := α ++ s :: β) ha
      obtain ⟨u, _, _, hu, _⟩ := hw.of_append
      exact ⟨u, hu⟩
    obtain ⟨v, hv⟩ := hlead.exists_generates hprod hp (α := α ++ [s]) (β := β)
      (by rw [ha, List.append_assoc, List.singleton_append])
    obtain ⟨before, hbefore, _, hbv⟩ := exists_derivations halone hne hu hnot.1
    obtain ⟨behind, hbehind, _, hbv'⟩ := exists_derivations halone hne hv hnot.2.2
    have hnode : ∀ d : Derivation Symbol, d.Valid P → d.symbol = s →
        (Derivation.node lhs (before ++ d :: behind)).Valid P := by
      intro d hd hds
      refine .inner (hlead.isNonterminal hstart) hp he ?_ ?_ fun e hmem => ?_
      · exact List.append_ne_nil_of_right_ne_nil before (List.cons_ne_nil d behind)
      · rw [List.map_append, List.map_cons, hbefore, hbehind, hds, ha]
      · rcases List.mem_append.mp hmem with hmem | hmem
        · exact hbv e hmem
        · rcases List.mem_cons.mp hmem with rfl | hmem
          · exact hd
          · exact hbv' e hmem
    have hyield' : (Derivation.node lhs (before ++ d₁ :: behind)).yield =
        (Derivation.node lhs (before ++ d₂ :: behind)).yield := by
      simp only [Derivation.yield, Derivation.yieldAll_append, Derivation.yieldAll, hyield]
    have hsame := ih (hnode d₁ h₁ hs₁) (hnode d₂ h₂ hs₂) rfl rfl hyield'
    have hforest := (Derivation.node.inj hsame).2
    exact (List.cons.inj (List.append_cancel_left hforest)).1

end LR

/-- It is enough that all nonterminals of a grammar derive terminal strings. -/
theorem Productive.of_nonterminals {g : Grammar} {start : Symbol} (hg : g.WellFormed) (hstart : g.start = .ok start)
    (h : ∀ lhs ∈ g.nonterminals, ∃ w, Generates g.Produces [lhs] w) : Productive g.Produces start :=
  fun _ lhs hlead => h lhs (hlead.mem_nonterminals hg hstart)

/-! ## Augmented grammars -/

namespace Grammar.Augmented

open LR (Leads)

variable {g g' : Grammar} {start accept lhs : Symbol} {γ α w : List Symbol}

/-- The ways down from the new start symbol go on as those from the old one. -/
theorem leads (h : Augmented g g' start accept) (hl : Leads g'.Produces accept γ lhs) :
    γ = [] ∧ lhs = accept ∨ Leads g.Produces start γ lhs := by
  induction hl with
  | start => exact .inl ⟨rfl, rfl⟩
  | @down γ α β lhs s a _ hp ha hs ih =>
    refine .inr ?_
    rcases h.produces_iff.mp hp with ⟨rfl, rfl⟩ | hp
    · rcases ih with ⟨rfl, _⟩ | hlead
      · obtain ⟨rfl, rfl, _⟩ : α = [] ∧ s = start ∧ β = [] := by simpa [List.singleton_eq_append_iff] using ha
        exact .start
      · exact absurd (hlead.mem_nonterminals h.wellFormed h.start_eq) h.fresh
    · rcases ih with ⟨_, rfl⟩ | hlead
      · exact absurd rfl (h.ne_accept hp)
      · exact hlead.down hp ha hs

/-- What is derived without the new start symbol is derived in the old grammar. -/
theorem generates (h : Augmented g g' start accept) (hw : Generates g'.Produces α w) (hα : accept ∉ α) :
    Generates g.Produces α w := by
  induction hw with
  | nil => exact .nil
  | epsilon _ ih => exact .epsilon (ih fun hm => hα (List.mem_cons_of_mem _ hm))
  | terminal ht hs _ ih => exact .terminal ht hs (ih fun hm => hα (List.mem_cons_of_mem _ hm))
  | nonterminal hl hp _ _ ih₁ ih₂ =>
    have hne : _ ≠ accept := fun heq => hα (heq ▸ List.mem_cons_self)
    refine .nonterminal hl ((h.produces_iff.mp hp).resolve_left fun hnew => hne hnew.1) (ih₁ fun hm => ?_)
      (ih₂ fun hm => hα (List.mem_cons_of_mem _ hm))
    exact h.accept_not_mem_rhsSymbols (Grammar.mem_rhsSymbols.mpr ⟨_, _, hp, hm⟩)

/-- **Both start symbols derive the same strings.** -/
theorem generates_start_iff (h : Augmented g g' start accept) :
    Generates g'.Produces [accept] w ↔ Generates g.Produces [start] w := by
  have hp : g'.Produces accept ⟨[start], none⟩ := h.produces_iff.mpr (.inl ⟨rfl, rfl⟩)
  constructor
  · intro hw
    obtain ⟨a, ha, hw⟩ := hw.exists_alternative h.nonterminal
    rcases h.produces_iff.mp ha with ⟨_, rfl⟩ | ha
    · refine h.generates hw fun hm => ?_
      exact h.accept_not_mem_rhsSymbols (Grammar.mem_rhsSymbols.mpr ⟨_, _, hp, hm⟩)
    · exact absurd rfl (h.ne_accept ha)
  · intro hw
    exact .of_alternative h.nonterminal hp (hw.mono fun _ _ hp => h.produces_iff.mpr (.inr hp))

theorem productive (h : Augmented g g' start accept) (hprod : Productive g.Produces start) :
    Productive g'.Produces accept := by
  intro γ lhs hlead
  rcases h.leads hlead with ⟨_, rfl⟩ | hlead
  · obtain ⟨w, hw⟩ := hprod [] start .start
    exact ⟨w, h.generates_start_iff.mpr hw⟩
  · obtain ⟨w, hw⟩ := hprod γ lhs hlead
    exact ⟨w, hw.mono fun _ _ hp => h.produces_iff.mpr (.inr hp)⟩

end Grammar.Augmented
end TableParser
