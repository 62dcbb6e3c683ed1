import TableParser.Proofs.Fold
import TableParser.Proofs.Interpretation
import TableParser.Proofs.WellFormed

/-!
# Replacing rules

Grammars are transformed rule by rule: a rule makes way for another one for the same left-hand side, and for the rule of
a new helper (`Rule.Replaces`). What the productions are afterwards is `Helped`; that nothing gets lost of the symbols
is `Grammar.Reshapes`. Transformations that treat the rules one after the other compose (`rewrites_of_foldlM`).
-/

namespace TableParser

/-! ## Grammars of the same shape -/

/-- The second grammar is well-formed, with the start symbol, the nonterminals and the terminals of the first one. -/
structure Grammar.Reshapes (g g' : Grammar) : Prop where
  wellFormed : g'.WellFormed
  start_eq : g'.start = g.start
  subset : ∀ s ∈ g.nonterminals, s ∈ g'.nonterminals
  terminals_iff : ∀ s, s ≠ Symbol.epsilon → (s ∈ g'.terminals ↔ s ∈ g.terminals)

namespace Grammar.Reshapes

variable {g g' g'' : Grammar}

theorem refl (h : g.WellFormed) : Reshapes g g := ⟨h, rfl, fun _ hs => hs, fun _ _ => Iff.rfl⟩

theorem trans (h₁ : Reshapes g g') (h₂ : Reshapes g' g'') : Reshapes g g'' where
  wellFormed := h₂.wellFormed
  start_eq := h₂.start_eq.trans h₁.start_eq
  subset s hs := h₂.subset s (h₁.subset s hs)
  terminals_iff s hs := (h₂.terminals_iff s hs).trans (h₁.terminals_iff s hs)

end Grammar.Reshapes

/-- The second grammar has the shape of the first one, and its nonterminals derive the same terminal strings. -/
structure Grammar.Rewrites (g g' : Grammar) : Prop extends Grammar.Reshapes g g' where
  generates_iff : ∀ lhs ∈ g.nonterminals, ∀ w, Generates g.Produces [lhs] w ↔ Generates g'.Produces [lhs] w

namespace Grammar.Rewrites

variable {g g' g'' : Grammar}

theorem refl (h : g.WellFormed) : Rewrites g g := ⟨.refl h, fun _ _ _ => Iff.rfl⟩

theorem trans (h₁ : Rewrites g g') (h₂ : Rewrites g' g'') : Rewrites g g'' where
  toReshapes := h₁.toReshapes.trans h₂.toReshapes
  generates_iff lhs hl w := (h₁.generates_iff lhs hl w).trans (h₂.generates_iff lhs (h₁.subset lhs hl) w)

end Grammar.Rewrites

/-- The second grammar has the shape of the first one, and its nonterminals derive the same terminal strings with the
same actions. -/
structure Grammar.Retranslates (g g' : Grammar) : Prop extends Grammar.Reshapes g g' where
  translates_iff : ∀ lhs ∈ g.nonterminals, ∀ w acts,
    Translates g.Produces [lhs] w acts ↔ Translates g'.Produces [lhs] w acts

namespace Grammar.Retranslates

variable {g g' g'' : Grammar}

theorem refl (h : g.WellFormed) : Retranslates g g := ⟨.refl h, fun _ _ _ _ => Iff.rfl⟩

theorem trans (h₁ : Retranslates g g') (h₂ : Retranslates g' g'') : Retranslates g g'' where
  toReshapes := h₁.toReshapes.trans h₂.toReshapes
  translates_iff lhs hl w acts :=
    (h₁.translates_iff lhs hl w acts).trans (h₂.translates_iff lhs (h₁.subset lhs hl) w acts)

/-- With the actions goes what is derived. -/
theorem rewrites (h : Retranslates g g') : Rewrites g g' where
  toReshapes := h.toReshapes
  generates_iff lhs hl w := by
    rw [Generates.iff_translates, Generates.iff_translates]
    exact exists_congr fun acts => h.translates_iff lhs hl w acts

end Grammar.Retranslates

/-! ## One rule for another and a helper -/

/-- What it takes for a rule and the rule of a helper to replace a rule. -/
structure Rule.Replaces (r r' h : Rule) : Prop where
  lhs_eq : r'.lhs = r.lhs
  proper : r'.Proper
  helper_proper : h.Proper
  symbols_iff : ∀ s, s ≠ Symbol.epsilon → s ≠ r.lhs → s ≠ h.lhs →
    ((∃ a ∈ r'.alternatives ++ h.alternatives, s ∈ a.symbols) ↔ ∃ a ∈ r.alternatives, s ∈ a.symbols)

/-- The productions after a rule was replaced by another one and the rule of a helper. -/
structure Helped (P Q : Productions) (r r' h : Rule) (helper : Symbol) : Prop where
  lhs_nonterminal : r.lhs.isNonterminal = true
  nonterminal : helper.isNonterminal = true
  ne : helper ≠ r.lhs
  old : ∀ a, P r.lhs a ↔ a ∈ r.alternatives
  head : ∀ a, Q r.lhs a ↔ a ∈ r'.alternatives
  tail : ∀ a, Q helper a ↔ a ∈ h.alternatives
  other : ∀ lhs a, lhs ≠ r.lhs → lhs ≠ helper → (Q lhs a ↔ P lhs a)
  not_produces : ∀ a, ¬P helper a
  not_mem : ∀ lhs a, P lhs a → helper ∉ a.symbols

theorem Helped.ne_helper {P Q : Productions} {r r' h : Rule} {helper lhs : Symbol} {a : Alternative}
    (hH : Helped P Q r r' h helper) (hp : P lhs a) : lhs ≠ helper := by
  rintro rfl
  exact hH.not_produces a hp

section Replaced

variable {pre post : List Rule} {r r' h : Rule} {lhs s : Symbol} {a : Alternative}

theorem produces_append (rules : List Rule) : (⟨pre ++ (rules ++ post)⟩ : Grammar).Produces lhs a ↔
    (⟨rules⟩ : Grammar).Produces lhs a ∨ (⟨pre ++ post⟩ : Grammar).Produces lhs a := by
  simp only [Grammar.Produces, List.mem_append]
  constructor
  · rintro ⟨x, hx | hx | hx, hxa⟩
    · exact .inr ⟨x, .inl hx, hxa⟩
    · exact .inl ⟨x, hx, hxa⟩
    · exact .inr ⟨x, .inr hx, hxa⟩
  · rintro (⟨x, hx, hxa⟩ | ⟨x, hx | hx, hxa⟩)
    · exact ⟨x, .inr (.inl hx), hxa⟩
    · exact ⟨x, .inl hx, hxa⟩
    · exact ⟨x, .inr (.inr hx), hxa⟩

theorem produces_singleton : (⟨[r]⟩ : Grammar).Produces lhs a ↔ lhs = r.lhs ∧ a ∈ r.alternatives := by
  constructor
  · rintro ⟨x, hx, rfl, ha⟩
    rw [List.mem_singleton.mp hx] at ha ⊢
    exact ⟨rfl, ha⟩
  · rintro ⟨rfl, ha⟩
    exact ⟨r, List.mem_singleton.mpr rfl, rfl, ha⟩

theorem produces_pair : (⟨[r', h]⟩ : Grammar).Produces lhs a ↔
    lhs = r'.lhs ∧ a ∈ r'.alternatives ∨ lhs = h.lhs ∧ a ∈ h.alternatives := by
  have hsplit : (⟨[] ++ ([r'] ++ [h])⟩ : Grammar).Produces lhs a ↔
      (⟨[r']⟩ : Grammar).Produces lhs a ∨ (⟨[] ++ [h]⟩ : Grammar).Produces lhs a := produces_append [r']
  exact hsplit.trans (or_congr produces_singleton produces_singleton)

/-- The other rules are for other left-hand sides. -/
theorem ne_of_produces_others (hnodup : ((pre ++ r :: post).map Rule.lhs).Nodup)
    (hp : (⟨pre ++ post⟩ : Grammar).Produces lhs a) : lhs ≠ r.lhs := by
  rintro rfl
  rw [List.map_append, List.map_cons] at hnodup
  refine (List.nodup_cons.mp (List.perm_middle.nodup_iff.mp hnodup)).1 ?_
  rw [← List.map_append]
  exact hp.mem_lhsSymbols

section Context

variable (hg : (⟨pre ++ r :: post⟩ : Grammar).WellFormed) (hr : r.Replaces r' h)
  (hfresh : h.lhs ∉ (⟨pre ++ r :: post⟩ : Grammar).nonterminals)
include hg hr hfresh

/-- The productions before and after a replacement. -/
theorem helped_of_replaces : Helped (⟨pre ++ r :: post⟩ : Grammar).Produces
    (⟨pre ++ r' :: h :: post⟩ : Grammar).Produces r r' h h.lhs := by
  have hold : ∀ {lhs a}, (⟨pre ++ r :: post⟩ : Grammar).Produces lhs a ↔
      lhs = r.lhs ∧ a ∈ r.alternatives ∨ (⟨pre ++ post⟩ : Grammar).Produces lhs a :=
    (produces_append [r]).trans (or_congr_left produces_singleton)
  have hnew : ∀ {lhs a}, (⟨pre ++ r' :: h :: post⟩ : Grammar).Produces lhs a ↔
      (lhs = r.lhs ∧ a ∈ r'.alternatives ∨ lhs = h.lhs ∧ a ∈ h.alternatives) ∨
        (⟨pre ++ post⟩ : Grammar).Produces lhs a := by
    intro lhs a
    rw [← hr.lhs_eq]
    exact (produces_append [r', h]).trans (or_congr_left produces_pair)
  have hhelper : ∀ {a}, ¬(⟨pre ++ r :: post⟩ : Grammar).Produces h.lhs a := fun hp =>
    hfresh (Grammar.mem_nonterminals.mpr (.inl hp.mem_lhsSymbols))
  have hmem : r ∈ pre ++ r :: post := List.mem_append_right pre List.mem_cons_self
  have hne : h.lhs ≠ r.lhs := by
    intro heq
    exact hfresh (Grammar.mem_nonterminals.mpr (.inl (heq ▸ List.mem_map_of_mem hmem)))
  have hothers : ∀ {a}, ¬(⟨pre ++ post⟩ : Grammar).Produces r.lhs a := fun hp =>
    ne_of_produces_others hg.nodup_lhs hp rfl
  constructor
  · exact hg.nonterminal_lhs r hmem
  · exact hr.helper_proper.nonterminal_lhs
  · exact hne
  · intro a
    rw [hold, or_iff_left hothers]
    exact and_iff_right rfl
  · intro a
    rw [hnew, or_iff_left hothers, or_iff_left fun hh => hne hh.1.symm]
    exact and_iff_right rfl
  · intro a
    rw [hnew, or_iff_left fun hp => hhelper (hold.mpr (.inr hp)), or_iff_right fun hh => hne hh.1]
    exact and_iff_right rfl
  · intro lhs a hl hh
    rw [hold, hnew, or_iff_right, or_iff_right]
    · exact fun hp => hl hp.1
    · exact fun hp => hp.elim (fun hp => hl hp.1) fun hp => hh hp.1
  · exact fun a => hhelper
  · intro lhs a hp hs
    exact hfresh (Grammar.mem_nonterminals.mpr (.inr ⟨hr.helper_proper.nonterminal_lhs, lhs, a, hp, hs⟩))

omit hg hfresh in
/-- The left-hand sides after a replacement are those before, and the helper. -/
theorem perm_lhsSymbols : (⟨pre ++ r' :: h :: post⟩ : Grammar).lhsSymbols.Perm
    (h.lhs :: (⟨pre ++ r :: post⟩ : Grammar).lhsSymbols) := by
  unfold Grammar.lhsSymbols
  rw [List.map_append, List.map_append, List.map_cons, List.map_cons, List.map_cons, hr.lhs_eq]
  exact (List.Perm.append_left _ (List.Perm.swap _ _ _)).trans List.perm_middle

/-- Apart from the helper, the same symbols occur before and after a replacement. -/
theorem occurs_iff_of_replaces (hs : s ≠ Symbol.epsilon) (hlhs : s ≠ r.lhs) (hh : s ≠ h.lhs) :
    (∃ lhs a, (⟨pre ++ r' :: h :: post⟩ : Grammar).Produces lhs a ∧ s ∈ a.symbols) ↔
      ∃ lhs a, (⟨pre ++ r :: post⟩ : Grammar).Produces lhs a ∧ s ∈ a.symbols := by
  have hH := helped_of_replaces hg hr hfresh
  constructor
  · rintro ⟨lhs, a, hp, hsa⟩
    by_cases hl : lhs = r.lhs
    · subst hl
      obtain ⟨b, hb, hsb⟩ := (hr.symbols_iff s hs hlhs hh).mp ⟨a, List.mem_append_left _ ((hH.head a).mp hp), hsa⟩
      exact ⟨r.lhs, b, (hH.old b).mpr hb, hsb⟩
    · by_cases hl' : lhs = h.lhs
      · subst hl'
        obtain ⟨b, hb, hsb⟩ := (hr.symbols_iff s hs hlhs hh).mp ⟨a, List.mem_append_right _ ((hH.tail a).mp hp), hsa⟩
        exact ⟨r.lhs, b, (hH.old b).mpr hb, hsb⟩
      · exact ⟨lhs, a, (hH.other lhs a hl hl').mp hp, hsa⟩
  · rintro ⟨lhs, a, hp, hsa⟩
    by_cases hl : lhs = r.lhs
    · subst hl
      obtain ⟨b, hb, hsb⟩ := (hr.symbols_iff s hs hlhs hh).mpr ⟨a, (hH.old a).mp hp, hsa⟩
      rcases List.mem_append.mp hb with hb | hb
      · exact ⟨r.lhs, b, (hH.head b).mpr hb, hsb⟩
      · exact ⟨h.lhs, b, (hH.tail b).mpr hb, hsb⟩
    · exact ⟨lhs, a, (hH.other lhs a hl (hH.ne_helper hp)).mpr hp, hsa⟩

/-- The nonterminals after a replacement are those before, and the helper. -/
theorem mem_nonterminals_of_replaces : s ∈ (⟨pre ++ r' :: h :: post⟩ : Grammar).nonterminals ↔
    s ∈ (⟨pre ++ r :: post⟩ : Grammar).nonterminals ∨ s = h.lhs := by
  have hmem : s ∈ (⟨pre ++ r' :: h :: post⟩ : Grammar).lhsSymbols ↔
      s = h.lhs ∨ s ∈ (⟨pre ++ r :: post⟩ : Grammar).lhsSymbols :=
    (perm_lhsSymbols hr).mem_iff.trans List.mem_cons
  have hlhs : r.lhs ∈ (⟨pre ++ r :: post⟩ : Grammar).lhsSymbols :=
    List.mem_map_of_mem (List.mem_append_right pre List.mem_cons_self)
  rw [Grammar.mem_nonterminals, Grammar.mem_nonterminals, hmem]
  by_cases hh : s = h.lhs
  · exact iff_of_true (.inl (.inl hh)) (.inr hh)
  · by_cases hl : s = r.lhs
    · exact iff_of_true (.inl (.inr (hl ▸ hlhs))) (.inl (.inl (hl ▸ hlhs)))
    · rw [or_iff_right hh, or_iff_left hh]
      exact or_congr_right (and_congr_right fun hnt =>
        occurs_iff_of_replaces hg hr hfresh (Symbol.ne_epsilon_of_isNonterminal hnt) hl hh)

/-- **A replacement keeps the shape of a grammar.** -/
theorem reshapes_of_replaces : Grammar.Reshapes ⟨pre ++ r :: post⟩ ⟨pre ++ r' :: h :: post⟩ := by
  have hH := helped_of_replaces hg hr hfresh
  have hperm : (⟨pre ++ r' :: h :: post⟩ : Grammar).lhsSymbols.Perm
      (h.lhs :: (⟨pre ++ r :: post⟩ : Grammar).lhsSymbols) := perm_lhsSymbols hr
  have hterminal : ∀ {s u : Symbol}, s.isTerminal = true → u.isNonterminal = true → s ≠ u := by
    rintro s _ ht hnt rfl
    exact Symbol.not_isTerminal hnt ht
  refine ⟨⟨?_, ?_, ?_⟩, ?_, ?_, ?_⟩
  · exact List.append_ne_nil_of_right_ne_nil pre (List.cons_ne_nil r' _)
  · refine hperm.nodup_iff.mpr (List.nodup_cons.mpr ⟨?_, hg.nodup_lhs⟩)
    exact fun hmem => hfresh (Grammar.mem_nonterminals.mpr (.inl hmem))
  · intro x hx
    rcases List.mem_append.mp hx with hx | hx
    · exact hg.proper x (List.mem_append_left _ hx)
    · rcases List.mem_cons.mp hx with rfl | hx
      · exact hr.proper
      · rcases List.mem_cons.mp hx with rfl | hx
        · exact hr.helper_proper
        · exact hg.proper x (List.mem_append_right pre (List.mem_cons_of_mem r hx))
  · unfold Grammar.start
    cases pre with
    | nil => exact congrArg Except.ok hr.lhs_eq
    | cons x pre => rfl
  · exact fun s hs => (mem_nonterminals_of_replaces hg hr hfresh).mpr (.inl hs)
  · intro s hs
    rw [Grammar.mem_terminals, Grammar.mem_terminals]
    refine and_congr_right fun ht => occurs_iff_of_replaces hg hr hfresh hs ?_ ?_
    · exact hterminal ht hH.lhs_nonterminal
    · exact hterminal ht hH.nonterminal

end Context
end Replaced

/-! ## Rule after rule -/

/-- **Transformations that treat one rule after the other**: what every step does to the rules done and those to come,
the whole fold does. -/
theorem rewrites_of_foldlM {σ ε : Type} {step : σ → Rule → Except ε σ} (done : σ → List Rule) (taken : σ → List Symbol)
    {R : Grammar → Grammar → Prop} (hrefl : ∀ g, g.WellFormed → R g g) (htrans : ∀ {g g' g''}, R g g' → R g' g'' → R g g'')
    (hwell : ∀ {g g'}, R g g' → g'.WellFormed)
    (hstep : ∀ {s s' r post}, (⟨done s ++ r :: post⟩ : Grammar).WellFormed →
      (∀ x ∈ (⟨done s ++ r :: post⟩ : Grammar).nonterminals, x ∈ taken s) → step s r = .ok s' →
      R ⟨done s ++ r :: post⟩ ⟨done s' ++ post⟩ ∧
        ∀ x ∈ (⟨done s' ++ post⟩ : Grammar).nonterminals, x ∈ taken s')
    {rules : List Rule} {s s' : σ} (hg : (⟨done s ++ rules⟩ : Grammar).WellFormed)
    (htaken : ∀ x ∈ (⟨done s ++ rules⟩ : Grammar).nonterminals, x ∈ taken s) (h : rules.foldlM step s = .ok s') :
    R ⟨done s ++ rules⟩ ⟨done s'⟩ := by
  induction rules generalizing s with
  | nil =>
    cases h
    rw [List.append_nil] at hg ⊢
    exact hrefl _ hg
  | cons r rules ih =>
    rw [List.foldlM_cons] at h
    obtain ⟨next, hnext, h⟩ := bind_eq_ok_iff.mp h
    obtain ⟨hR, htaken'⟩ := hstep hg htaken hnext
    exact htrans hR (ih (hwell hR) htaken' h)

end TableParser
