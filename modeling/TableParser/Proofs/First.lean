import TableParser.Analysis.First
import TableParser.Proofs.Saturation
import TableParser.Proofs.WellFormed

/-!
# FIRST sets are right

The FIRST sets of a grammar are closed under its rules (`FirstSets.closed_ofGrammar`) and hold nothing but what
derivations justify (`FirstSets.sound_ofGrammar`). So the computed beginnings of a string of symbols are those of its
derivations.

* **Vanishing** (`FirstSets.epsilon_mem_iff`): the empty derivation is listed when the string derives the empty string.
* **Beginnings** (`FirstSets.mem_iff_begins`): a terminal is listed when a derivation brings it to the front, even one
  that never ends (`Begins`).
-/

namespace TableParser

/-- A derivation brings the terminal to the front of the string of symbols. -/
inductive Begins (P : Productions) : List Symbol → Symbol → Prop
  | terminal {t : Symbol} {rest : List Symbol} (ht : t.isTerminal = true) (hs : t ≠ Symbol.epsilon) :
      Begins P (t :: rest) t
  | vanish {s t : Symbol} {rest : List Symbol} (hs : Generates P [s] []) (h : Begins P rest t) : Begins P (s :: rest) t
  | expand {lhs t : Symbol} {a : Alternative} {rest : List Symbol} (hl : lhs.isNonterminal = true) (hp : P lhs a)
      (h : Begins P a.symbols t) : Begins P (lhs :: rest) t

namespace Begins

variable {P : Productions} {α : List Symbol} {t : Symbol}

theorem isTerminal (h : Begins P α t) : t.isTerminal = true ∧ t ≠ Symbol.epsilon := by
  induction h with
  | terminal ht hs => exact ⟨ht, hs⟩
  | vanish _ _ ih => exact ih
  | expand _ _ _ ih => exact ih

/-- A derived string begins the way the derivation does. -/
theorem of_generates {w : List Symbol} (h : Generates P α (t :: w)) : Begins P α t := by
  generalize hw : t :: w = u at h
  induction h generalizing t w with
  | nil => cases hw
  | epsilon _ ih => exact .vanish (.epsilon .nil) (ih hw)
  | terminal ht hs _ _ =>
    cases hw
    exact .terminal ht hs
  | @nonterminal lhs a rest u v hl hp ha _ ih₁ ih₂ =>
    cases u with
    | nil => exact .vanish (.of_alternative hl hp ha) (ih₂ hw)
    | cons s u =>
      cases hw
      exact .expand hl hp (ih₁ rfl)

end Begins

namespace FirstSets

variable {first other : FirstSets} {g : Grammar} {s x : Symbol} {α rest : List Symbol}

/-! ## Beginnings of strings -/

theorem isNullable_congr (h : ∀ k, first.members k = other.members k) (s : Symbol) :
    first.isNullable s = other.isNullable s := by
  unfold isNullable
  rw [h s]

theorem sequenceHeads_congr (h : ∀ k, first.members k = other.members k) (α : List Symbol) :
    first.sequenceHeads α = other.sequenceHeads α := by
  induction α with
  | nil => rfl
  | cons s rest ih =>
    unfold sequenceHeads heads
    rw [ih, isNullable_congr h, h s]

theorem isNullable_terminal (hs : s.isTerminal = true) : first.isNullable s = true ↔ s = Symbol.epsilon := by
  unfold isNullable
  rw [if_pos hs, beq_iff_eq]

theorem isNullable_nonterminal (hs : s.isNonterminal = true) :
    first.isNullable s = true ↔ Symbol.epsilon ∈ first.members s := by
  have ht := Symbol.isTerminal_eq_false_iff.mpr hs
  unfold isNullable
  rw [if_neg (by simp [ht]), List.contains_iff_mem]

theorem mem_heads_terminal (hs : s.isTerminal = true) : x ∈ first.heads s ↔ x = s ∧ x ≠ Symbol.epsilon := by
  unfold heads
  rw [if_pos hs, List.mem_filter, List.mem_singleton, bne_iff_ne]

theorem mem_heads_nonterminal (hs : s.isNonterminal = true) :
    x ∈ first.heads s ↔ x ∈ first.members s ∧ x ≠ Symbol.epsilon := by
  have ht := Symbol.isTerminal_eq_false_iff.mpr hs
  unfold heads
  rw [if_neg (by simp [ht]), List.mem_filter, bne_iff_ne]

theorem mem_sequenceHeads_cons :
    x ∈ first.sequenceHeads (s :: rest) ↔
      x ∈ first.heads s ∨ first.isNullable s = true ∧ x ∈ first.sequenceHeads rest := by
  rw [sequenceHeads, List.mem_append]
  cases first.isNullable s <;> simp

theorem mem_ofSequence : x ∈ first.ofSequence α ↔ x ∈ first.sequenceHeads α := by
  rw [ofSequence, mem_insertSymbols]
  exact or_iff_right List.not_mem_nil

/-- Heads are members of sets, terminals of the string, or the empty derivation. -/
theorem mem_of_mem_sequenceHeads {values : List Symbol} (hfirst : ∀ k, ∀ x ∈ first.members k, x ∈ values)
    (he : Symbol.epsilon ∈ values) (hα : ∀ s ∈ α, s.isTerminal = true → s ∈ values) :
    ∀ x ∈ first.sequenceHeads α, x ∈ values := by
  induction α with
  | nil =>
    intro x hx
    rw [List.mem_singleton.mp hx]
    exact he
  | cons s rest ih =>
    intro x hx
    rcases mem_sequenceHeads_cons.mp hx with hx | ⟨_, hx⟩
    · cases hs : s.isTerminal with
      | true =>
        rw [((mem_heads_terminal hs).mp hx).1]
        exact hα s List.mem_cons_self hs
      | false =>
        have hn := Symbol.isTerminal_eq_false_iff.mp hs
        exact hfirst s x ((mem_heads_nonterminal hn).mp hx).1
    · exact ih (fun u hu => hα u (List.mem_cons_of_mem s hu)) x hx

/-! ## Closed sets -/

/-- The set of each left-hand side holds what its alternatives can begin with. -/
def Closed (first : FirstSets) (P : Productions) : Prop :=
  ∀ lhs a, P lhs a → ∀ x ∈ first.sequenceHeads a.symbols, x ∈ first.members lhs

theorem adding_updateRule (r : Rule) : SymbolSets.Adding fun first => updateRule first r :=
  .add r.lhs fun first => r.alternatives.flatMap fun a : Alternative => FirstSets.sequenceHeads first a.symbols

theorem adding_update (g : Grammar) : SymbolSets.Adding fun first => update first g :=
  .foldl fun r _ => adding_updateRule r

/-- Sets that a pass does not add to are closed. -/
theorem closed_of_size_update (h : (update first g).size = first.size) : Closed first g.Produces := by
  rintro _ a ⟨r, hr, rfl, ha⟩ x hx
  obtain ⟨u, hu, hsize⟩ := SymbolSets.exists_stable (fun r _ => adding_updateRule r) h r hr
  rw [← hu]
  refine SymbolSets.subset_of_size_add hsize x (List.mem_flatMap.mpr ⟨a, ha, ?_⟩)
  rwa [sequenceHeads_congr hu]

theorem closed_congr {P : Productions} (h : ∀ k, first.members k = other.members k) (hf : Closed first P) :
    Closed other P := by
  intro lhs a hp x hx
  rw [← h lhs]
  rw [← sequenceHeads_congr h] at hx
  exact hf lhs a hp x hx

theorem within_update (h : first.Within g.lhsSymbols (Symbol.epsilon :: g.terminals)) :
    (update first g).Within g.lhsSymbols (Symbol.epsilon :: g.terminals) := by
  refine List.foldlRecOn g.rules updateRule h ?_
  intro first hfirst r hr
  refine hfirst.add (List.mem_map_of_mem hr) ?_
  intro x hx
  obtain ⟨a, ha, hx⟩ := List.mem_flatMap.mp hx
  refine mem_of_mem_sequenceHeads (fun k => hfirst.members) List.mem_cons_self ?_ x hx
  intro s hs ht
  exact List.mem_cons_of_mem _ (Grammar.mem_terminals.mpr ⟨ht, r.lhs, a, ⟨r, hr, rfl, ha⟩, hs⟩)

/-- **The passes over a grammar come to an end** with its FIRST sets. -/
theorem saturates_ofGrammar (g : Grammar) : Saturates (pass g) .empty (ofGrammar g) (converge g).2 := by
  have hroom : ∀ first : FirstSets, first.Within g.lhsSymbols (Symbol.epsilon :: g.terminals) →
      first.size ≤ g.rules.length * (g.terminals.length + 1) := by
    intro first h
    have := h.size_le
    rwa [Grammar.lhsSymbols, List.length_map, List.length_cons] at this
  have hfuel : g.rules.length * (g.terminals.length + 1) < SymbolSets.empty.size + passBound g := by
    unfold passBound
    omega
  exact saturates_saturate (pass g) SymbolSets.size .empty (fun first h => within_update h)
    (fun first h => SymbolSets.grew_iff.mp h) hroom hfuel

/-- The passes over a grammar end with one that adds nothing. -/
theorem exists_last_update (g : Grammar) : ∃ first : FirstSets,
    first.Within g.lhsSymbols (Symbol.epsilon :: g.terminals) ∧ ofGrammar g = update first g ∧
      (update first g).size = first.size := by
  obtain ⟨first, hw, hpass⟩ := (saturates_ofGrammar g).exists_last .empty fun first h => within_update h
  obtain ⟨hlast, hgrew⟩ := Prod.mk.inj hpass
  refine ⟨first, hw, hlast.symm, ?_⟩
  have hle := (adding_update g).size_le first
  have hnot : ¬first.size < (update first g).size := by
    rw [← SymbolSets.grew_iff, hgrew]
    exact Bool.false_ne_true
  omega

/-- **The FIRST sets of a grammar are closed** under its rules. -/
theorem closed_ofGrammar (g : Grammar) : Closed (ofGrammar g) g.Produces := by
  obtain ⟨first, _, heq, hsize⟩ := exists_last_update g
  rw [heq]
  exact closed_congr (fun k => ((adding_update g).members_eq first hsize k).symm) (closed_of_size_update hsize)

theorem members_ofGrammar_subset (g : Grammar) (k : Symbol) :
    ∀ x ∈ (ofGrammar g).members k, x ∈ Symbol.epsilon :: g.terminals := by
  obtain ⟨first, hw, heq, _⟩ := exists_last_update g
  rw [heq]
  exact (within_update hw).members

/-! ## Sound sets -/

/-- The sets hold only what derivations justify. -/
def Sound (first : FirstSets) (P : Productions) : Prop :=
  ∀ k x, x ∈ first.members k →
    x = Symbol.epsilon ∧ Generates P [k] [] ∨ x ≠ Symbol.epsilon ∧ Begins P [k] x

/-- What a string can begin with according to sound sets is justified by derivations. -/
theorem Sound.sequenceHeads {P : Productions} (h : Sound first P) :
    ∀ x ∈ first.sequenceHeads α, x = Symbol.epsilon ∧ Generates P α [] ∨ x ≠ Symbol.epsilon ∧ Begins P α x := by
  induction α with
  | nil =>
    intro x hx
    exact .inl ⟨List.mem_singleton.mp hx, .nil⟩
  | cons s rest ih =>
    intro x hx
    cases hs : s.isTerminal with
    | true =>
      rcases mem_sequenceHeads_cons.mp hx with hx | ⟨hn, hx⟩
      · obtain ⟨rfl, hne⟩ := (mem_heads_terminal hs).mp hx
        exact .inr ⟨hne, .terminal hs hne⟩
      · rw [(isNullable_terminal hs).mp hn]
        rcases ih x hx with ⟨hx, hr⟩ | ⟨hx, hr⟩
        · exact .inl ⟨hx, .epsilon hr⟩
        · exact .inr ⟨hx, .vanish (.epsilon .nil) hr⟩
    | false =>
      have hn := Symbol.isTerminal_eq_false_iff.mp hs
      rcases mem_sequenceHeads_cons.mp hx with hx | ⟨hnull, hx⟩
      · obtain ⟨hx, hne⟩ := (mem_heads_nonterminal hn).mp hx
        rcases h s x hx with ⟨hx, _⟩ | ⟨_, hb⟩
        · exact absurd hx hne
        · refine .inr ⟨hne, ?_⟩
          cases hb with
          | terminal ht _ =>
            rw [hs] at ht
            cases ht
          | vanish _ hb => cases hb
          | expand hl hp hb => exact .expand hl hp hb
      · rcases h s _ ((isNullable_nonterminal hn).mp hnull) with ⟨_, hg⟩ | ⟨hne, _⟩
        · rcases ih x hx with ⟨hx, hr⟩ | ⟨hx, hr⟩
          · exact .inl ⟨hx, hg.append hr⟩
          · exact .inr ⟨hx, .vanish hg hr⟩
        · exact absurd rfl hne

theorem Sound.update (hg : ∀ r ∈ g.rules, r.lhs.isNonterminal = true) (h : Sound first g.Produces) :
    Sound (FirstSets.update first g) g.Produces := by
  refine List.foldlRecOn (motive := fun first => Sound first g.Produces) g.rules updateRule h ?_
  intro first hfirst r hr k x hx
  rw [updateRule] at hx
  rcases SymbolSets.mem_members_add.mp hx with hold | ⟨rfl, hnew⟩
  · exact hfirst k x hold
  · obtain ⟨a, ha, hx⟩ := List.mem_flatMap.mp hnew
    have hp : g.Produces r.lhs a := ⟨r, hr, rfl, ha⟩
    rcases hfirst.sequenceHeads x hx with ⟨hx, hgen⟩ | ⟨hx, hb⟩
    · exact .inl ⟨hx, .of_alternative (hg r hr) hp hgen⟩
    · exact .inr ⟨hx, .expand (hg r hr) hp hb⟩

/-- What holds of the empty sets and is kept by passes holds of the FIRST sets. -/
theorem ofGrammar_induction {motive : FirstSets → Prop} (g : Grammar) (hempty : motive .empty)
    (hupdate : ∀ first, motive first → motive (update first g)) : motive (ofGrammar g) :=
  saturate_induction (pass g) hupdate hempty (passBound g)

/-- **The FIRST sets of a grammar are sound.** -/
theorem sound_ofGrammar (hg : ∀ r ∈ g.rules, r.lhs.isNonterminal = true) : Sound (ofGrammar g) g.Produces :=
  ofGrammar_induction (motive := fun first => Sound first g.Produces) g
    (fun _ _ hx => absurd hx SymbolSets.not_mem_members_empty) fun _ h => Sound.update hg h

/-! ## Exactness -/

/-- Closed sets list the empty derivation for what vanishes. -/
theorem Closed.epsilon_mem {P : Productions} (h : Closed first P) (hα : Generates P α []) :
    Symbol.epsilon ∈ first.sequenceHeads α := by
  generalize hw : ([] : List Symbol) = w at hα
  induction hα with
  | nil => exact List.mem_singleton.mpr rfl
  | epsilon _ ih => exact mem_sequenceHeads_cons.mpr (.inr ⟨(isNullable_terminal rfl).mpr rfl, ih hw⟩)
  | terminal _ _ _ _ => cases hw
  | nonterminal hl hp _ _ ih₁ ih₂ =>
    obtain ⟨hu, hv⟩ := List.append_eq_nil_iff.mp hw.symm
    exact mem_sequenceHeads_cons.mpr (.inr ⟨(isNullable_nonterminal hl).mpr (h _ _ hp _ (ih₁ hu.symm)), ih₂ hv.symm⟩)

/-- Closed sets know what vanishes. -/
theorem Closed.isNullable {P : Productions} (h : Closed first P) (hs : Generates P [s] []) :
    first.isNullable s = true := by
  rcases mem_sequenceHeads_cons.mp (h.epsilon_mem hs) with hx | ⟨hn, _⟩
  · cases ht : s.isTerminal with
    | true => exact absurd rfl ((mem_heads_terminal ht).mp hx).2
    | false =>
      have hn := Symbol.isTerminal_eq_false_iff.mp ht
      exact absurd rfl ((mem_heads_nonterminal hn).mp hx).2
  · exact hn

/-- Closed sets list every terminal that derivations bring to the front. -/
theorem Closed.mem_of_begins {P : Productions} (h : Closed first P) {t : Symbol} (hα : Begins P α t) :
    t ∈ first.sequenceHeads α := by
  induction hα with
  | terminal ht hs => exact mem_sequenceHeads_cons.mpr (.inl ((mem_heads_terminal ht).mpr ⟨rfl, hs⟩))
  | vanish hs _ ih => exact mem_sequenceHeads_cons.mpr (.inr ⟨h.isNullable hs, ih⟩)
  | expand hl hp hb ih =>
    exact mem_sequenceHeads_cons.mpr (.inl ((mem_heads_nonterminal hl).mpr ⟨h _ _ hp _ ih, hb.isTerminal.2⟩))

/-- **The empty derivation is listed exactly for the strings that derive the empty string.** -/
theorem epsilon_mem_iff (hg : ∀ r ∈ g.rules, r.lhs.isNonterminal = true) :
    Symbol.epsilon ∈ (ofGrammar g).sequenceHeads α ↔ Generates g.Produces α [] := by
  constructor
  · intro h
    rcases (sound_ofGrammar hg).sequenceHeads _ h with ⟨_, hα⟩ | ⟨hne, _⟩
    · exact hα
    · exact absurd rfl hne
  · exact (closed_ofGrammar g).epsilon_mem

/-- **The terminals listed are exactly those that derivations bring to the front.** -/
theorem mem_iff_begins (hg : ∀ r ∈ g.rules, r.lhs.isNonterminal = true) (hx : x ≠ Symbol.epsilon) :
    x ∈ (ofGrammar g).sequenceHeads α ↔ Begins g.Produces α x := by
  constructor
  · intro h
    rcases (sound_ofGrammar hg).sequenceHeads _ h with ⟨he, _⟩ | ⟨_, hα⟩
    · exact absurd he hx
    · exact hα
  · exact (closed_ofGrammar g).mem_of_begins

end FirstSets
end TableParser
