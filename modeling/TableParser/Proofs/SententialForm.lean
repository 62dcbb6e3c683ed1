import Mathlib.Logic.Relation
import TableParser.Proofs.First

/-!
# Sentential forms

A sentential form is a string of terminals and nonterminals; the empty derivation stands for no symbol in it
(`sententialForm`). A step of a derivation puts an alternative in the place of its left-hand side (`DerivationStep`), and
`Derives` is any number of steps. What holds of strings of symbols by the structure of their derivations holds of them
step by step:

* **Terminal strings** (`derives_iff_generates`): of the strings of terminals those are derived that are generated.
* **Beginnings** (`exists_derives_cons_iff`): a terminal is brought to the front exactly if a form derived begins with it.
-/

namespace TableParser

variable {P : Productions} {α β γ w : List Symbol} {lhs s t : Symbol} {a : Alternative}

/-! ## Forms -/

/-- The sentential form that a string of symbols writes, in which the empty derivation stands for no symbol. -/
def sententialForm (α : List Symbol) : List Symbol := α.filter (· != Symbol.epsilon)

@[simp] theorem sententialForm_nil : sententialForm [] = [] := rfl

@[simp] theorem sententialForm_append : sententialForm (α ++ β) = sententialForm α ++ sententialForm β :=
  List.filter_append α β

@[simp] theorem sententialForm_epsilon_cons : sententialForm (Symbol.epsilon :: α) = sententialForm α := rfl

@[simp] theorem sententialForm_cons (hs : s ≠ Symbol.epsilon) : sententialForm (s :: α) = s :: sententialForm α :=
  List.filter_cons_of_pos (bne_iff_ne.mpr hs)

theorem epsilon_not_mem_sententialForm : Symbol.epsilon ∉ sententialForm α := fun h =>
  bne_iff_ne.mp (List.mem_filter.mp h).2 rfl

/-- An occurrence in a form comes from an occurrence in the string. -/
theorem exists_of_sententialForm_eq (h : sententialForm α = β ++ s :: γ) :
    ∃ β' γ', α = β' ++ s :: γ' ∧ sententialForm β' = β ∧ sententialForm γ' = γ := by
  obtain ⟨α₁, α₂, rfl, rfl, h₂⟩ := List.filter_eq_append_iff.mp h
  obtain ⟨skipped, γ', rfl, hskipped, _, rfl⟩ := List.filter_eq_cons_iff.mp h₂
  refine ⟨α₁ ++ skipped, γ', (List.append_assoc _ _ _).symm, ?_, rfl⟩
  have hnil : sententialForm skipped = [] := List.filter_eq_nil_iff.mpr hskipped
  rw [sententialForm_append, hnil, List.append_nil]
  rfl

/-! ## Derivations -/

/-- One step of a derivation: a nonterminal makes way for the symbols of one of its alternatives. -/
inductive DerivationStep (P : Productions) : List Symbol → List Symbol → Prop
  | expand {lhs : Symbol} {a : Alternative} (β γ : List Symbol) (hl : lhs.isNonterminal = true) (hp : P lhs a) :
      DerivationStep P (β ++ lhs :: γ) (β ++ (sententialForm a.symbols ++ γ))

/-- The sentential forms that are derived from a form in any number of steps. -/
abbrev Derives (P : Productions) : List Symbol → List Symbol → Prop := Relation.ReflTransGen (DerivationStep P)

namespace Derives

variable {α' β' : List Symbol}

/-- A derivation goes on between other symbols. -/
theorem frame (h : Derives P α β) (γ δ : List Symbol) : Derives P (γ ++ (α ++ δ)) (γ ++ (β ++ δ)) := by
  induction h with
  | refl => exact .refl
  | tail _ hs ih =>
    obtain ⟨β, β', hl, hp⟩ := hs
    refine ih.tail ?_
    have := DerivationStep.expand (γ ++ β) (β' ++ δ) hl hp
    simpa only [List.append_assoc, List.cons_append] using this

theorem append (h₁ : Derives P α α') (h₂ : Derives P β β') : Derives P (α ++ β) (α' ++ β') := by
  have hleft := h₁.frame [] β
  have hright := h₂.frame α' []
  rw [List.append_nil, List.append_nil] at hright
  exact hleft.trans hright

/-- A nonterminal derives the forms of its alternatives. -/
theorem of_alternative (hl : lhs.isNonterminal = true) (hp : P lhs a) : Derives P [lhs] (sententialForm a.symbols) := by
  have hstep := DerivationStep.expand [] [] hl hp
  rw [List.append_nil] at hstep
  exact .single hstep

/-- The empty derivation is in no form that is derived from one without it. -/
theorem epsilon_not_mem (h : Derives P α β) (hα : Symbol.epsilon ∉ α) : Symbol.epsilon ∉ β := by
  induction h with
  | refl => exact hα
  | tail _ hs ih =>
    obtain ⟨β, β', _, _⟩ := hs
    rw [List.mem_append, List.mem_cons, not_or, not_or] at ih
    rw [List.mem_append, List.mem_append, not_or, not_or]
    exact ⟨ih.1, epsilon_not_mem_sententialForm, ih.2.2⟩

end Derives

/-! ## Terminal strings -/

theorem generates_epsilon_cons : Generates P (Symbol.epsilon :: α) w ↔ Generates P α w := by
  refine ⟨fun h => ?_, .epsilon⟩
  cases h with
  | epsilon h => exact h
  | terminal _ hs _ => exact absurd rfl hs
  | nonterminal hl _ _ _ => cases hl

/-- A string of symbols derives what its form derives. -/
theorem generates_sententialForm : Generates P (sententialForm α) w ↔ Generates P α w := by
  induction α generalizing w with
  | nil => simp
  | cons s α ih =>
    by_cases hs : s = Symbol.epsilon
    · simp [hs, ih, generates_epsilon_cons]
    · rw [sententialForm_cons hs]
      constructor
      all_goals
        intro h
        obtain ⟨u, v, rfl, hu, hv⟩ := Generates.of_append (α := [s]) h
      · exact hu.append (ih.mp hv)
      · exact hu.append (ih.mpr hv)

theorem Generates.of_terminals (hw : ∀ s ∈ w, s.isTerminal = true ∧ s ≠ Symbol.epsilon) : Generates P w w := by
  induction w with
  | nil => exact .nil
  | cons s w ih =>
    obtain ⟨ht, hs⟩ := hw s List.mem_cons_self
    exact .terminal ht hs (ih fun u hu => hw u (List.mem_cons_of_mem s hu))

/-- What is generated is derived. -/
theorem Generates.derives (h : Generates P α w) : Derives P (sententialForm α) w := by
  induction h with
  | nil => exact .refl
  | epsilon _ ih => exact ih
  | @terminal s rest w _ hs _ ih =>
    rw [sententialForm_cons hs]
    exact Derives.append (α := [s]) .refl ih
  | @nonterminal lhs a rest u v hl hp _ _ ih₁ ih₂ =>
    rw [sententialForm_cons (Symbol.ne_epsilon_of_isNonterminal hl)]
    have hlhs : Derives P [lhs] u := (Derives.of_alternative hl hp).trans ih₁
    exact hlhs.append ih₂

/-- What is generated after a step is generated before it. -/
theorem DerivationStep.generates (h : DerivationStep P α β) (hw : Generates P β w) : Generates P α w := by
  obtain ⟨β, γ, hl, hp⟩ := h
  obtain ⟨u, v, rfl, hu, hv⟩ := hw.of_append
  obtain ⟨v₁, v₂, rfl, h₁, h₂⟩ := hv.of_append
  exact hu.append (.nonterminal hl hp (generates_sententialForm.mp h₁) h₂)

theorem Derives.generates (h : Derives P α β) (hw : Generates P β w) : Generates P α w := by
  induction h using Relation.ReflTransGen.head_induction_on with
  | refl => exact hw
  | head hs _ ih => exact hs.generates ih

/-- **The strings of terminals that are derived** are those that are generated. -/
theorem derives_iff_generates (hw : ∀ s ∈ w, s.isTerminal = true ∧ s ≠ Symbol.epsilon) :
    Derives P (sententialForm α) w ↔ Generates P α w :=
  ⟨fun h => generates_sententialForm.mp (h.generates (.of_terminals hw)), Generates.derives⟩

/-- What vanishes derives the empty form. -/
theorem derives_nil_iff : Derives P (sententialForm α) [] ↔ Generates P α [] :=
  derives_iff_generates fun _ hs => absurd hs List.not_mem_nil

/-! ## Beginnings -/

namespace Begins

theorem append_right (h : Begins P α t) (β : List Symbol) : Begins P (α ++ β) t := by
  induction h with
  | terminal ht hs => exact .terminal ht hs
  | vanish hs _ ih => exact .vanish hs ih
  | expand hl hp h _ => exact .expand hl hp h

theorem cons_iff : Begins P (s :: α) t ↔ Begins P [s] t ∨ Generates P [s] [] ∧ Begins P α t := by
  constructor
  · intro h
    cases h with
    | terminal ht hs => exact .inl (.terminal ht hs)
    | vanish hs h => exact .inr ⟨hs, h⟩
    | expand hl hp h => exact .inl (.expand hl hp h)
  · rintro (h | ⟨hs, h⟩)
    · exact h.append_right α
    · exact .vanish hs h

/-- A concatenation begins as its first part does, or as the second one if the first one vanishes. -/
theorem append_iff : Begins P (α ++ β) t ↔ Begins P α t ∨ Generates P α [] ∧ Begins P β t := by
  induction α with
  | nil => exact ⟨fun h => .inr ⟨.nil, h⟩, fun h => h.elim (fun h => nomatch h) fun h => h.2⟩
  | cons s α ih =>
    rw [List.cons_append, cons_iff, ih, cons_iff (α := α)]
    constructor
    · rintro (h | ⟨hs, h | ⟨hα, h⟩⟩)
      · exact .inl (.inl h)
      · exact .inl (.inr ⟨hs, h⟩)
      · exact .inr ⟨hs.append hα, h⟩
    · rintro ((h | ⟨hs, h⟩) | ⟨hα, h⟩)
      · exact .inl h
      · exact .inr ⟨hs, .inl h⟩
      · obtain ⟨hs, hα⟩ := Generates.append_nil_iff (α := [s]).mp hα
        exact .inr ⟨hs, .inr ⟨hα, h⟩⟩

end Begins

theorem begins_sententialForm : Begins P (sententialForm α) t ↔ Begins P α t := by
  induction α with
  | nil => simp
  | cons s α ih =>
    by_cases hs : s = Symbol.epsilon
    · subst hs
      rw [sententialForm_epsilon_cons, ih]
      refine ⟨.vanish (.epsilon .nil), fun h => ?_⟩
      cases h with
      | terminal _ hs => exact absurd rfl hs
      | vanish _ h => exact h
      | expand hl _ _ => cases hl
    · rw [sententialForm_cons hs, Begins.cons_iff, ih, ← Begins.cons_iff]

/-- What is at the front after a step is brought there before it. -/
theorem DerivationStep.begins (h : DerivationStep P α β) (hb : Begins P β t) : Begins P α t := by
  obtain ⟨β, γ, hl, hp⟩ := h
  rcases Begins.append_iff.mp hb with hb | ⟨hβ, hb⟩
  · exact Begins.append_iff.mpr (.inl hb)
  refine Begins.append_iff.mpr (.inr ⟨hβ, ?_⟩)
  rcases Begins.append_iff.mp hb with hb | ⟨ha, hb⟩
  · exact .expand hl hp (begins_sententialForm.mp hb)
  · exact .vanish (.of_alternative hl hp (generates_sententialForm.mp ha)) hb

theorem Derives.begins (h : Derives P α β) (hb : Begins P β t) : Begins P α t := by
  induction h using Relation.ReflTransGen.head_induction_on with
  | refl => exact hb
  | head hs _ ih => exact hs.begins ih

/-- What is brought to the front begins a form that is derived. -/
theorem Begins.exists_derives (h : Begins P α t) : ∃ rest, Derives P (sententialForm α) (t :: rest) := by
  induction h with
  | terminal _ hs => exact ⟨_, by rw [sententialForm_cons hs]⟩
  | @vanish s t rest hs _ ih =>
    obtain ⟨behind, hd⟩ := ih
    refine ⟨behind, ?_⟩
    rw [← List.singleton_append, sententialForm_append]
    exact hs.derives.append hd
  | @expand lhs t a rest hl hp _ ih =>
    obtain ⟨behind, hd⟩ := ih
    refine ⟨behind ++ sententialForm rest, ?_⟩
    rw [sententialForm_cons (Symbol.ne_epsilon_of_isNonterminal hl)]
    have hlhs : Derives P [lhs] (t :: behind) := (Derives.of_alternative hl hp).trans hd
    exact hlhs.append .refl

/-- **The terminals at the front of derived forms** are those that derivations bring there. -/
theorem exists_derives_cons_iff (ht : t.isTerminal = true) (hs : t ≠ Symbol.epsilon) :
    (∃ rest, Derives P (sententialForm α) (t :: rest)) ↔ Begins P α t := by
  refine ⟨?_, Begins.exists_derives⟩
  rintro ⟨rest, h⟩
  exact begins_sententialForm.mp (h.begins (.terminal ht hs))

end TableParser
