import TableParser.Proofs.Derivation

/-!
# Interpretations of nonterminals

A string of symbols can be read under any interpretation of the nonterminals (`Interprets`), which says what a
nonterminal stands for: a terminal string and a list of actions. Derivations are the least interpretation that is closed
under the alternatives (`Translates.interprets`), so a property of all derived strings is shown for one alternative
at a time.

* **Concatenations** (`interprets_append`) are read part by part, and so are translated and generated.
-/

namespace TableParser

/-- What nonterminals stand for: terminal strings with actions. -/
abbrev Interpretation : Type := Symbol → List Symbol → List String → Prop

/-- What a string of symbols stands for when its nonterminals are interpreted. -/
inductive Interprets (S : Interpretation) : List Symbol → List Symbol → List String → Prop
  | nil : Interprets S [] [] []
  | epsilon {rest w : List Symbol} {acts : List String} (h : Interprets S rest w acts) :
      Interprets S (Symbol.epsilon :: rest) w acts
  | terminal {s : Symbol} {rest w : List Symbol} {acts : List String} (ht : s.isTerminal = true)
      (hs : s ≠ Symbol.epsilon) (h : Interprets S rest w acts) : Interprets S (s :: rest) (s :: w) acts
  | nonterminal {lhs : Symbol} {rest u v : List Symbol} {acts₁ acts₂ : List String} (hl : lhs.isNonterminal = true)
      (hS : S lhs u acts₁) (h : Interprets S rest v acts₂) : Interprets S (lhs :: rest) (u ++ v) (acts₁ ++ acts₂)

variable {S T : Interpretation} {P : Productions} {α β u v w : List Symbol} {acts acts₁ acts₂ : List String}
  {lhs : Symbol}

/-! ## Concatenations -/

theorem Interprets.append (h₁ : Interprets S α u acts₁) (h₂ : Interprets S β v acts₂) :
    Interprets S (α ++ β) (u ++ v) (acts₁ ++ acts₂) := by
  induction h₁ with
  | nil => exact h₂
  | epsilon _ ih => exact .epsilon ih
  | terminal ht hs _ ih => exact .terminal ht hs ih
  | nonterminal hl hS _ ih =>
    rw [List.append_assoc, List.append_assoc]
    exact .nonterminal hl hS ih

/-- **A concatenation is read part by part.** -/
theorem interprets_append : Interprets S (α ++ β) w acts ↔
    ∃ u v acts₁ acts₂, w = u ++ v ∧ acts = acts₁ ++ acts₂ ∧ Interprets S α u acts₁ ∧ Interprets S β v acts₂ := by
  constructor
  · intro h
    induction α generalizing w acts with
    | nil => exact ⟨[], w, [], acts, rfl, rfl, .nil, h⟩
    | cons s α ih =>
      rw [List.cons_append] at h
      cases h with
      | epsilon h =>
        obtain ⟨u, v, acts₁, acts₂, rfl, rfl, hu, hv⟩ := ih h
        exact ⟨u, v, acts₁, acts₂, rfl, rfl, .epsilon hu, hv⟩
      | terminal ht hs h =>
        obtain ⟨u, v, acts₁, acts₂, rfl, rfl, hu, hv⟩ := ih h
        exact ⟨s :: u, v, acts₁, acts₂, rfl, rfl, .terminal ht hs hu, hv⟩
      | nonterminal hl hS h =>
        obtain ⟨u, v, acts₁, acts₂, rfl, rfl, hu, hv⟩ := ih h
        exact ⟨_, v, _, acts₂, (List.append_assoc _ u v).symm, (List.append_assoc _ acts₁ acts₂).symm,
          .nonterminal hl hS hu, hv⟩
  · rintro ⟨u, v, acts₁, acts₂, rfl, rfl, hu, hv⟩
    exact hu.append hv

theorem interprets_singleton (hl : lhs.isNonterminal = true) : Interprets S [lhs] w acts ↔ S lhs w acts := by
  constructor
  · intro h
    cases h with
    | epsilon _ => cases hl
    | terminal ht _ _ => exact absurd ht (Symbol.not_isTerminal hl)
    | nonterminal _ hS h =>
      cases h
      rwa [List.append_nil, List.append_nil]
  · intro h
    have := Interprets.nonterminal hl h .nil
    rwa [List.append_nil, List.append_nil] at this

theorem interprets_epsilon : Interprets S [Symbol.epsilon] w acts ↔ Interprets S [] w acts := by
  constructor
  · intro h
    cases h with
    | epsilon h => exact h
    | terminal _ hs _ => exact absurd rfl hs
    | nonterminal hl _ _ => cases hl
  · exact .epsilon

/-- What is read depends on the nonterminals of the string only. -/
theorem Interprets.mono (h : Interprets S α w acts) (hST : ∀ lhs ∈ α, ∀ u acts, S lhs u acts → T lhs u acts) :
    Interprets T α w acts := by
  induction h with
  | nil => exact .nil
  | epsilon _ ih => exact .epsilon (ih fun lhs hl => hST lhs (List.mem_cons_of_mem _ hl))
  | terminal ht hs _ ih => exact .terminal ht hs (ih fun lhs hl => hST lhs (List.mem_cons_of_mem _ hl))
  | nonterminal hl hS _ ih =>
    exact .nonterminal hl (hST _ List.mem_cons_self _ _ hS) (ih fun lhs hl => hST lhs (List.mem_cons_of_mem _ hl))

/-! ## Derivations as interpretations -/

/-- **Derivations are the least interpretation** that is closed under the alternatives. -/
theorem Translates.interprets (h : Translates P α w acts) (hS : ∀ lhs a u acts, lhs.isNonterminal = true → P lhs a →
    Interprets S a.symbols u acts → S lhs u (acts ++ a.action.toList)) : Interprets S α w acts := by
  induction h with
  | nil => exact .nil
  | epsilon _ ih => exact .epsilon ih
  | terminal ht hs _ ih => exact .terminal ht hs ih
  | nonterminal hl hp _ _ ih₁ ih₂ => exact .nonterminal hl (hS _ _ _ _ hl hp ih₁) ih₂

theorem Generates.interprets (h : Generates P α w) (hS : ∀ lhs a u acts, lhs.isNonterminal = true → P lhs a →
    Interprets S a.symbols u acts → S lhs u (acts ++ a.action.toList)) : ∃ acts, Interprets S α w acts := by
  obtain ⟨acts, h⟩ := Generates.iff_translates.mp h
  exact ⟨acts, h.interprets hS⟩

/-- A string whose nonterminals stand for what they derive stands for what it derives. -/
theorem Interprets.generates (h : Interprets S α w acts)
    (hS : ∀ lhs ∈ α, ∀ u acts, S lhs u acts → Generates P [lhs] u) : Generates P α w := by
  induction h with
  | nil => exact .nil
  | epsilon _ ih => exact .epsilon (ih fun lhs hl => hS lhs (List.mem_cons_of_mem _ hl))
  | terminal ht hs _ ih => exact .terminal ht hs (ih fun lhs hl => hS lhs (List.mem_cons_of_mem _ hl))
  | @nonterminal lhs rest u v _ _ hl hu _ ih =>
    exact (hS lhs List.mem_cons_self u _ hu).append (ih fun lhs hl => hS lhs (List.mem_cons_of_mem _ hl))

namespace Translates

theorem of_alternative {a : Alternative} (hl : lhs.isNonterminal = true) (hp : P lhs a)
    (h : Translates P a.symbols w acts) : Translates P [lhs] w (acts ++ a.action.toList) := by
  have := Translates.nonterminal hl hp h .nil
  rwa [List.append_nil, List.append_nil] at this

theorem append (h₁ : Translates P α u acts₁) (h₂ : Translates P β v acts₂) :
    Translates P (α ++ β) (u ++ v) (acts₁ ++ acts₂) := by
  induction h₁ with
  | nil => exact h₂
  | epsilon _ ih => exact .epsilon ih
  | terminal ht hs _ ih => exact .terminal ht hs ih
  | nonterminal hl hp ha _ _ ih =>
    rw [List.append_assoc, List.append_assoc]
    exact .nonterminal hl hp ha ih

/-- A string translates as its nonterminals do. -/
theorem iff_interprets : Translates P α w acts ↔ Interprets (fun lhs u acts => Translates P [lhs] u acts) α w acts := by
  constructor
  · intro h
    induction h with
    | nil => exact .nil
    | epsilon _ ih => exact .epsilon ih
    | terminal ht hs _ ih => exact .terminal ht hs ih
    | nonterminal hl hp ha _ _ ih => exact .nonterminal hl (of_alternative hl hp ha) ih
  · intro h
    induction h with
    | nil => exact .nil
    | epsilon _ ih => exact .epsilon ih
    | terminal ht hs _ ih => exact .terminal ht hs ih
    | nonterminal _ hS _ ih => exact hS.append ih

theorem of_interprets (h : Interprets S α w acts)
    (hS : ∀ lhs ∈ α, ∀ u acts, S lhs u acts → Translates P [lhs] u acts) : Translates P α w acts :=
  iff_interprets.mpr (h.mono hS)

theorem of_append (h : Translates P (α ++ β) w acts) :
    ∃ u v acts₁ acts₂, w = u ++ v ∧ acts = acts₁ ++ acts₂ ∧ Translates P α u acts₁ ∧ Translates P β v acts₂ := by
  obtain ⟨u, v, acts₁, acts₂, hw, hacts, hu, hv⟩ := interprets_append.mp (iff_interprets.mp h)
  exact ⟨u, v, acts₁, acts₂, hw, hacts, iff_interprets.mpr hu, iff_interprets.mpr hv⟩

end Translates
end TableParser
