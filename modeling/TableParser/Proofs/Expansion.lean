import TableParser.Proofs.Interpretation

/-!
# Trees that keep their alternatives

A tree of symbols does not tell the actions of a derivation, since alternatives with the same symbols may differ in
them. An `Expansion` names the alternative at each of its inner nodes, so both what it spells and its actions, the
innermost first, are read off the tree. A string translates exactly as valid expansions for its symbols say
(`translates_iff_exists_expansion`).
-/

namespace TableParser

/-- A derivation tree: a leaf is a terminal of the input, an inner node names the alternative that expands it. -/
inductive Expansion
  | leaf (s : Symbol)
  | node (lhs : Symbol) (a : Alternative) (children : List Expansion)

namespace Expansion

/-- The symbol at the root. -/
def symbol : Expansion → Symbol
  | .leaf s => s
  | .node lhs _ _ => lhs

mutual

/-- The leaves from left to right. -/
def yield : Expansion → List Symbol
  | .leaf s => [s]
  | .node _ _ children => yieldAll children

/-- The leaves of several trees from left to right. -/
def yieldAll : List Expansion → List Symbol
  | [] => []
  | d :: rest => yield d ++ yieldAll rest

end

mutual

/-- The actions of the alternatives in post-order; an alternative without an action contributes nothing. -/
def actions : Expansion → List String
  | .leaf _ => []
  | .node _ a children => actionsAll children ++ a.action.toList

/-- The actions of several trees from left to right. -/
def actionsAll : List Expansion → List String
  | [] => []
  | d :: rest => actions d ++ actionsAll rest

end

/-- The derivation trees over some productions. The children of a node are for the symbols of its alternative, except
that there is none for the empty derivation. -/
inductive Valid (P : Productions) : Expansion → Prop
  | leaf {s : Symbol} (ht : s.isTerminal = true) (hs : s ≠ Symbol.epsilon) : Valid P (.leaf s)
  | node {lhs : Symbol} {a : Alternative} {children : List Expansion} (hl : lhs.isNonterminal = true) (hp : P lhs a)
      (hs : children.map symbol = a.symbols.filter (· ≠ Symbol.epsilon)) (hc : ∀ d ∈ children, Valid P d) :
      Valid P (.node lhs a children)

end Expansion

open Expansion

variable {P : Productions} {α w : List Symbol} {acts : List String} {lhs : Symbol}

theorem filter_cons_of_ne {s : Symbol} (hs : s ≠ Symbol.epsilon) :
    (s :: α).filter (· ≠ Symbol.epsilon) = s :: α.filter (· ≠ Symbol.epsilon) :=
  List.filter_cons_of_pos (decide_eq_true hs)

/-- What a string translates to is spelled by trees for its symbols. -/
theorem Translates.exists_expansions (h : Translates P α w acts) : ∃ ds : List Expansion,
    ds.map symbol = α.filter (· ≠ Symbol.epsilon) ∧ yieldAll ds = w ∧ actionsAll ds = acts ∧ ∀ d ∈ ds, d.Valid P := by
  induction h with
  | nil => exact ⟨[], rfl, rfl, rfl, fun d hd => absurd hd List.not_mem_nil⟩
  | epsilon _ ih => exact ih
  | @terminal s rest w acts ht hs _ ih =>
    obtain ⟨ds, hm, hy, hacts, hv⟩ := ih
    refine ⟨.leaf s :: ds, ?_, ?_, ?_, ?_⟩
    · rw [filter_cons_of_ne hs, ← hm]
      rfl
    · rw [yieldAll, hy]
      rfl
    · rw [actionsAll, hacts]
      rfl
    · exact List.forall_mem_cons.mpr ⟨.leaf ht hs, hv⟩
  | @nonterminal lhs a rest u v acts₁ acts₂ hl hp _ _ ih₁ ih₂ =>
    obtain ⟨cs, hmc, hyc, hactsc, hvc⟩ := ih₁
    obtain ⟨ds, hm, hy, hacts, hv⟩ := ih₂
    have hne := Symbol.ne_epsilon_of_isNonterminal hl
    refine ⟨.node lhs a cs :: ds, ?_, ?_, ?_, ?_⟩
    · rw [filter_cons_of_ne hne, ← hm]
      rfl
    · rw [yieldAll, yield, hyc, hy]
    · rw [actionsAll, actions, hactsc, hacts]
    · exact List.forall_mem_cons.mpr ⟨.node hl hp hmc hvc, hv⟩

/-- Trees for the symbols of a string spell what it translates to, if each of them does so on its own. -/
theorem Translates.of_forest {ds : List Expansion} (hm : ds.map symbol = α.filter (· ≠ Symbol.epsilon))
    (h : ∀ d ∈ ds, Translates P [d.symbol] d.yield d.actions) : Translates P α (yieldAll ds) (actionsAll ds) := by
  induction α generalizing ds with
  | nil =>
    rw [List.map_eq_nil_iff.mp hm]
    exact .nil
  | cons s α ih =>
    by_cases hs : s = Symbol.epsilon
    · subst hs
      exact .epsilon (ih hm h)
    · rw [filter_cons_of_ne hs] at hm
      obtain ⟨d, ds, rfl, hd, hm⟩ := List.map_eq_cons_iff.mp hm
      obtain ⟨hfirst, hrest⟩ := List.forall_mem_cons.mp h
      rw [hd] at hfirst
      exact hfirst.append (ih hm hrest)

/-- A derivation tree spells what its symbol translates to. -/
theorem Expansion.Valid.translates {d : Expansion} (h : d.Valid P) : Translates P [d.symbol] d.yield d.actions := by
  induction h with
  | leaf ht hs => exact .terminal ht hs .nil
  | node hl hp hs _ ih => exact .of_alternative hl hp (.of_forest hs ih)

/-- **Translations are read off trees**: a nonterminal translates to what its derivation trees spell, with their
actions in post-order. -/
theorem translates_iff_exists_expansion (hl : lhs.isNonterminal = true) : Translates P [lhs] w acts ↔
    ∃ d : Expansion, d.Valid P ∧ d.symbol = lhs ∧ d.yield = w ∧ d.actions = acts := by
  constructor
  · intro h
    obtain ⟨ds, hm, hy, hacts, hv⟩ := h.exists_expansions
    have hne := Symbol.ne_epsilon_of_isNonterminal hl
    rw [filter_cons_of_ne hne] at hm
    obtain ⟨d, rfl, hd⟩ := List.map_eq_singleton_iff.mp hm
    rw [yieldAll, yieldAll, List.append_nil] at hy
    rw [actionsAll, actionsAll, List.append_nil] at hacts
    exact ⟨d, hv d List.mem_cons_self, hd, hy, hacts⟩
  · rintro ⟨d, hv, rfl, rfl, rfl⟩
    exact hv.translates

end TableParser
