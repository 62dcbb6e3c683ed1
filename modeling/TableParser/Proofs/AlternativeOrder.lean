import TableParser.Grammar.Order

/-!
# Alternatives in order

The order of symbols is linear, whatever the registry, and the order of the alternatives of a rule is total and
transitive (`Rule.compareAlternatives`). So sorting puts alternatives that begin alike side by side:

* **What begins alike stands together** (`Grouped`): between two alternatives with a common beginning there are only
  alternatives with that beginning (`Rule.grouped_sorted`).
-/

namespace TableParser

open Std

namespace Registry

variable (order : Registry)

/-- Symbols compare by their rank, and those that are not known by their kind and their name. -/
theorem compare_eq_compareLex : order.compare =
    compareLex (compareOn order.rank) (compareLex (compareOn kindRank) (compareOn Symbol.name)) := rfl

instance : TransCmp order.compare := by
  rw [compare_eq_compareLex]
  infer_instance

/-- Different symbols are never equal in the order. -/
instance : LawfulEqCmp order.compare where
  eq_of_compare {s u} h := by
    obtain ⟨_, h⟩ := Ordering.then_eq_eq.mp h
    obtain ⟨hkind, hname⟩ := Ordering.then_eq_eq.mp h
    have hname := LawfulEqOrd.eq_of_compare hname
    cases s <;> cases u
    · exact congrArg Symbol.terminal hname
    · cases hkind
    · cases hkind
    · exact congrArg Symbol.nonterminal hname

/-- Strings compare like lists in the reversed order, turned around. -/
theorem compareStrings_eq_compareLex (xs ys : List Symbol) :
    order.compareStrings xs ys = List.compareLex order.compare ys xs := by
  induction xs generalizing ys with
  | nil => cases ys <;> rfl
  | cons x xs ih =>
    cases ys with
    | nil => rfl
    | cons y ys =>
      rw [compareStrings, List.compareLex_cons_cons]
      split
      · rename_i heq
        have hself : order.compare y y = .eq := ReflCmp.compare_self
        rw [heq, hself, Ordering.eq_then, ih]
      · rename_i hne
        have hdiffer : order.compare y x ≠ .eq := fun h => hne (LawfulEqCmp.eq_of_compare h).symm
        cases hcmp : order.compare y x
        · rfl
        · exact absurd hcmp hdiffer
        · rfl

instance : TransCmp order.compareStrings := by
  have heq : order.compareStrings = fun xs ys => List.compareLex order.compare ys xs :=
    funext fun xs => funext fun ys => order.compareStrings_eq_compareLex xs ys
  rw [heq]
  exact TransCmp.opposite

/-- What stands between two strings with a common beginning begins like them. -/
theorem isPrefix_of_between {p xs ys zs : List Symbol} (hxy : (order.compareStrings xs ys).isLE = true)
    (hyz : (order.compareStrings ys zs).isLE = true) (hx : p <+: xs) (hz : p <+: zs) : p <+: ys := by
  induction p generalizing xs ys zs with
  | nil => exact List.nil_prefix
  | cons s p ih =>
    obtain ⟨xs, rfl⟩ := hx
    obtain ⟨zs, rfl⟩ := hz
    cases ys with
    | nil => cases hyz
    | cons y ys =>
      rw [List.cons_append, compareStrings] at hxy hyz
      by_cases heq : s = y
      · subst heq
        rw [if_pos rfl] at hxy hyz
        exact List.prefix_cons_inj s |>.mpr (ih hxy hyz (List.prefix_append p xs) (List.prefix_append p zs))
      · rw [if_neg heq] at hxy
        rw [if_neg (Ne.symm heq)] at hyz
        exact absurd (LawfulEqCmp.eq_of_compare (OrientedCmp.isLE_antisymm hyz hxy)) heq

end Registry

namespace Rule

variable (r : Rule) (order : Registry) {a b c : Alternative}

/-- Alternatives compare by whether they are left-recursive, and then by their symbols. -/
theorem compareAlternatives_eq_compareLex : r.compareAlternatives order =
    compareLex (compareOn fun a => !r.isLeftRecursive a) fun a b => order.compareStrings a.symbols b.symbols := by
  funext a b
  unfold compareAlternatives compareLex compareOn
  dsimp only
  cases r.isLeftRecursive a <;> cases r.isLeftRecursive b <;> rfl

/-- The order of alternatives is total and transitive. -/
instance : TransCmp (r.compareAlternatives order) := by
  have : TransCmp fun a b : Alternative => order.compareStrings a.symbols b.symbols :=
    { eq_swap := fun {_ _} => @OrientedCmp.eq_swap _ order.compareStrings _ _ _
      isLE_trans := fun {_ _ _} => @TransCmp.isLE_trans _ order.compareStrings _ _ _ _ }
  rw [compareAlternatives_eq_compareLex]
  infer_instance

variable {r order}

theorem compareAlternatives_of_eq (h : r.isLeftRecursive a = r.isLeftRecursive b) :
    r.compareAlternatives order a b = order.compareStrings a.symbols b.symbols := by
  unfold compareAlternatives
  cases ha : r.isLeftRecursive a <;> rw [ha] at h <;> rw [← h]

/-- Nothing comes before a left-recursive alternative but left-recursive ones. -/
theorem isLeftRecursive_of_isLE (h : (r.compareAlternatives order a b).isLE = true) (hb : r.isLeftRecursive b = true) :
    r.isLeftRecursive a = true := by
  cases ha : r.isLeftRecursive a with
  | true => rfl
  | false =>
    unfold compareAlternatives at h
    rw [ha, hb] at h
    cases h

/-- Alternatives with a common beginning are both left-recursive or both not. -/
theorem isLeftRecursive_eq {p : List Symbol} (hp : p ≠ []) (ha : p <+: a.symbols) (hb : p <+: b.symbols) :
    r.isLeftRecursive a = r.isLeftRecursive b := by
  obtain ⟨s, p, rfl⟩ := List.exists_cons_of_ne_nil hp
  obtain ⟨_, ha⟩ := ha
  obtain ⟨_, hb⟩ := hb
  unfold isLeftRecursive
  rw [← ha, ← hb]
  rfl

/-- **What stands between two alternatives with a common beginning begins like them.** -/
theorem isPrefix_of_between {p : List Symbol} (hab : (r.compareAlternatives order a b).isLE = true)
    (hbc : (r.compareAlternatives order b c).isLE = true) (ha : p <+: a.symbols) (hc : p <+: c.symbols) :
    p <+: b.symbols := by
  by_cases hp : p = []
  · rw [hp]
    exact List.nil_prefix
  -- the one in the middle is left-recursive exactly if the others are
  have hac := isLeftRecursive_eq (r := r) hp ha hc
  have hsame : r.isLeftRecursive a = r.isLeftRecursive b := by
    cases hb : r.isLeftRecursive b with
    | true => exact isLeftRecursive_of_isLE hab hb
    | false =>
      rw [hac]
      exact Bool.eq_false_iff.mpr fun hrec => Bool.eq_false_iff.mp hb (isLeftRecursive_of_isLE hbc hrec)
  rw [compareAlternatives_of_eq hsame] at hab
  rw [compareAlternatives_of_eq (hsame.symm.trans hac)] at hbc
  exact order.isPrefix_of_between hab hbc ha hc

end Rule

/-- Alternatives that begin alike stand together: between two of them are only such that begin like both. -/
def Grouped (alternatives : List Alternative) : Prop :=
  ∀ a b c, [a, b, c].Sublist alternatives → ∀ p, p <+: a.symbols → p <+: c.symbols → p <+: b.symbols

/-- Of two alternatives one comes before the other. -/
theorem Rule.isLE_total (r : Rule) (order : Registry) (a b : Alternative) :
    (r.compareAlternatives order a b).isLE = true ∨ (r.compareAlternatives order b a).isLE = true := by
  have hswap : r.compareAlternatives order b a = (r.compareAlternatives order a b).swap := OrientedCmp.eq_swap
  rw [hswap]
  cases r.compareAlternatives order a b <;> decide

/-- Sorted alternatives are in order. -/
theorem Rule.pairwise_sorted (r : Rule) (order : Registry) :
    (r.sorted order).alternatives.Pairwise fun a b => (r.compareAlternatives order a b).isLE = true :=
  pairwise_sortBy (fun _ _ _ => TransCmp.isLE_trans) (r.isLE_total order) r.alternatives

/-- **Sorting puts alternatives that begin alike side by side.** -/
theorem Rule.grouped_sorted (r : Rule) (order : Registry) : Grouped (r.sorted order).alternatives := by
  intro a b c hsub p ha hc
  obtain ⟨hab, hbc⟩ := List.pairwise_cons.mp ((r.pairwise_sorted order).sublist hsub)
  refine Rule.isPrefix_of_between (hab b List.mem_cons_self) ?_ ha hc
  exact (List.pairwise_cons.mp hbc).1 c List.mem_cons_self

end TableParser
