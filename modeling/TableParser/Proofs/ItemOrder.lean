import Mathlib.Data.List.Sort
import TableParser.Proofs.Closure

/-!
# Item sets are in order

Every set that is built up by insertions lists its items in ascending order (`ItemSet.Ascending`), and so do closures
and transitions. Hence sets with the same items are the same lists (`ItemSet.Ascending.eq_of_mem_iff`), and the items of
a set come in the order of their alternatives.
-/

namespace TableParser

theorem AlternativeId.toRaw_inj {id id' : AlternativeId} (h : id.toRaw = id'.toRaw) : id = id' := by
  have h₁ := id.index.toNat_lt
  have h₂ := id'.index.toNat_lt
  unfold toRaw wordLimit at h
  have hrule : id.rule.toNat = id'.rule.toNat := by omega
  have hindex : id.index.toNat = id'.index.toNat := by omega
  cases id
  cases id'
  exact congrArg₂ AlternativeId.mk (UInt16.toNat_inj.mp hrule) (UInt16.toNat_inj.mp hindex)

namespace LR

theorem Item.eq_of_parts {i j : Item} (ha : i.alternative = j.alternative) (hd : i.dot.toNat = j.dot.toNat) : i = j := by
  cases i
  cases j
  exact congrArg₂ Item.mk ha (UInt16.toNat_inj.mp hd)

theorem Item.rank_inj {i j : Item} (h : i.rank = j.rank) : i = j := by
  have h₁ := i.dot.toNat_lt
  have h₂ := j.dot.toNat_lt
  unfold rank wordLimit at h
  exact Item.eq_of_parts (AlternativeId.toRaw_inj (by omega)) (by omega)

/-- Items in order have their alternatives in order. -/
theorem Item.toRaw_le_of_rank_lt {i j : Item} (h : i.rank < j.rank) : i.alternative.toRaw ≤ j.alternative.toRaw := by
  have := j.dot.toNat_lt
  unfold rank wordLimit at h
  omega

namespace ItemSet

/-- The items are in ascending order, each once. -/
def Ascending (set : ItemSet) : Prop := set.Pairwise fun i j => i.rank < j.rank

variable {set set' : ItemSet} {i : Item}

theorem Ascending.insert (h : Ascending set) (i : Item) : Ascending (ItemSet.insert i set) := by
  induction set with
  | nil => exact List.pairwise_singleton _ _
  | cons other rest ih =>
    obtain ⟨hfirst, hrest⟩ := List.pairwise_cons.mp h
    unfold ItemSet.insert
    split
    · rename_i hlt
      refine List.pairwise_cons.mpr ⟨fun j hj => ?_, h⟩
      rcases List.mem_cons.mp hj with rfl | hj
      · exact hlt
      · exact Nat.lt_trans hlt (hfirst j hj)
    · split
      · exact h
      · rename_i hnot hne
        have hgt : other.rank < i.rank :=
          Nat.lt_of_le_of_ne (Nat.le_of_not_lt hnot) fun heq => hne (Item.rank_inj heq).symm
        refine List.pairwise_cons.mpr ⟨fun j hj => ?_, ih hrest⟩
        rcases mem_insert.mp hj with rfl | hj
        · exact hgt
        · exact hfirst j hj

theorem Ascending.insertAll (h : Ascending set) (items : List Item) : Ascending (ItemSet.insertAll set items) := by
  induction items with
  | nil => exact h
  | cons i items ih => exact ih.insert i

theorem ascending_ofList (items : List Item) : Ascending (ofList items) := Ascending.insertAll .nil items

/-- **Sets with the same items are the same.** -/
theorem Ascending.eq_of_mem_iff (h : Ascending set) (h' : Ascending set') (hmem : ∀ i, i ∈ set ↔ i ∈ set') :
    set = set' := by
  have : Std.Irrefl fun i j : Item => i.rank < j.rank := ⟨fun i => Nat.lt_irrefl i.rank⟩
  have : Std.Antisymm fun i j : Item => i.rank < j.rank := ⟨fun i j hij hji => absurd hij (Nat.lt_asymm hji)⟩
  exact List.Pairwise.eq_of_mem_iff h h' hmem

end ItemSet

namespace Prediction

open ItemSet (Ascending)

variable {p : Prediction} {set fresh closed target : ItemSet} {s : Symbol}

theorem ascending_closing {fuel : Nat} {fault : Option Fault} (h : Ascending set)
    (hc : p.closing fuel fresh set = (closed, fault)) : Ascending closed := by
  induction fuel generalizing fresh set with
  | zero =>
    cases hc
    exact h
  | succ fuel ih =>
    rw [closing] at hc
    cases hd : p.discovered fresh set with
    | error f =>
      rw [hd] at hc
      cases hc
      exact h
    | ok new =>
      rw [hd] at hc
      cases new with
      | nil =>
        cases hc
        exact h
      | cons j new => exact ih (h.insertAll _) hc

/-- The closure of a set in order is in order. -/
theorem ascending_closure (h : Ascending set) (hc : p.closure set = .ok closed) : Ascending closed :=
  ascending_closing h (closure_eq_ok.mp hc)

/-- Transitions lead to sets in order. -/
theorem ascending_transition (h : p.transition set s = .ok target) : Ascending target := by
  obtain ⟨kernel, hk, hc⟩ := transition_eq_ok.mp h
  unfold Prediction.kernel at hk
  obtain ⟨results, _, hk⟩ := bind_eq_ok_iff.mp hk
  cases hk
  exact ascending_closure (ItemSet.ascending_ofList _) hc

end Prediction
end LR
end TableParser
