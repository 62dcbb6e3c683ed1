import Std.Data.String.ToNat
import TableParser.LL.Transformation
import TableParser.LR.Table

/-!
# Fresh names

New nonterminals are named by trying one name after the other. The tries suffice because different tries are different
names, so that there are fewer names in use among those still to be tried (`countP_lt_countP`).

* **Primes** (`Grammar.primedName_not_mem`) and **numbers** (`Transformation.helper_freshIndex_not_mem`).
-/

namespace TableParser

/-- A stronger condition that fails somewhere in a list holds less often there. -/
theorem countP_lt_countP {α : Type} {p q : α → Bool} {xs : List α} {x : α} (hpq : ∀ y ∈ xs, p y = true → q y = true)
    (hx : x ∈ xs) (hq : q x = true) (hp : p x = false) : xs.countP p < xs.countP q := by
  have hsplit : xs.countP p = (xs.filter q).countP p := by
    rw [List.countP_filter]
    refine List.countP_congr fun y hy => ?_
    constructor
    · intro h
      simp [h, hpq y hy h]
    · intro h
      simp only [Bool.and_eq_true] at h
      exact h.1
  rw [hsplit, List.countP_eq_length_filter (p := q)]
  refine Nat.lt_of_le_of_ne List.countP_le_length ?_
  intro heq
  have := List.countP_eq_length.mp heq x (List.mem_filter.mpr ⟨hx, hq⟩)
  rw [hp] at this
  cases this

/-! ## Primes -/

/-- A name that is in use is not among the longer names in use. -/
theorem Grammar.primedName_not_mem_of_le {used : List Symbol} {fuel : Nat} {name : String}
    (h : used.countP (fun s => name.length ≤ s.name.length) ≤ fuel) :
    Symbol.nonterminal (Grammar.primedName used fuel name) ∉ used := by
  induction fuel generalizing name with
  | zero =>
    intro hmem
    have := List.countP_eq_zero.mp (Nat.le_zero.mp h) _ hmem
    exact this (decide_eq_true (Nat.le_refl name.length))
  | succ fuel ih =>
    rw [primedName]
    split
    · rename_i hused
      refine ih (Nat.le_of_lt_succ (Nat.lt_of_lt_of_le ?_ h))
      refine countP_lt_countP (fun s _ hs => ?_) (List.contains_iff_mem.mp hused) ?_ ?_
      · have hlonger := of_decide_eq_true hs
        rw [String.length_append] at hlonger
        exact decide_eq_true (Nat.le_of_add_right_le hlonger)
      · exact decide_eq_true (Nat.le_refl name.length)
      · refine decide_eq_false (Nat.not_le.mpr ?_)
        rw [String.length_append]
        exact Nat.lt_add_of_pos_right (by decide)
    · rename_i hfree
      exact fun hmem => hfree (List.contains_iff_mem.mpr hmem)

/-- **As many primes as there are names in use make a new name.** -/
theorem Grammar.primedName_not_mem (used : List Symbol) (name : String) :
    Symbol.nonterminal (Grammar.primedName used used.length name) ∉ used :=
  primedName_not_mem_of_le List.countP_le_length

/-! ## Numbers -/

namespace Transformation

/-- Helpers with different numbers are different. -/
theorem helper_injective {lhs : Symbol} {m n : Nat} (h : helper lhs m = helper lhs n) : m = n := by
  have hname := Symbol.nonterminal.inj h
  have hlist := congrArg String.toList hname
  simp only [String.toList_append] at hlist
  have hrepr := String.toList_inj.mp (List.append_cancel_left hlist)
  exact Nat.repr_inj.mp hrepr

open Classical in
/-- A number whose helper is taken is not among the larger numbers. -/
theorem helper_freshIndexFrom_not_mem {lhs : Symbol} {taken : List Symbol} {fuel n : Nat}
    (h : taken.countP (fun s => decide (∃ m, n ≤ m ∧ s = helper lhs m)) ≤ fuel) :
    helper lhs (freshIndexFrom lhs taken fuel n) ∉ taken := by
  induction fuel generalizing n with
  | zero =>
    intro hmem
    have := List.countP_eq_zero.mp (Nat.le_zero.mp h) _ hmem
    exact this (decide_eq_true ⟨n, Nat.le_refl n, rfl⟩)
  | succ fuel ih =>
    rw [freshIndexFrom]
    split
    · rename_i htaken
      refine ih (Nat.le_of_lt_succ (Nat.lt_of_lt_of_le ?_ h))
      refine countP_lt_countP (fun s _ hs => ?_) (List.contains_iff_mem.mp htaken) ?_ ?_
      · obtain ⟨m, hm, hs⟩ := of_decide_eq_true hs
        exact decide_eq_true ⟨m, Nat.le_of_succ_le hm, hs⟩
      · exact decide_eq_true ⟨n, Nat.le_refl n, rfl⟩
      · refine decide_eq_false ?_
        rintro ⟨m, hm, heq⟩
        have := helper_injective heq
        omega
    · rename_i hfree
      exact fun hmem => hfree (List.contains_iff_mem.mpr hmem)

/-- **As many tries as there are nonterminals taken make a new helper.** -/
theorem helper_freshIndex_not_mem (lhs : Symbol) (taken : List Symbol) (n : Nat) :
    helper lhs (freshIndex lhs taken n) ∉ taken :=
  helper_freshIndexFrom_not_mem List.countP_le_length

end Transformation
end TableParser
