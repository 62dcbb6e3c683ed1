/-!
# Stable sorting

A list is sorted by insertion, from its end to its front: an element goes in front of the first one that it may
precede. So elements that may precede each other keep their order.

* **Nothing is lost** (`sortBy_perm`), **the result is in order** (`pairwise_sortBy`), and **a list that is in order
  stays as it is** (`sortBy_eq_self`).
* **The sort is stable** (`filter_sortBy`): elements all of which may precede each other keep their order.
-/

namespace TableParser

variable {α : Type} {le : α → α → Bool}

/-- Insert an element in front of the first one that it may precede. -/
def insertBy (le : α → α → Bool) (a : α) : List α → List α
  | [] => [a]
  | b :: rest => if le a b then a :: b :: rest else b :: insertBy le a rest

/-- Sort a list; elements that may precede each other keep their order. -/
def sortBy (le : α → α → Bool) (list : List α) : List α := list.foldr (insertBy le) []

theorem insertBy_perm (a : α) (list : List α) : (insertBy le a list).Perm (a :: list) := by
  induction list with
  | nil => exact List.Perm.refl _
  | cons b rest ih =>
    unfold insertBy
    split
    · exact List.Perm.refl _
    · exact (ih.cons b).trans (List.Perm.swap a b rest)

/-- Sorting loses nothing and adds nothing. -/
theorem sortBy_perm (list : List α) : (sortBy le list).Perm list := by
  induction list with
  | nil => exact List.Perm.refl _
  | cons a list ih => exact (insertBy_perm a _).trans (ih.cons a)

theorem pairwise_insertBy (trans : ∀ a b c, le a b = true → le b c = true → le a c = true)
    (total : ∀ a b, le a b = true ∨ le b a = true) {a : α} {list : List α}
    (h : list.Pairwise fun a b => le a b = true) : (insertBy le a list).Pairwise fun a b => le a b = true := by
  induction list with
  | nil => exact List.pairwise_singleton _ _
  | cons b rest ih =>
    obtain ⟨hb, hrest⟩ := List.pairwise_cons.mp h
    unfold insertBy
    split
    · rename_i hab
      refine List.pairwise_cons.mpr ⟨fun c hc => ?_, h⟩
      rcases List.mem_cons.mp hc with rfl | hc
      · exact hab
      · exact trans a b c hab (hb c hc)
    · rename_i hab
      refine List.pairwise_cons.mpr ⟨fun c hc => ?_, ih hrest⟩
      rcases List.mem_cons.mp ((insertBy_perm a rest).mem_iff.mp hc) with rfl | hc
      · exact (total c b).resolve_left hab
      · exact hb c hc

/-- A sorted list is in order, for every order that is total. -/
theorem pairwise_sortBy (trans : ∀ a b c, le a b = true → le b c = true → le a c = true)
    (total : ∀ a b, le a b = true ∨ le b a = true) (list : List α) :
    (sortBy le list).Pairwise fun a b => le a b = true := by
  induction list with
  | nil => exact List.Pairwise.nil
  | cons a list ih => exact pairwise_insertBy trans total ih

theorem filter_insertBy {same : α → Bool} (hsame : ∀ a b, same a = true → same b = true → le a b = true) (a : α)
    (list : List α) : (insertBy le a list).filter same = (a :: list).filter same := by
  induction list with
  | nil => rfl
  | cons b rest ih =>
    unfold insertBy
    split
    · rfl
    · rename_i hab
      rw [List.filter_cons, ih]
      cases ha : same a with
      | false => simp [List.filter_cons, ha]
      | true =>
        -- what is passed over is not among the elements in question
        have hb : same b = false := Bool.eq_false_iff.mpr fun hb => hab (hsame a b ha hb)
        simp [ha, hb]

/-- Elements that may precede each other keep their order. -/
theorem filter_sortBy {same : α → Bool} (hsame : ∀ a b, same a = true → same b = true → le a b = true)
    (list : List α) : (sortBy le list).filter same = list.filter same := by
  induction list with
  | nil => rfl
  | cons a list ih => rw [sortBy, List.foldr_cons, ← sortBy, filter_insertBy hsame, List.filter_cons, ih, List.filter_cons]

/-- A list that is in order stays as it is. -/
theorem sortBy_eq_self {list : List α} (h : list.Pairwise fun a b => le a b = true) : sortBy le list = list := by
  induction list with
  | nil => rfl
  | cons a list ih =>
    obtain ⟨ha, hlist⟩ := List.pairwise_cons.mp h
    rw [sortBy, List.foldr_cons, ← sortBy, ih hlist]
    cases list with
    | nil => rfl
    | cons b rest => exact if_pos (ha b List.mem_cons_self)

end TableParser
