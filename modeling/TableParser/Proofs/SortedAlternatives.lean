import TableParser.Proofs.AlternativeOrder

/-!
# What sorting does to a rule

The alternatives of a rule are compared by whether they are left-recursive and then by what stands behind their common
beginning (`Rule.compareAlternatives_eq_first`). The order is total and transitive, only alternatives with the same symbols
are equal in it, and there is one list alone that a stable sort can make of the alternatives (`Rule.StablySorts.unique`).

* **Left-recursive alternatives are in front** and **those that begin alike stand together**, the one that ends there behind
  the others (`Rule.exists_split_leftRecursive`, `Rule.exists_split_prefix`).
* **A second sort changes nothing** (`Rule.sorted_sorted`).
-/

namespace TableParser

open Std

/-! ## Lists in blocks -/

section Blocks

variable {α : Type} {P : α → Bool} {list : List α}

/-- Elements behind which all have a property are a block at the end. -/
theorem exists_split_of_pairwise (h : list.Pairwise fun a b => P a = true → P b = true) :
    ∃ front back, list = front ++ back ∧ (∀ a ∈ front, P a = false) ∧ ∀ a ∈ back, P a = true := by
  induction list with
  | nil => exact ⟨[], [], rfl, nofun, nofun⟩
  | cons a list ih =>
    obtain ⟨ha, hlist⟩ := List.pairwise_cons.mp h
    cases hP : P a with
    | true =>
      refine ⟨[], a :: list, rfl, nofun, fun b hb => ?_⟩
      rcases List.mem_cons.mp hb with rfl | hb
      · exact hP
      · exact ha b hb hP
    | false =>
      obtain ⟨front, back, rfl, hfront, hback⟩ := ih hlist
      refine ⟨a :: front, back, rfl, fun b hb => ?_, hback⟩
      rcases List.mem_cons.mp hb with rfl | hb
      · exact hP
      · exact hfront b hb

/-- Elements between which all have a property are a block. -/
theorem exists_split_of_between (h : ∀ a b c, [a, b, c].Sublist list → P a = true → P c = true → P b = true) :
    ∃ before block behind, list = before ++ block ++ behind ∧ (∀ a ∈ before ++ behind, P a = false) ∧
      ∀ a ∈ block, P a = true := by
  induction list with
  | nil => exact ⟨[], [], [], rfl, nofun, nofun⟩
  | cons a list ih =>
    obtain ⟨before, block, behind, rfl, hothers, hblock⟩ := ih fun b c d hsub => h b c d (hsub.cons a)
    cases hP : P a with
    | false =>
      refine ⟨a :: before, block, behind, rfl, fun b hb => ?_, hblock⟩
      rcases List.mem_cons.mp hb with rfl | hb
      · exact hP
      · exact hothers b hb
    | true =>
      cases block with
      | nil =>
        rw [List.append_nil]
        exact ⟨[], [a], before ++ behind, rfl, hothers, List.forall_mem_singleton.mpr hP⟩
      | cons c block =>
        -- nothing stands between two elements of the block
        have hbefore : before = [] := by
          cases before with
          | nil => rfl
          | cons b before =>
            have hsub : [a, b, c].Sublist (a :: (b :: before ++ c :: block ++ behind)) := by
              rw [List.append_assoc]
              exact ((List.singleton_sublist.mpr (List.mem_append_right before
                (List.mem_append_left behind List.mem_cons_self))).cons_cons b).cons_cons a
            have hb := h a b c hsub hP (hblock c List.mem_cons_self)
            rw [hothers b List.mem_cons_self] at hb
            cases hb
        subst hbefore
        refine ⟨[], a :: c :: block, behind, rfl, hothers, fun b hb => ?_⟩
        rcases List.mem_cons.mp hb with rfl | hb
        · exact hP
        · exact hblock b hb

end Blocks

/-- **There is one way to sort a list stably**: lists in order whose equivalent elements come in the same order are equal. -/
theorem eq_of_pairwise_of_filter {α : Type} {cmp : α → α → Ordering} [TransCmp cmp] {xs ys : List α}
    (hx : xs.Pairwise fun a b => (cmp a b).isLE = true) (hy : ys.Pairwise fun a b => (cmp a b).isLE = true)
    (h : ∀ a, (xs.filter fun b => cmp a b == .eq) = ys.filter fun b => cmp a b == .eq) : xs = ys := by
  have hself : ∀ a, (cmp a a == .eq) = true := fun a => beq_iff_eq.mpr ReflCmp.compare_self
  have hmem : ∀ a, a ∈ xs ↔ a ∈ ys := by
    intro a
    have ha : a ∈ xs.filter (fun b => cmp a b == .eq) ↔ a ∈ ys.filter fun b => cmp a b == .eq := by rw [h a]
    simpa [List.mem_filter, hself a] using ha
  induction xs generalizing ys with
  | nil =>
    cases ys with
    | nil => rfl
    | cons y ys => exact absurd ((hmem y).mpr List.mem_cons_self) List.not_mem_nil
  | cons x xs ih =>
    cases ys with
    | nil => exact absurd ((hmem x).mp List.mem_cons_self) List.not_mem_nil
    | cons y ys =>
      obtain ⟨hxs, hxrest⟩ := List.pairwise_cons.mp hx
      obtain ⟨hys, hyrest⟩ := List.pairwise_cons.mp hy
      -- both heads come before all others, so they are equivalent, and then they are the same
      have hle : (cmp x y).isLE = true := by
        rcases List.mem_cons.mp ((hmem y).mpr List.mem_cons_self) with rfl | hmem
        · exact ReflCmp.isLE_rfl
        · exact hxs y hmem
      have hge : (cmp y x).isLE = true := by
        rcases List.mem_cons.mp ((hmem x).mp List.mem_cons_self) with rfl | hmem
        · exact ReflCmp.isLE_rfl
        · exact hys x hmem
      have heq : cmp x y = .eq := OrientedCmp.isLE_antisymm hle hge
      have hhead := h x
      rw [List.filter_cons, List.filter_cons, if_pos (hself x), if_pos (beq_iff_eq.mpr heq)] at hhead
      obtain ⟨rfl, _⟩ := List.cons.inj hhead
      have hrest : ∀ a, (xs.filter fun b => cmp a b == .eq) = ys.filter fun b => cmp a b == .eq := by
        intro a
        have ha := h a
        simp only [List.filter_cons] at ha
        split at ha
        · exact (List.cons.inj ha).2
        · exact ha
      refine congrArg (x :: ·) (ih hxrest hyrest hrest fun a => ?_)
      have ha : a ∈ xs.filter (fun b => cmp a b == .eq) ↔ a ∈ ys.filter fun b => cmp a b == .eq := by rw [hrest a]
      simpa [List.mem_filter, hself a] using ha

/-! ## The order -/

namespace Registry

variable (order : Registry)

/-- Compare what stands behind a common beginning: later requests first, and the end behind everything. -/
def compareBehind : Option Symbol → Option Symbol → Ordering
  | none, none => .eq
  | none, some _ => .gt
  | some _, none => .lt
  | some x, some y => order.compare y x

/-- Strings compare by what stands behind their longest common beginning. -/
theorem compareStrings_eq_behind (xs ys : List Symbol) :
    order.compareStrings xs ys = order.compareBehind xs[commonLength xs ys]? ys[commonLength xs ys]? := by
  induction xs generalizing ys with
  | nil => cases ys <;> rfl
  | cons x xs ih =>
    cases ys with
    | nil => rfl
    | cons y ys =>
      unfold compareStrings commonLength
      split
      · simp only [List.getElem?_cons_succ, ih ys]
      · rfl

/-- Only equal strings are equal in the order. -/
theorem compareStrings_eq_eq_iff {xs ys : List Symbol} : order.compareStrings xs ys = .eq ↔ xs = ys := by
  refine ⟨fun h => ?_, fun h => h ▸ ReflCmp.compare_self⟩
  induction xs generalizing ys with
  | nil =>
    cases ys with
    | nil => rfl
    | cons y ys => cases h
  | cons x xs ih =>
    cases ys with
    | nil => cases h
    | cons y ys =>
      unfold compareStrings at h
      split at h
      · rename_i heq
        rw [heq, ih h]
      · rename_i hne
        exact absurd (LawfulEqCmp.eq_of_compare h).symm hne

/-- A string that goes on comes before the one that ends. -/
theorem eq_of_isLE_of_isPrefix {p ys : List Symbol} (h : (order.compareStrings p ys).isLE = true) (hp : p <+: ys) :
    ys = p := by
  induction p generalizing ys with
  | nil =>
    cases ys with
    | nil => rfl
    | cons y ys => cases h
  | cons s p ih =>
    obtain ⟨rest, rfl⟩ := hp
    rw [List.cons_append, compareStrings, if_pos rfl] at h
    rw [List.cons_append, ih h (List.prefix_append p rest)]

end Registry

namespace Rule

variable (r : Rule) (order : Registry) {a b : Alternative} {p : List Symbol}

/-- **What the order of alternatives looks at**: a left-recursive alternative comes before one that is not, and otherwise what
stands behind the common beginning decides. -/
theorem compareAlternatives_eq_first (a b : Alternative) : r.compareAlternatives order a b =
    if r.isLeftRecursive a = r.isLeftRecursive b then
      order.compareBehind a.symbols[commonLength a.symbols b.symbols]? b.symbols[commonLength a.symbols b.symbols]?
    else if r.isLeftRecursive a then .lt else .gt := by
  split
  · rename_i h
    rw [compareAlternatives_of_eq h, order.compareStrings_eq_behind]
  · rename_i h
    unfold compareAlternatives
    cases ha : r.isLeftRecursive a <;> cases hb : r.isLeftRecursive b <;> simp_all

variable {r order}

/-- Only alternatives with the same symbols are equal in the order. -/
theorem compareAlternatives_eq_eq_iff : r.compareAlternatives order a b = .eq ↔ a.symbols = b.symbols := by
  constructor
  · intro h
    have hsame : r.isLeftRecursive a = r.isLeftRecursive b := by
      unfold compareAlternatives at h
      cases ha : r.isLeftRecursive a <;> cases hb : r.isLeftRecursive b <;> simp_all
    rw [compareAlternatives_of_eq hsame] at h
    exact order.compareStrings_eq_eq_iff.mp h
  · intro h
    have hsame : r.isLeftRecursive a = r.isLeftRecursive b := by
      unfold isLeftRecursive
      rw [h]
    rw [compareAlternatives_of_eq hsame, h]
    exact ReflCmp.compare_self

/-- Behind an alternative that ends with a beginning, nothing goes on from there. -/
theorem symbols_eq_of_isLE (h : (r.compareAlternatives order a b).isLE = true) (ha : a.symbols = p)
    (hb : p <+: b.symbols) : b.symbols = p := by
  have hsame : r.isLeftRecursive a = r.isLeftRecursive b := by
    by_cases hp : p = []
    · have hno : r.isLeftRecursive a = false := by
        unfold isLeftRecursive
        rw [ha, hp]
        rfl
      cases hrec : r.isLeftRecursive b with
      | true => exact isLeftRecursive_of_isLE h hrec
      | false => exact hno
    · exact isLeftRecursive_eq hp (ha ▸ List.prefix_rfl) hb
  rw [compareAlternatives_of_eq hsame, ha] at h
  exact order.eq_of_isLE_of_isPrefix h hb

/-! ## Sorted alternatives -/

/-- The list is what a stable sort makes of the alternatives of the rule. -/
structure StablySorts (r : Rule) (order : Registry) (list : List Alternative) : Prop where
  perm : list.Perm r.alternatives
  ordered : list.Pairwise fun a b => (r.compareAlternatives order a b).isLE = true
  /-- Alternatives that are equal in the order keep theirs. -/
  stable : ∀ a, (list.filter fun b => r.compareAlternatives order a b == .eq) =
    r.alternatives.filter fun b => r.compareAlternatives order a b == .eq

theorem stablySorts_sorted (r : Rule) (order : Registry) : r.StablySorts order (r.sorted order).alternatives where
  perm := sortBy_perm r.alternatives
  ordered := r.pairwise_sorted order
  stable a := filter_sortBy (fun b c hb hc => by
    rw [TransCmp.congr_left (OrientedCmp.eq_symm (beq_iff_eq.mp hb)), beq_iff_eq.mp hc]
    rfl) r.alternatives

/-- **A stable sort has one result.** -/
theorem StablySorts.unique {xs ys : List Alternative} (hx : r.StablySorts order xs) (hy : r.StablySorts order ys) :
    xs = ys :=
  eq_of_pairwise_of_filter hx.ordered hy.ordered fun a => (hx.stable a).trans (hy.stable a).symm

/-- **Left-recursive alternatives come first.** -/
theorem exists_split_leftRecursive (r : Rule) (order : Registry) : ∃ front back,
    (r.sorted order).alternatives = front ++ back ∧ (∀ a ∈ front, r.isLeftRecursive a = true) ∧
      ∀ a ∈ back, r.isLeftRecursive a = false := by
  have hpairwise : (r.sorted order).alternatives.Pairwise fun a b =>
      (!r.isLeftRecursive a) = true → (!r.isLeftRecursive b) = true := by
    refine (r.pairwise_sorted order).imp fun {a b} h ha => ?_
    rw [Bool.not_eq_true'] at ha ⊢
    exact Bool.eq_false_iff.mpr fun hb => Bool.eq_false_iff.mp ha (isLeftRecursive_of_isLE h hb)
  simpa only [Bool.not_eq_true', Bool.not_eq_false'] using exists_split_of_pairwise hpairwise

/-- **Alternatives with a common beginning stand together**, those that end with it behind the longer ones. -/
theorem exists_split_prefix (r : Rule) (order : Registry) (p : List Symbol) : ∃ before longer ending behind,
    (r.sorted order).alternatives = before ++ (longer ++ ending) ++ behind ∧
      (∀ a ∈ before ++ behind, ¬p <+: a.symbols) ∧ (∀ a ∈ longer, p <+: a.symbols ∧ a.symbols ≠ p) ∧
      ∀ a ∈ ending, a.symbols = p := by
  have hbetween : ∀ a b c, [a, b, c].Sublist (r.sorted order).alternatives → p.isPrefixOf a.symbols = true →
      p.isPrefixOf c.symbols = true → p.isPrefixOf b.symbols = true := by
    intro a b c hsub ha hc
    rw [List.isPrefixOf_iff_prefix] at ha hc ⊢
    exact r.grouped_sorted order a b c hsub p ha hc
  obtain ⟨before, block, behind, hlist, hothers, hblock⟩ := exists_split_of_between hbetween
  have hblock := fun a ha => List.isPrefixOf_iff_prefix.mp (hblock a ha)
  have hordered : block.Pairwise fun a b => (r.compareAlternatives order a b).isLE = true := by
    refine (r.pairwise_sorted order).sublist ?_
    rw [hlist, List.append_assoc]
    exact (List.sublist_append_left block behind).trans (List.sublist_append_right before _)
  have hpairwise : block.Pairwise fun a b => (a.symbols == p) = true → (b.symbols == p) = true := by
    refine hordered.imp_of_mem fun {a b} _ hb h ha => ?_
    exact beq_iff_eq.mpr (symbols_eq_of_isLE h (beq_iff_eq.mp ha) (hblock b hb))
  obtain ⟨longer, ending, rfl, hlonger, hending⟩ := exists_split_of_pairwise hpairwise
  refine ⟨before, longer, ending, behind, hlist, fun a ha hp => ?_, fun a ha => ⟨?_, ?_⟩, fun a ha => ?_⟩
  · exact Bool.eq_false_iff.mp (hothers a ha) (List.isPrefixOf_iff_prefix.mpr hp)
  · exact hblock a (List.mem_append_left _ ha)
  · exact beq_eq_false_iff_ne.mp (hlonger a ha)
  · exact beq_iff_eq.mp (hending a ha)

/-- **A second sort changes nothing.** -/
theorem sorted_sorted (r : Rule) (order : Registry) : (r.sorted order).sorted order = r.sorted order :=
  congrArg (Rule.mk r.lhs) (sortBy_eq_self (r.pairwise_sorted order))

/-- What the order of alternatives is, and what sorting by it does. -/
structure Arranges (r : Rule) (order : Registry) : Prop where
  compare_eq : ∀ a b, r.compareAlternatives order a b =
    if r.isLeftRecursive a = r.isLeftRecursive b then
      order.compareBehind a.symbols[commonLength a.symbols b.symbols]? b.symbols[commonLength a.symbols b.symbols]?
    else if r.isLeftRecursive a then .lt else .gt
  /-- The order is a total preorder. -/
  swap : ∀ a b, r.compareAlternatives order b a = (r.compareAlternatives order a b).swap
  total : ∀ a b, (r.compareAlternatives order a b).isLE = true ∨ (r.compareAlternatives order b a).isLE = true
  trans : ∀ a b c, (r.compareAlternatives order a b).isLE = true → (r.compareAlternatives order b c).isLE = true →
    (r.compareAlternatives order a c).isLE = true
  eq_iff : ∀ a b, r.compareAlternatives order a b = .eq ↔ a.symbols = b.symbols
  perm : (r.sorted order).alternatives.Perm r.alternatives
  /-- Any stable sort by this order gives the sorted rule. -/
  stablySorts_iff : ∀ list, r.StablySorts order list ↔ list = (r.sorted order).alternatives
  lhs_eq : (r.sorted order).lhs = r.lhs
  leftRecursive : ∃ front back, (r.sorted order).alternatives = front ++ back ∧
    (∀ a ∈ front, r.isLeftRecursive a = true) ∧ ∀ a ∈ back, r.isLeftRecursive a = false
  beginning : ∀ p, ∃ before longer ending behind,
    (r.sorted order).alternatives = before ++ (longer ++ ending) ++ behind ∧
      (∀ a ∈ before ++ behind, ¬p <+: a.symbols) ∧ (∀ a ∈ longer, p <+: a.symbols ∧ a.symbols ≠ p) ∧
      ∀ a ∈ ending, a.symbols = p
  idem : (r.sorted order).sorted order = r.sorted order

/-- **Sorting arranges the alternatives of every rule**, in whatever order they are and the symbols were asked for. -/
theorem arranges_of_sorted (r : Rule) (order : Registry) : r.Arranges order where
  compare_eq := r.compareAlternatives_eq_first order
  swap _ _ := OrientedCmp.eq_swap
  total := r.isLE_total order
  trans _ _ _ := TransCmp.isLE_trans
  eq_iff _ _ := compareAlternatives_eq_eq_iff
  perm := sortBy_perm r.alternatives
  stablySorts_iff _ := ⟨fun h => h.unique (r.stablySorts_sorted order), fun h => h ▸ r.stablySorts_sorted order⟩
  lhs_eq := rfl
  leftRecursive := r.exists_split_leftRecursive order
  beginning := r.exists_split_prefix order
  idem := r.sorted_sorted order

end Rule
end TableParser
