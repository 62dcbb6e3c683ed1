import Mathlib.Algebra.Order.BigOperators.Group.List
import Mathlib.Algebra.Order.Ring.Nat
import Mathlib.Data.List.Perm.Subperm
import TableParser.Analysis.Saturation
import TableParser.Proofs.Entries
import TableParser.SymbolSets

/-!
# Growing sets

Passes that only add members to sets come to an end, because there is only so much room (`SymbolSets.Within`), and the
sets that they end with are stable: no part of a pass adds anything to them.

* **Passes come to an end** (`saturates_saturate`), and the last one adds nothing (`Saturates.exists_last`).
* **Additions** (`SymbolSets.Adding`): an update that does not change the number of members changes no set, and a
  sequence of them has no part that changes one (`SymbolSets.Adding.foldl`, `SymbolSets.exists_stable`).
-/

namespace TableParser

/-- Passes one after the other, of which the last one, and only the last one, adds nothing: what they begin with, what
they end with, and how many they are. -/
inductive Saturates {α : Type} (pass : α → α × Bool) : α → α → Nat → Prop
  | last {a b : α} (h : pass a = (b, false)) : Saturates pass a b 1
  | more {a b c : α} {n : Nat} (h : pass a = (b, true)) (hr : Saturates pass b c n) : Saturates pass a c (n + 1)

/-- **Passes come to an end** if they are given more fuel than there is room. -/
theorem saturates_saturate {α : Type} (pass : α → α × Bool) (size : α → Nat) {room fuel : Nat} {P : α → Prop} {a : α}
    (ha : P a) (hP : ∀ a, P a → P (pass a).1) (hgrow : ∀ a, (pass a).2 = true → size a < size (pass a).1)
    (hroom : ∀ a, P a → size a ≤ room) (hfuel : room < size a + fuel) :
    Saturates pass a (saturate pass fuel a).1 (saturate pass fuel a).2 := by
  induction fuel generalizing a with
  | zero =>
    have := hroom a ha
    omega
  | succ fuel ih =>
    rw [saturate]
    cases hpass : pass a with
    | mk next grown =>
      have hnext : P next := by
        have := hP a ha
        rwa [hpass] at this
      cases grown with
      | false => exact .last hpass
      | true =>
        have hlt := hgrow a (by rw [hpass])
        rw [hpass] at hlt
        have hlt' : size a < size next := hlt
        exact .more hpass (ih hnext (by omega))

/-- The last pass adds nothing, and begins with what the passes before it keep. -/
theorem Saturates.exists_last {α : Type} {pass : α → α × Bool} {a b : α} {n : Nat} (h : Saturates pass a b n)
    {P : α → Prop} (ha : P a) (hP : ∀ a, P a → P (pass a).1) : ∃ c, P c ∧ pass c = (b, false) := by
  induction h with
  | last hpass => exact ⟨_, ha, hpass⟩
  | @more a b c n hpass _ ih =>
    have hnext := hP a ha
    rw [hpass] at hnext
    exact ih hnext

/-- What passes keep is kept by all of them together. -/
theorem saturate_induction {α : Type} (pass : α → α × Bool) {motive : α → Prop}
    (hpass : ∀ a, motive a → motive (pass a).1) {a : α} (ha : motive a) (fuel : Nat) :
    motive (saturate pass fuel a).1 := by
  induction fuel generalizing a with
  | zero => exact ha
  | succ fuel ih =>
    have hnext := hpass a ha
    rw [saturate]
    cases h : pass a with
    | mk next grown =>
      rw [h] at hnext
      cases grown with
      | false => exact hnext
      | true => exact ih hnext

/-! ## Insertions -/

theorem prefix_insertSymbol (set : List Symbol) (s : Symbol) : set <+: insertSymbol set s := by
  unfold insertSymbol
  split
  · exact List.prefix_rfl
  · exact List.prefix_append _ _

theorem prefix_insertSymbols (set added : List Symbol) : set <+: insertSymbols set added := by
  induction added generalizing set with
  | nil => exact List.prefix_rfl
  | cons s added ih => exact (prefix_insertSymbol set s).trans (ih (insertSymbol set s))

namespace SymbolSets

variable {t u : SymbolSets} {s k x : Symbol} {added : List Symbol}

theorem mem_members_add : x ∈ (t.add s added).members k ↔ x ∈ t.members k ∨ k = s ∧ x ∈ added := by
  rw [members_add]
  split
  · rename_i h
    rw [mem_insertSymbols]
    exact ⟨fun hx => hx.imp_right fun hx => ⟨h, hx⟩, fun hx => hx.imp_right fun hx => hx.2⟩
  · rename_i h
    exact ⟨Or.inl, fun hx => hx.resolve_right fun hx => h hx.1⟩

theorem grew_iff {before after : SymbolSets} : before.grew after = true ↔ before.size < after.size := by
  rw [grew, decide_eq_true_iff]

theorem not_mem_members_empty : x ∉ empty.members k := List.not_mem_nil

/-! ## Additions -/

/-- What becomes of an entry when members are added to the set of a symbol. -/
def enlarge (s : Symbol) (added : List Symbol) (entry : Symbol × List Symbol) : Symbol × List Symbol :=
  if entry.1 = s then (entry.1, insertSymbols entry.2 added) else entry

@[simp] theorem fst_enlarge (s : Symbol) (added : List Symbol) (entry : Symbol × List Symbol) :
    (enlarge s added entry).1 = entry.1 := by
  unfold enlarge
  split <;> rfl

theorem snd_enlarge (s : Symbol) (added : List Symbol) (entry : Symbol × List Symbol) :
    (enlarge s added entry).2 = entry.2 ∨ (enlarge s added entry).2 = insertSymbols entry.2 added := by
  unfold enlarge
  split
  · exact .inr rfl
  · exact .inl rfl

theorem prefix_enlarge (s : Symbol) (added : List Symbol) (entry : Symbol × List Symbol) :
    entry.2 <+: (enlarge s added entry).2 := by
  rcases snd_enlarge s added entry with h | h
  · exact h ▸ List.prefix_rfl
  · exact h ▸ prefix_insertSymbols entry.2 added

/-- Members are added to the entry of the symbol, which is a new one if it had none. -/
theorem add_cases (t : SymbolSets) (s : Symbol) (added : List Symbol) :
    t.entries.lookup s = none ∧ t.add s added = ⟨t.entries ++ [(s, insertSymbols [] added)]⟩ ∨
      t.add s added = ⟨t.entries.map (enlarge s added)⟩ := by
  unfold add get?
  split
  · rename_i hnone
    exact .inl ⟨hnone, rfl⟩
  · exact .inr rfl

private theorem size_map_enlarge_le (entries : List (Symbol × List Symbol)) (s : Symbol) (added : List Symbol) :
    size ⟨entries⟩ ≤ size ⟨entries.map (enlarge s added)⟩ := by
  induction entries with
  | nil => exact Nat.le_refl _
  | cons entry entries ih =>
    simp only [size, List.map_cons, List.flatMap_cons, List.length_append] at ih ⊢
    exact Nat.add_le_add (prefix_enlarge s added entry).length_le ih

private theorem map_enlarge_eq_self (entries : List (Symbol × List Symbol)) (s : Symbol) (added : List Symbol)
    (h : size ⟨entries.map (enlarge s added)⟩ = size ⟨entries⟩) : entries.map (enlarge s added) = entries := by
  induction entries with
  | nil => rfl
  | cons entry entries ih =>
    have hle := size_map_enlarge_le entries s added
    have hset := (prefix_enlarge s added entry).length_le
    simp only [size, List.map_cons, List.flatMap_cons, List.length_append] at ih h hle ⊢
    have hsame : entry = enlarge s added entry :=
      Prod.ext (fst_enlarge s added entry).symm ((prefix_enlarge s added entry).eq_of_length (by omega))
    rw [ih (by omega), ← hsame]

/-- An update that only adds members, and changes no set if it adds none. -/
structure Adding (f : SymbolSets → SymbolSets) : Prop where
  size_le : ∀ t, t.size ≤ (f t).size
  members_eq : ∀ t, (f t).size = t.size → ∀ k, (f t).members k = t.members k

theorem Adding.id : Adding fun t => t := ⟨fun _ => Nat.le_refl _, fun _ _ _ => rfl⟩

/-- Adding members to the set of a symbol, whatever they are computed from. -/
theorem Adding.add (s : Symbol) (added : SymbolSets → List Symbol) : Adding fun t => t.add s (added t) := by
  refine ⟨fun t => ?_, fun t h k => ?_⟩
  · rcases add_cases t s (added t) with ⟨_, heq⟩ | heq
    · rw [heq]
      simp only [size, List.flatMap_append, List.length_append]
      omega
    · rw [heq]
      exact size_map_enlarge_le t.entries s (added t)
  · rcases add_cases t s (added t) with ⟨hnone, heq⟩ | heq
    · rw [heq] at h ⊢
      simp only [size, List.flatMap_append, List.flatMap_singleton, List.length_append] at h
      have hnil : insertSymbols [] (added t) = [] := List.eq_nil_of_length_eq_zero (by omega)
      by_cases hk : k = s
      · subst hk
        simp [members, get?, List.lookup_append, hnone, hnil]
      · have hb : (k == s) = false := beq_eq_false_iff_ne.mpr hk
        simp [members, get?, List.lookup_append, List.lookup_cons, hb]
    · rw [heq] at h ⊢
      rw [map_enlarge_eq_self t.entries s (added t) h]

/-- If a table does not get larger, what was added was there already. -/
theorem subset_of_size_add (h : (t.add s added).size = t.size) : ∀ x ∈ added, x ∈ t.members s := by
  intro x hx
  have heq := (Adding.add s fun _ => added).members_eq t h s
  rw [← heq]
  exact mem_members_add.mpr (.inr ⟨rfl, hx⟩)

theorem Adding.comp {f g : SymbolSets → SymbolSets} (hf : Adding f) (hg : Adding g) : Adding fun t => g (f t) := by
  refine ⟨fun t => Nat.le_trans (hf.size_le t) (hg.size_le (f t)), fun t h k => ?_⟩
  have h₁ := hf.size_le t
  have h₂ := hg.size_le (f t)
  rw [hg.members_eq (f t) (by omega) k, hf.members_eq t (by omega) k]

section Fold

variable {α : Type} {f : SymbolSets → α → SymbolSets} {xs : List α}

/-- Additions one after the other. -/
theorem Adding.foldl (hf : ∀ x ∈ xs, Adding fun t => f t x) : Adding fun t => xs.foldl f t := by
  induction xs with
  | nil => exact Adding.id
  | cons x xs ih =>
    exact (hf x List.mem_cons_self).comp (ih fun y hy => hf y (List.mem_cons_of_mem x hy))

/-- **If additions one after the other change nothing in all, none of them changes anything.** -/
theorem exists_stable (hf : ∀ x ∈ xs, Adding fun t => f t x) (h : (xs.foldl f t).size = t.size) :
    ∀ x ∈ xs, ∃ u, (∀ k, u.members k = t.members k) ∧ (f u x).size = u.size := by
  induction xs generalizing t with
  | nil =>
    intro x hx
    cases hx
  | cons y xs ih =>
    have hy := hf y List.mem_cons_self
    have hrest := fun x hx => hf x (List.mem_cons_of_mem y hx)
    have h₁ := hy.size_le t
    have h₂ := (Adding.foldl hrest).size_le (f t y)
    rw [List.foldl_cons] at h
    have hsame : (f t y).size = t.size := by omega
    intro x hx
    rcases List.mem_cons.mp hx with rfl | hx
    · exact ⟨t, fun _ => rfl, hsame⟩
    · have hsame' : (xs.foldl f (f t y)).size = (f t y).size := by omega
      obtain ⟨u, hu, hux⟩ := ih hrest hsame' x hx
      exact ⟨u, fun k => (hu k).trans (hy.members_eq t hsame k), hux⟩

end Fold

/-! ## Room -/

/-- The entries stand under keys from one list and hold members from another one, nothing twice. -/
structure Within (keys values : List Symbol) (t : SymbolSets) : Prop where
  nodup_keys : (t.entries.map Prod.fst).Nodup
  mem_keys : ∀ e ∈ t.entries, e.1 ∈ keys
  nodup_values : ∀ e ∈ t.entries, e.2.Nodup
  mem_values : ∀ e ∈ t.entries, ∀ x ∈ e.2, x ∈ values

namespace Within

variable {keys values : List Symbol}

theorem empty : Within keys values .empty where
  nodup_keys := .nil
  mem_keys _ h := by cases h
  nodup_values _ h := by cases h
  mem_values _ h := by cases h

theorem members (h : t.Within keys values) : ∀ x ∈ t.members k, x ∈ values := by
  intro x hx
  unfold SymbolSets.members at hx
  cases hg : t.get? k with
  | none =>
    rw [hg] at hx
    cases hx
  | some set =>
    rw [hg] at hx
    exact h.mem_values (k, set) (mem_of_lookup hg) x hx

/-- A new entry stays within the same bounds. -/
theorem snoc (h : t.Within keys values) (hnone : t.entries.lookup s = none) (hs : s ∈ keys)
    (hadded : ∀ x ∈ added, x ∈ values) : Within keys values ⟨t.entries ++ [(s, insertSymbols [] added)]⟩ where
  nodup_keys := nodup_keys_concat h.nodup_keys hnone
  mem_keys := List.forall_mem_append.mpr ⟨h.mem_keys, List.forall_mem_singleton.mpr hs⟩
  nodup_values := List.forall_mem_append.mpr
    ⟨h.nodup_values, List.forall_mem_singleton.mpr (nodup_insertSymbols .nil added)⟩
  mem_values := List.forall_mem_append.mpr ⟨h.mem_values, List.forall_mem_singleton.mpr fun x hx =>
    hadded x ((mem_insertSymbols.mp hx).resolve_left List.not_mem_nil)⟩

/-- So does a larger one. -/
theorem map_enlarge (h : t.Within keys values) (hadded : ∀ x ∈ added, x ∈ values) :
    Within keys values ⟨t.entries.map (enlarge s added)⟩ where
  nodup_keys := by
    rw [List.map_map, show Prod.fst ∘ enlarge s added = Prod.fst from funext (fst_enlarge s added)]
    exact h.nodup_keys
  mem_keys := List.forall_mem_map.mpr fun e he => fst_enlarge s added e ▸ h.mem_keys e he
  nodup_values := List.forall_mem_map.mpr fun e he => by
    rcases snd_enlarge s added e with hset | hset
    · exact hset ▸ h.nodup_values e he
    · exact hset ▸ nodup_insertSymbols (h.nodup_values e he) added
  mem_values := List.forall_mem_map.mpr fun e he x hx => by
    rcases snd_enlarge s added e with hset | hset
    · exact h.mem_values e he x (hset ▸ hx)
    · exact (mem_insertSymbols.mp (hset ▸ hx)).elim (h.mem_values e he x) (hadded x)

theorem add (h : t.Within keys values) (hs : s ∈ keys) (hadded : ∀ x ∈ added, x ∈ values) :
    (t.add s added).Within keys values := by
  rcases add_cases t s added with ⟨hnone, heq⟩ | heq
  · exact heq ▸ h.snoc hnone hs hadded
  · exact heq ▸ h.map_enlarge hadded

/-- There is room for each value under each key. -/
theorem size_le (h : t.Within keys values) : t.size ≤ keys.length * values.length := by
  have hset : ∀ e ∈ t.entries, e.2.length ≤ values.length := fun e he =>
    ((h.nodup_values e he).subperm (h.mem_values e he)).length_le
  have hkeys : t.entries.length ≤ keys.length := by
    have hsub : t.entries.map Prod.fst ⊆ keys := by
      intro s hs
      obtain ⟨e, he, rfl⟩ := List.mem_map.mp hs
      exact h.mem_keys e he
    have := (h.nodup_keys.subperm hsub).length_le
    rwa [List.length_map] at this
  have hsum : t.size ≤ (t.entries.map fun e => e.2.length).length * values.length := by
    rw [size, List.length_flatMap]
    refine List.sum_le_card_nsmul _ _ ?_
    intro n hn
    obtain ⟨e, he, rfl⟩ := List.mem_map.mp hn
    exact hset e he
  rw [List.length_map] at hsum
  exact Nat.le_trans hsum (Nat.mul_le_mul_right _ hkeys)

end Within
end SymbolSets
end TableParser
