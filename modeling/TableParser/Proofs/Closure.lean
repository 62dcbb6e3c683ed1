import Mathlib.Data.List.Nodup
import TableParser.LR.Closure
import TableParser.Proofs.Fold
import TableParser.Proofs.Fresh
import TableParser.Proofs.WellFormed

/-!
# Closed item sets

The closure of a set is the smallest set around it that holds what its items predict.

* **Places** (`Prediction.mem_itemsFor`): the items predicted for a nonterminal are those of its alternatives with the
  dot at the beginning, or behind symbols that vanish.
* **Closure** (`Prediction.closed_of_closure`, `Prediction.closure_induction`): the bound on the rounds is large
  enough, because every round but the last one finds an item of the grammar that was missing.
* **Transitions** (`Prediction.mem_transition`) and **cores** (`Prediction.closure_of_core`).
-/

namespace TableParser

/-! ## Numbers of alternatives -/

theorem Grammar.target?_eq_some {g : Grammar} {id : AlternativeId} {r : Rule} {a : Alternative} :
    g.target? id = some (r, a) ↔
      g.rules[id.rule.toNat]? = some r ∧ r.alternatives[id.index.toNat]? = some a := by
  unfold target?
  cases g.rules[id.rule.toNat]? with
  | none => simp
  | some u =>
    constructor
    · intro h
      obtain ⟨b, hb, heq⟩ := Option.map_eq_some_iff.mp h
      cases heq
      exact ⟨rfl, hb⟩
    · rintro ⟨hu, ha⟩
      cases hu
      exact Option.map_eq_some_iff.mpr ⟨a, ha, rfl⟩

theorem Grammar.target_eq_ok {g : Grammar} {id : AlternativeId} {found : Rule × Alternative} :
    g.target id = .ok found ↔ g.target? id = some found := by
  unfold target
  cases g.target? id <;> simp

/-- A number names an alternative that the grammar produces. -/
theorem Grammar.produces_of_target? {g : Grammar} {id : AlternativeId} {r : Rule} {a : Alternative}
    (h : g.target? id = some (r, a)) : r ∈ g.rules ∧ g.Produces r.lhs a := by
  obtain ⟨hr, ha⟩ := Grammar.target?_eq_some.mp h
  have hmem := List.mem_of_getElem? hr
  exact ⟨hmem, r, hmem, rfl, List.mem_of_getElem? ha⟩

theorem AlternativeId.ofIndices_eq_ok {rule index : Nat} {id : AlternativeId} :
    AlternativeId.ofIndices rule index = .ok id ↔ id.rule.toNat = rule ∧ id.index.toNat = index := by
  unfold ofIndices wordLimit
  constructor
  · intro h
    split at h
    · cases h
    · split at h
      · cases h
      · cases h
        simp only [Nat.toUInt16, UInt16.toNat_ofNat']
        omega
  · rintro ⟨rfl, rfl⟩
    have h₁ := id.rule.toNat_lt
    have h₂ := id.index.toNat_lt
    rw [if_neg (by omega), if_neg (by omega)]
    simp [Nat.toUInt16]

theorem Grammar.find_eq_ok {g : Grammar} {lhs : Symbol} {i : Nat} {r : Rule} (h : g.find lhs = .ok (i, r)) :
    g.rules[i]? = some r ∧ r.lhs = lhs := by
  unfold find at h
  split at h
  · rename_i hf
    cases h
    have hmem := List.mem_of_find?_eq_some hf
    have hlhs := List.find?_some hf
    exact ⟨List.mem_zipIdx_iff_getElem?.mp hmem, beq_iff_eq.mp hlhs⟩
  · cases h

/-- Rules with different left-hand sides are found by them. -/
theorem Grammar.find_eq_ok_iff {g : Grammar} (hg : (g.rules.map Rule.lhs).Nodup) {lhs : Symbol} {i : Nat} {r : Rule} :
    g.find lhs = .ok (i, r) ↔ g.rules[i]? = some r ∧ r.lhs = lhs := by
  refine ⟨find_eq_ok, ?_⟩
  rintro ⟨hr, rfl⟩
  have hex : ∃ found, g.find r.lhs = .ok found := by
    unfold find
    split
    · exact ⟨_, rfl⟩
    · rename_i hf
      have := List.find?_eq_none.mp hf (r, i) (List.mem_zipIdx_iff_getElem?.mpr hr)
      simp at this
  obtain ⟨⟨j, u⟩, hfound⟩ := hex
  obtain ⟨hu, hlhs⟩ := find_eq_ok hfound
  obtain ⟨hi, hri⟩ := List.getElem?_eq_some_iff.mp hr
  obtain ⟨hj, huj⟩ := List.getElem?_eq_some_iff.mp hu
  have hij : j = i := by
    have hj' : j < (g.rules.map Rule.lhs).length := by rwa [List.length_map]
    have hi' : i < (g.rules.map Rule.lhs).length := by rwa [List.length_map]
    have heq : (g.rules.map Rule.lhs)[j] = (g.rules.map Rule.lhs)[i] := by
      rw [List.getElem_map, List.getElem_map, huj, hri, hlhs]
    exact hg.getElem_inj_iff.mp heq
  subst hij
  rw [hr] at hu
  cases hu
  exact hfound

namespace LR

theorem Item.advance_eq_ok {i j : Item} :
    i.advance = .ok j ↔ j.alternative = i.alternative ∧ j.dot.toNat = i.dot.toNat + 1 := by
  unfold advance
  rw [map_eq_ok_iff]
  constructor
  · rintro ⟨dot, hdot, rfl⟩
    exact ⟨rfl, (sum16_eq_ok_iff.mp hdot).symm⟩
  · rintro ⟨ha, hd⟩
    refine ⟨j.dot, sum16_eq_ok_iff.mpr hd.symm, ?_⟩
    rw [← ha]

/-- With the empty derivation there is nothing to recognize. -/
theorem Item.isCompleteIn_of_isEpsilon (i : Item) {a : Alternative} (he : a.isEpsilon = true) :
    i.isCompleteIn a = true := by
  rw [isCompleteIn, he, Bool.true_or]

theorem Item.isCompleteIn_iff {i : Item} {a : Alternative} (he : a.isEpsilon = false) :
    i.isCompleteIn a = true ↔ a.symbols.length ≤ i.dot.toNat := by
  rw [isCompleteIn, he, Bool.false_or, decide_eq_true_iff]

/-- A complete item has recognized as many symbols as its alternative takes from the stack. -/
theorem Item.dot_eq_arity {i : Item} {a : Alternative} (hc : i.isCompleteIn a = true)
    (hle : i.dot.toNat ≤ a.symbols.length) (hempty : a.isEpsilon = true → i.dot.toNat = 0) : i.dot.toNat = a.arity := by
  cases he : a.isEpsilon with
  | true => rw [hempty he, Alternative.arity_of_isEpsilon he]
  | false =>
    rw [Alternative.arity_of_isEpsilon_eq_false he]
    exact Nat.le_antisymm hle ((isCompleteIn_iff he).mp hc)

namespace Prediction

variable {p : Prediction} {set closed core fresh known items : ItemSet} {i j : Item} {lhs s : Symbol}

/-! ## Predicted items -/

theorem itemAt_eq_ok {rule index dot : Nat} : itemAt rule index dot = .ok j ↔
    j.alternative.rule.toNat = rule ∧ j.alternative.index.toNat = index ∧ j.dot.toNat = dot := by
  unfold itemAt
  rw [bind_eq_ok_iff]
  constructor
  · rintro ⟨id, hid, h⟩
    obtain ⟨h₁, h₂⟩ := AlternativeId.ofIndices_eq_ok.mp hid
    split at h
    · cases h
    · rename_i hdot
      cases h
      refine ⟨h₁, h₂, ?_⟩
      unfold wordLimit at hdot
      simp only [Nat.toUInt16, UInt16.toNat_ofNat']
      omega
  · rintro ⟨h₁, h₂, rfl⟩
    refine ⟨j.alternative, AlternativeId.ofIndices_eq_ok.mpr ⟨h₁, h₂⟩, ?_⟩
    have := j.dot.toNat_lt
    unfold wordLimit
    rw [if_neg (by omega)]
    simp [Nat.toUInt16]

theorem mem_of_mapM_id {results : List (Except Fault Item)} (h : results.mapM id = .ok items) :
    j ∈ items ↔ Except.ok j ∈ results := by
  constructor
  · intro hj
    obtain ⟨x, hx, hxj⟩ := exists_of_mem_mapM h hj
    exact hxj ▸ hx
  · intro hj
    obtain ⟨y, hy, hyj⟩ := exists_mem_of_mapM h hj
    cases hyj
    exact hy

/-- **What is predicted for a nonterminal**: its alternatives with a dot at the front, or behind vanishing symbols. -/
theorem mem_itemsOneByOne (hg : (p.grammar.rules.map Rule.lhs).Nodup) : Except.ok j ∈ p.itemsOneByOne lhs ↔
    ∃ r a, p.grammar.target? j.alternative = some (r, a) ∧ r.lhs = lhs ∧ j.dot.toNat ≤ p.reach a.symbols := by
  unfold itemsOneByOne
  cases hf : p.grammar.find lhs with
  | error f =>
    constructor
    · intro hj
      cases List.mem_singleton.mp hj
    · rintro ⟨r, a, ht, hr, _⟩
      rw [(Grammar.find_eq_ok_iff hg).mpr ⟨(Grammar.target?_eq_some.mp ht).1, hr⟩] at hf
      cases hf
  | ok found =>
    obtain ⟨rule, r⟩ := found
    obtain ⟨hr, hlhs⟩ := Grammar.find_eq_ok hf
    simp only [List.mem_flatMap, itemsOf, List.mem_map, List.mem_range]
    constructor
    · rintro ⟨⟨a, index⟩, ha, d, hd, hj⟩
      obtain ⟨h₁, h₂, h₃⟩ := itemAt_eq_ok.mp hj
      have ha' := List.mem_zipIdx_iff_getElem?.mp ha
      refine ⟨r, a, Grammar.target?_eq_some.mpr ⟨by rw [h₁]; exact hr, by rw [h₂]; exact ha'⟩, hlhs, ?_⟩
      rw [h₃]
      exact Nat.le_of_lt_succ hd
    · rintro ⟨u, a, ht, hu, hd⟩
      obtain ⟨h₁, h₂⟩ := Grammar.target?_eq_some.mp ht
      have hsame := (Grammar.find_eq_ok_iff hg).mpr ⟨h₁, hu⟩
      rw [hf] at hsame
      cases hsame
      exact ⟨(a, j.alternative.index.toNat), List.mem_zipIdx_iff_getElem?.mpr h₂, j.dot.toNat, Nat.lt_succ_of_le hd,
        itemAt_eq_ok.mpr ⟨rfl, rfl, rfl⟩⟩

/-- **The items predicted for a nonterminal**, if there are numbers for all of them. -/
theorem mem_itemsFor (hg : (p.grammar.rules.map Rule.lhs).Nodup) (h : p.itemsFor lhs = .ok items) :
    j ∈ items ↔ ∃ r a, p.grammar.target? j.alternative = some (r, a) ∧ r.lhs = lhs ∧ j.dot.toNat ≤ p.reach a.symbols := by
  rw [mem_of_mapM_id h, mem_itemsOneByOne hg]

/-- Every alternative of a nonterminal is among its predictions, with the dot at the front. -/
theorem exists_mem_itemsFor (hg : (p.grammar.rules.map Rule.lhs).Nodup) {a : Alternative}
    (h : p.itemsFor lhs = .ok items) (hp : p.grammar.Produces lhs a) :
    ∃ j ∈ items, ∃ r, p.grammar.target? j.alternative = some (r, a) ∧ r.lhs = lhs ∧ j.dot.toNat = 0 := by
  obtain ⟨r, hr, hlhs, ha⟩ := hp
  obtain ⟨rule, hrule⟩ := List.mem_iff_getElem?.mp hr
  obtain ⟨index, hindex⟩ := List.mem_iff_getElem?.mp ha
  have hmem : itemAt rule index 0 ∈ p.itemsOneByOne lhs := by
    unfold itemsOneByOne
    rw [(Grammar.find_eq_ok_iff hg).mpr ⟨hrule, hlhs⟩]
    refine List.mem_flatMap.mpr ⟨(a, index), List.mem_zipIdx_iff_getElem?.mpr hindex, ?_⟩
    exact List.mem_map.mpr ⟨0, List.mem_range.mpr (Nat.succ_pos _), rfl⟩
  obtain ⟨j, hj, hjr⟩ := exists_mem_of_mapM h hmem
  obtain ⟨h₁, h₂, h₃⟩ := itemAt_eq_ok.mp hjr
  exact ⟨j, hj, r, Grammar.target?_eq_some.mpr ⟨by rw [h₁]; exact hrule, by rw [h₂]; exact hindex⟩, hlhs, h₃⟩

/-- Without FIRST sets the dot passes over nothing. -/
theorem reach_eq_zero (h : p.first = none) (α : List Symbol) : p.reach α = 0 := by
  unfold reach
  have hv : p.vanishes = fun _ => false := by
    funext s
    unfold vanishes
    rw [h]
  rw [hv]
  cases α <;> rfl

theorem reach_le (p : Prediction) (α : List Symbol) : p.reach α ≤ α.length := (List.takeWhile_prefix _).length_le

theorem predicted_of_next {r : Rule} {a : Alternative} (ht : p.grammar.target? i.alternative = some (r, a))
    (hn : i.nextIn a = some s) (hs : s.isNonterminal = true) : p.predicted i = p.itemsFor s := by
  unfold predicted Item.next Grammar.target
  rw [ht]
  simp only [Except.map, bind, Except.bind, hn, hs, if_true]

/-- In front of a terminal nothing is predicted. -/
theorem predicted_of_next_terminal {r : Rule} {a : Alternative} (ht : p.grammar.target? i.alternative = some (r, a))
    (hn : i.nextIn a = some s) (hs : s.isNonterminal = false) : p.predicted i = .ok [] := by
  unfold predicted Item.next Grammar.target
  rw [ht]
  simp only [Except.map, bind, Except.bind, hn, hs, Bool.false_eq_true, if_false]
  rfl

theorem exists_of_mem_predicted (h : p.predicted i = .ok items) (hj : j ∈ items) :
    ∃ r a s, p.grammar.target? i.alternative = some (r, a) ∧ i.nextIn a = some s ∧ s.isNonterminal = true ∧
      p.itemsFor s = .ok items := by
  unfold predicted Item.next at h
  obtain ⟨next, hn, h⟩ := bind_eq_ok_iff.mp h
  obtain ⟨⟨r, a⟩, ht, rfl⟩ := map_eq_ok_iff.mp hn
  cases hs : i.nextIn a with
  | none =>
    simp only [hs] at h
    cases h
    cases hj
  | some s =>
    simp only [hs] at h
    split at h
    · rename_i hnt
      exact ⟨r, a, s, Grammar.target_eq_ok.mp ht, hs, hnt, h⟩
    · cases h
      cases hj

/-! ## Rounds -/

/-- A set is closed when it holds what its items predict. -/
def Closed (p : Prediction) (set : ItemSet) : Prop :=
  ∀ i ∈ set, ∃ items, p.predicted i = .ok items ∧ ∀ j ∈ items, j ∈ set

theorem mem_discovered {new : ItemSet} (h : p.discovered fresh known = .ok new) :
    j ∈ new ↔ j ∉ known ∧ ∃ i ∈ fresh, ∃ items, p.predicted i = .ok items ∧ j ∈ items := by
  unfold discovered at h
  obtain ⟨lists, hl, h⟩ := bind_eq_ok_iff.mp h
  cases h
  rw [ItemSet.mem_ofList, List.mem_filter, List.mem_flatten, and_comm]
  refine and_congr (by simp) ?_
  constructor
  · rintro ⟨items, hitems, hj⟩
    obtain ⟨i, hi, hp⟩ := exists_of_mem_mapM hl hitems
    exact ⟨i, hi, items, hp, hj⟩
  · rintro ⟨i, hi, items, hp, hj⟩
    obtain ⟨items', hitems', hp'⟩ := exists_mem_of_mapM hl hi
    rw [hp] at hp'
    cases hp'
    exact ⟨items, hitems', hj⟩

theorem exists_predicted_of_discovered {new : ItemSet} (h : p.discovered fresh known = .ok new) (hi : i ∈ fresh) :
    ∃ items, p.predicted i = .ok items := by
  unfold discovered at h
  obtain ⟨lists, hl, _⟩ := bind_eq_ok_iff.mp h
  obtain ⟨items, _, hitems⟩ := exists_mem_of_mapM hl hi
  exact ⟨items, hitems⟩

/-- All items of a grammar. -/
def places (g : Grammar) : List Item :=
  g.rules.zipIdx.flatMap fun (r, rule) => r.alternatives.zipIdx.flatMap fun (a, index) =>
    (List.range (a.symbols.length + 1)).map fun dot => ⟨⟨rule.toUInt16, index.toUInt16⟩, dot.toUInt16⟩

theorem map_zipIdx {α β : Type} (xs : List α) (f : α → β) : (xs.zipIdx.map fun x => f x.1) = xs.map f := by
  have h := List.map_map (f := Prod.fst) (g := f) (l := xs.zipIdx)
  rw [List.zipIdx_map_fst] at h
  exact h.symm

theorem length_places (p : Prediction) : (places p.grammar).length + 1 = p.roundBound := by
  unfold places roundBound
  simp only [List.length_flatMap, List.length_map, List.length_range]
  rw [map_zipIdx p.grammar.rules fun r => (r.alternatives.zipIdx.map fun x => x.1.symbols.length + 1).sum]
  have hrule : ∀ r : Rule, (r.alternatives.zipIdx.map fun x => x.1.symbols.length + 1).sum =
      (r.alternatives.map fun a => a.symbols.length + 1).sum := fun r =>
    congrArg List.sum (map_zipIdx r.alternatives fun a => a.symbols.length + 1)
  simp only [hrule]

theorem mem_places {r : Rule} {a : Alternative} (h : p.grammar.target? j.alternative = some (r, a))
    (hd : j.dot.toNat ≤ a.symbols.length) : j ∈ places p.grammar := by
  obtain ⟨hr, ha⟩ := Grammar.target?_eq_some.mp h
  refine List.mem_flatMap.mpr ⟨(r, _), List.mem_zipIdx_iff_getElem?.mpr hr, ?_⟩
  refine List.mem_flatMap.mpr ⟨(a, _), List.mem_zipIdx_iff_getElem?.mpr ha, ?_⟩
  refine List.mem_map.mpr ⟨j.dot.toNat, List.mem_range.mpr (Nat.lt_succ_of_le hd), ?_⟩
  simp [Nat.toUInt16]

/-- The number of items of the grammar that are not in a set yet. -/
def missing (g : Grammar) (set : ItemSet) : Nat := (places g).countP fun i => !set.contains i

theorem missing_le (g : Grammar) (set : ItemSet) : missing g set ≤ (places g).length := List.countP_le_length

/-- A new item of the grammar is no longer missing. -/
theorem missing_insertAll_lt {g : Grammar} {new : ItemSet} (hj : j ∈ new) (hp : j ∈ places g) (hset : j ∉ set) :
    missing g (ItemSet.insertAll set new) < missing g set := by
  refine countP_lt_countP (fun i _ hi => ?_) hp (by simpa using hset) (by simp [ItemSet.mem_insertAll, hj])
  simp only [Bool.not_eq_true', List.contains_eq_mem, decide_eq_false_iff_not, ItemSet.mem_insertAll, not_or] at hi ⊢
  exact hi.1

section Closure

variable (hg : (p.grammar.rules.map Rule.lhs).Nodup)
include hg

/-- Predicted items are items of the grammar. -/
theorem mem_places_of_predicted (h : p.predicted i = .ok items) (hj : j ∈ items) : j ∈ places p.grammar := by
  obtain ⟨_, _, _, _, _, _, hitems⟩ := exists_of_mem_predicted h hj
  obtain ⟨r, a, ht, _, hd⟩ := (mem_itemsFor hg hitems).mp hj
  exact mem_places ht (Nat.le_trans hd (reach_le p _))

/-- Rounds that are not cut short end with a closed set, if only the newest items may predict something new. -/
theorem closed_of_closing {fuel : Nat} (h : p.closing fuel fresh set = (closed, none))
    (hold : ∀ i ∈ set, i ∉ fresh → ∃ items, p.predicted i = .ok items ∧ ∀ j ∈ items, j ∈ set)
    (hfuel : missing p.grammar set < fuel) : p.Closed closed := by
  induction fuel generalizing fresh set with
  | zero => exact absurd hfuel (Nat.not_lt_zero _)
  | succ fuel ih =>
    rw [closing] at h
    cases hd : p.discovered fresh set with
    | error f =>
      rw [hd] at h
      cases h
    | ok new =>
      have hnew : ∀ i ∈ set, ∃ items, p.predicted i = .ok items ∧ ∀ j ∈ items, j ∈ set ∨ j ∈ new := by
        intro i hi
        by_cases hf : i ∈ fresh
        · obtain ⟨items, hitems⟩ := exists_predicted_of_discovered hd hf
          refine ⟨items, hitems, fun j hj => ?_⟩
          by_cases hs : j ∈ set
          · exact .inl hs
          · exact .inr ((mem_discovered hd).mpr ⟨hs, i, hf, items, hitems, hj⟩)
        · obtain ⟨items, hitems, hall⟩ := hold i hi hf
          exact ⟨items, hitems, fun j hj => .inl (hall j hj)⟩
      rw [hd] at h
      cases new with
      | nil =>
        cases h
        intro i hi
        obtain ⟨items, hitems, hall⟩ := hnew i hi
        exact ⟨items, hitems, fun j hj => (hall j hj).resolve_right List.not_mem_nil⟩
      | cons j new =>
        obtain ⟨hj, i, _, items, hitems, hji⟩ := (mem_discovered hd).mp List.mem_cons_self
        have hlt := missing_insertAll_lt (List.mem_cons_self (a := j) (l := new)) (mem_places_of_predicted hg hitems hji) hj
        refine ih h ?_ (by omega)
        intro i hi hfresh
        have hset := (ItemSet.mem_insertAll.mp hi).resolve_right hfresh
        obtain ⟨items, hitems, hall⟩ := hnew i hset
        exact ⟨items, hitems, fun j hj => ItemSet.mem_insertAll.mpr (hall j hj)⟩

end Closure

theorem closure_eq_ok : p.closure set = .ok closed ↔ p.closing p.roundBound set set = (closed, none) := by
  unfold closure closureSoFar
  cases p.closing p.roundBound set set with
  | mk result fault => cases fault <;> simp

/-- **The closure of a set is closed.** -/
theorem closed_of_closure (hg : (p.grammar.rules.map Rule.lhs).Nodup) (h : p.closure set = .ok closed) :
    p.Closed closed := by
  refine closed_of_closing hg (closure_eq_ok.mp h) (fun i hi hf => absurd hi hf) ?_
  have := missing_le p.grammar set
  have := length_places p
  omega

/-- What rounds add to a set is predicted by it, step by step. -/
theorem closing_induction {motive : Item → Prop} {fuel : Nat} {fault : Option Fault}
    (h : p.closing fuel fresh set = (closed, fault)) (hfresh : ∀ i ∈ fresh, i ∈ set) (hset : ∀ i ∈ set, motive i)
    (hpred : ∀ i items, motive i → p.predicted i = .ok items → ∀ j ∈ items, motive j) :
    (∀ i ∈ set, i ∈ closed) ∧ ∀ i ∈ closed, motive i := by
  induction fuel generalizing fresh set with
  | zero =>
    cases h
    exact ⟨fun _ hi => hi, hset⟩
  | succ fuel ih =>
    rw [closing] at h
    cases hd : p.discovered fresh set with
    | error f =>
      rw [hd] at h
      cases h
      exact ⟨fun _ hi => hi, hset⟩
    | ok new =>
      rw [hd] at h
      cases new with
      | nil =>
        cases h
        exact ⟨fun _ hi => hi, hset⟩
      | cons j new =>
        have hnew : ∀ k ∈ j :: new, motive k := by
          intro k hk
          obtain ⟨_, i, hi, items, hitems, hki⟩ := (mem_discovered hd).mp hk
          exact hpred i items (hset i (hfresh i hi)) hitems k hki
        obtain ⟨hsub, hall⟩ := ih h (fun i hi => ItemSet.mem_insertAll.mpr (.inr hi))
          fun i hi => (ItemSet.mem_insertAll.mp hi).elim (hset i) (hnew i)
        exact ⟨fun i hi => hsub i (ItemSet.mem_insertAll.mpr (.inl hi)), hall⟩

/-- The closure of a set is around it. -/
theorem subset_closure (h : p.closure set = .ok closed) : ∀ i ∈ set, i ∈ closed :=
  (closing_induction (motive := fun _ => True) (closure_eq_ok.mp h) (fun _ hi => hi) (fun _ _ => trivial)
    fun _ _ _ _ _ _ => trivial).1

/-- **The closure holds nothing but what has to be there.** -/
theorem closure_induction {motive : Item → Prop} (h : p.closure set = .ok closed) (hset : ∀ i ∈ set, motive i)
    (hpred : ∀ i items, motive i → p.predicted i = .ok items → ∀ j ∈ items, motive j) : ∀ i ∈ closed, motive i :=
  (closing_induction (closure_eq_ok.mp h) (fun _ hi => hi) hset hpred).2

/-- A closed set is its own closure. -/
theorem closure_of_closed (h : p.Closed set) : p.closure set = .ok set := by
  have hmap : ∃ lists, set.mapM p.predicted = .ok lists := by
    have hsub : ∀ sub : ItemSet, (∀ i ∈ sub, i ∈ set) → ∃ lists, sub.mapM p.predicted = .ok lists := by
      intro sub
      induction sub with
      | nil => exact fun _ => ⟨[], rfl⟩
      | cons i sub ih =>
        intro hsub
        obtain ⟨items, hitems, _⟩ := h i (hsub i List.mem_cons_self)
        obtain ⟨lists, hlists⟩ := ih fun j hj => hsub j (List.mem_cons_of_mem i hj)
        exact ⟨items :: lists, mapM_eq_ok_iff.mpr (.cons hitems (mapM_eq_ok_iff.mp hlists))⟩
    exact hsub set fun _ hi => hi
  obtain ⟨lists, hlists⟩ := hmap
  obtain ⟨new, hd⟩ : ∃ new, p.discovered set set = .ok new := by
    unfold discovered
    exact ⟨_, bind_eq_ok_iff.mpr ⟨lists, hlists, rfl⟩⟩
  have hnil : new = [] := by
    refine List.eq_nil_iff_forall_not_mem.mpr fun j hj => ?_
    obtain ⟨hk, i, hi, items, hitems, hji⟩ := (mem_discovered hd).mp hj
    obtain ⟨items', hitems', hall⟩ := h i hi
    rw [hitems] at hitems'
    cases hitems'
    exact hk (hall j hji)
  subst hnil
  refine closure_eq_ok.mpr ?_
  rw [← length_places, closing, hd]

/-! ## Transitions -/

theorem advanceOver_eq_ok : p.advanceOver s i = .ok (some j) ↔
    ∃ r a, p.grammar.target? i.alternative = some (r, a) ∧ a.isEpsilon = false ∧ i.nextIn a = some s ∧
      i.advance = .ok j := by
  unfold advanceOver
  rw [bind_eq_ok_iff]
  constructor
  · rintro ⟨⟨r, a⟩, ht, h⟩
    refine ⟨r, a, Grammar.target_eq_ok.mp ht, ?_⟩
    dsimp only at h
    split at h
    · rename_i hc
      obtain ⟨k, hk, h⟩ := bind_eq_ok_iff.mp h
      cases h
      simpa [hk] using hc
    · cases h
  · rintro ⟨r, a, ht, he, hn, hj⟩
    refine ⟨(r, a), Grammar.target_eq_ok.mpr ht, ?_⟩
    dsimp only
    rw [if_pos (by simp [he, hn]), hj]
    rfl

theorem mem_kernel {kernel : ItemSet} (h : p.kernel set s = .ok kernel) :
    j ∈ kernel ↔ ∃ i ∈ set, p.advanceOver s i = .ok (some j) := by
  unfold Prediction.kernel at h
  obtain ⟨results, hr, h⟩ := bind_eq_ok_iff.mp h
  cases h
  rw [ItemSet.mem_ofList, List.mem_filterMap]
  constructor
  · rintro ⟨x, hx, hxj⟩
    obtain ⟨i, hi, hix⟩ := exists_of_mem_mapM hr hx
    have hxj' : x = some j := hxj
    exact ⟨i, hi, by rw [hix, hxj']⟩
  · rintro ⟨i, hi, hij⟩
    obtain ⟨x, hx, hix⟩ := exists_mem_of_mapM hr hi
    rw [hij] at hix
    cases hix
    exact ⟨some j, hx, rfl⟩

theorem transition_eq_ok {target : ItemSet} : p.transition set s = .ok target ↔
    ∃ kernel, p.kernel set s = .ok kernel ∧ p.closure kernel = .ok target := by
  unfold transition
  rw [bind_eq_ok_iff]

/-- A transition takes every item along whose dot stands before the symbol. -/
theorem exists_advance_of_transition {target : ItemSet} {r : Rule} {a : Alternative}
    (h : p.transition set s = .ok target) (hi : i ∈ set) (ht : p.grammar.target? i.alternative = some (r, a))
    (he : a.isEpsilon = false) (hn : i.nextIn a = some s) : ∃ j ∈ target, i.advance = .ok j := by
  obtain ⟨kernel, hk, hc⟩ := transition_eq_ok.mp h
  obtain ⟨x, hx⟩ : ∃ x, p.advanceOver s i = .ok x := by
    unfold Prediction.kernel at hk
    obtain ⟨results, hr, _⟩ := bind_eq_ok_iff.mp hk
    obtain ⟨x, _, hx⟩ := exists_mem_of_mapM hr hi
    exact ⟨x, hx⟩
  obtain ⟨j, hj⟩ : ∃ j, i.advance = .ok j := by
    unfold advanceOver at hx
    rw [Grammar.target_eq_ok.mpr ht] at hx
    obtain ⟨found, hf, hx⟩ := bind_eq_ok_iff.mp hx
    cases hf
    dsimp only at hx
    rw [if_pos (by simp [he, hn])] at hx
    obtain ⟨j, hj, _⟩ := bind_eq_ok_iff.mp hx
    exact ⟨j, hj⟩
  have hmem : j ∈ kernel := (mem_kernel hk).mpr ⟨i, hi, advanceOver_eq_ok.mpr ⟨r, a, ht, he, hn, hj⟩⟩
  exact ⟨j, subset_closure hc j hmem, hj⟩

/-! ## Cores -/

/-- **The closure brings back what a core leaves out.** -/
theorem closure_of_core (h : p.core set = .ok core) (hset : p.Closed set) : p.closure core = .ok set := by
  refine foldlM_invariant (P := fun kept => p.closure kept = .ok set) h (closure_of_closed hset) ?_
  intro i _ kept next hkept hnext
  unfold dropItem at hnext
  obtain ⟨others, ho, hnext⟩ := bind_eq_ok_iff.mp hnext
  split at hnext
  · rename_i heq
    cases hnext
    rw [ho, heq]
  · cases hnext
    exact hkept

end Prediction
end LR
end TableParser
