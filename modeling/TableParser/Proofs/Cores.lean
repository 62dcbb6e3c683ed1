import TableParser.Proofs.Discovery
import TableParser.Proofs.NormalForm

/-!
# Closures and cores

The closure of an item set is the least closed set around it (`LR.Prediction.IsLeast`), and the core of a closed set is a
least part of it that the closure brings it back from.

* **Closures are found** (`LR.Prediction.closure_cases`) unless they need an item that has no number, which takes a grammar
  with more rules or alternatives than there are numbers for (`Grammar.Exceeds`). What lies inside a closed set has a
  closure there (`LR.Prediction.exists_closure_le`), so that closures grow with their sets.
* **Cores are minimal** (`LR.Prediction.exists_core`): an item stays when the others do not close to the set, and then
  fewer of the others do not either (`LR.Prediction.Trims`).
* **States** (`LR.Automaton.build_ne_emptyItemSet`, `LR.Automaton.core_eq_filter`): no state is without items, and if
  nothing vanishes, all but the first keep the items whose dots have moved.
-/

namespace TableParser

/-- The grammar has more rules, or one of its rules more alternatives, than there are numbers for them. -/
inductive Grammar.Exceeds (g : Grammar) : Fault → Prop
  | rules (h : wordLimit < g.rules.length) : Exceeds g .tooManyRules
  | alternatives {r : Rule} (hr : r ∈ g.rules) (h : wordLimit < r.alternatives.length) : Exceeds g .tooManyAlternatives

namespace LR

open ItemSet (Ascending)

namespace Prediction

variable {p : Prediction} {set closed core kept part : ItemSet} {i j : Item} {lhs : Symbol} {f : Fault}

/-! ## Predictions that are impossible -/

theorem itemAt_eq_error {rule index dot : Nat} (h : itemAt rule index dot = .error f) :
    f = .tooManyRules ∧ wordLimit ≤ rule ∨ f = .tooManyAlternatives ∧ wordLimit ≤ index ∨
      f = .tooLongAlternative ∧ wordLimit ≤ dot := by
  unfold itemAt AlternativeId.ofIndices at h
  by_cases hrule : wordLimit ≤ rule
  · rw [if_pos hrule] at h
    cases h
    exact .inl ⟨rfl, hrule⟩
  · rw [if_neg hrule] at h
    by_cases hindex : wordLimit ≤ index
    · rw [if_pos hindex] at h
      cases h
      exact .inr (.inl ⟨rfl, hindex⟩)
    · rw [if_neg hindex] at h
      by_cases hdot : wordLimit ≤ dot
      · simp only [bind, Except.bind, if_pos hdot] at h
        cases h
        exact .inr (.inr ⟨rfl, hdot⟩)
      · simp only [bind, Except.bind, if_neg hdot] at h
        cases h

/-- An item of a nonterminal cannot be predicted if this has no rule or if the item has no number. -/
theorem error_mem_itemsOneByOne (h : Except.error f ∈ p.itemsOneByOne lhs) :
    f = .undefinedRule lhs ∧ lhs ∉ p.grammar.lhsSymbols ∨
      ∃ rule r index a dot, p.grammar.rules[rule]? = some r ∧ r.alternatives[index]? = some a ∧
        dot ≤ p.reach a.symbols ∧ itemAt rule index dot = .error f := by
  unfold itemsOneByOne at h
  cases hfind : p.grammar.find lhs with
  | error f' =>
    rw [hfind] at h
    cases List.mem_singleton.mp h
    left
    unfold Grammar.find at hfind
    split at hfind
    · cases hfind
    · rename_i hnone
      cases hfind
      refine ⟨rfl, fun hmem => ?_⟩
      obtain ⟨r, hr, rfl⟩ := List.mem_map.mp hmem
      obtain ⟨rule, hrule⟩ := List.mem_iff_getElem?.mp hr
      have hne := List.find?_eq_none.mp hnone (r, rule) (List.mem_zipIdx_iff_getElem?.mpr hrule)
      simp at hne
  | ok found =>
    obtain ⟨rule, r⟩ := found
    rw [hfind] at h
    obtain ⟨⟨a, index⟩, ha, h⟩ := List.mem_flatMap.mp h
    obtain ⟨dot, hdot, herror⟩ := List.mem_map.mp h
    exact .inr ⟨rule, r, index, a, dot, (Grammar.find_eq_ok hfind).1, List.mem_zipIdx_iff_getElem?.mp ha,
      Nat.le_of_lt_succ (List.mem_range.mp hdot), herror⟩

/-- The items of a nonterminal cannot be predicted if one of them cannot. -/
theorem itemsFor_eq_error (h : p.itemsFor lhs = .error f) : f = .undefinedRule lhs ∧ lhs ∉ p.grammar.lhsSymbols ∨
    ∃ rule r index a dot, p.grammar.rules[rule]? = some r ∧ r.alternatives[index]? = some a ∧
      dot ≤ p.reach a.symbols ∧ itemAt rule index dot = .error f := by
  obtain ⟨result, hresult, herror⟩ := exists_of_mapM_error h
  have heq : result = .error f := herror
  exact error_mem_itemsOneByOne (heq ▸ hresult)

theorem predicted_eq_error (h : p.predicted i = .error f) :
    f = .outOfRange ∧ p.grammar.hasAlternative i.alternative = false ∨
    ∃ r a s, p.grammar.target? i.alternative = some (r, a) ∧ i.nextIn a = some s ∧ s.isNonterminal = true ∧
      p.itemsFor s = .error f := by
  unfold predicted Item.next at h
  cases ht : p.grammar.target? i.alternative with
  | none =>
    left
    simp only [Grammar.target, ht, Except.map, bind, Except.bind] at h
    cases h
    exact ⟨rfl, by unfold Grammar.hasAlternative; rw [ht]; rfl⟩
  | some found =>
    obtain ⟨r, a⟩ := found
    right
    simp only [Grammar.target, ht, Except.map, bind, Except.bind] at h
    cases hs : i.nextIn a with
    | none =>
      rw [hs] at h
      cases h
    | some s =>
      rw [hs] at h
      dsimp only at h
      split at h
      · rename_i hnt
        exact ⟨r, a, s, rfl, hs, hnt, h⟩
      · cases h

/-- What stops a prediction in a grammar: a rule, an alternative or a place for the dot that there is no number for. -/
inductive Stops (p : Prediction) : Fault → Prop
  | exceeds {f : Fault} (h : p.grammar.Exceeds f) : Stops p f
  | overreaches {r : Rule} {a : Alternative} (hr : r ∈ p.grammar.rules) (ha : a ∈ r.alternatives)
      (h : wordLimit ≤ p.reach a.symbols) : Stops p .tooLongAlternative

theorem Stops.of_itemAt {rule index dot : Nat} {r : Rule} {a : Alternative} (hr : p.grammar.rules[rule]? = some r)
    (ha : r.alternatives[index]? = some a) (hdot : dot ≤ p.reach a.symbols) (h : itemAt rule index dot = .error f) :
    p.Stops f := by
  obtain ⟨hrule, _⟩ := List.getElem?_eq_some_iff.mp hr
  obtain ⟨hindex, _⟩ := List.getElem?_eq_some_iff.mp ha
  have hmem := List.mem_of_getElem? hr
  rcases itemAt_eq_error h with ⟨rfl, hle⟩ | ⟨rfl, hle⟩ | ⟨rfl, hle⟩
  · exact .exceeds (.rules (Nat.lt_of_le_of_lt hle hrule))
  · exact .exceeds (.alternatives hmem (Nat.lt_of_le_of_lt hle hindex))
  · exact .overreaches hmem (List.mem_of_getElem? ha) (Nat.le_trans hle hdot)

/-- Short alternatives have numbers for all places of the dot. -/
theorem Stops.grammar_exceeds (hlen : ∀ r ∈ p.grammar.rules, ∀ a ∈ r.alternatives, a.symbols.length < wordLimit)
    (h : p.Stops f) : p.grammar.Exceeds f := by
  cases h with
  | exceeds h => exact h
  | overreaches hr ha h => exact absurd (Nat.le_trans h (reach_le p _)) (Nat.not_le_of_lt (hlen _ hr _ ha))

/-- **Predictions from alternatives of a defined grammar fail for want of numbers only.** -/
theorem stops_of_predicted (hclosed : p.grammar.Closed) (hi : p.grammar.hasAlternative i.alternative = true)
    (h : p.predicted i = .error f) : p.Stops f := by
  rcases predicted_eq_error h with ⟨_, hno⟩ | ⟨r, a, s, ht, hn, hs, hitems⟩
  · rw [hi] at hno
    cases hno
  · rcases itemsFor_eq_error hitems with ⟨_, hundefined⟩ | ⟨rule, r', index, a', dot, hr, ha, hdot, herror⟩
    · refine absurd (hclosed s (Grammar.mem_nonterminals.mpr (.inr ⟨hs, r.lhs, a, ?_⟩))) hundefined
      exact ⟨(Grammar.produces_of_target? ht).2, List.mem_of_getElem? hn⟩
    · exact .of_itemAt hr ha hdot herror

/-! ## Least closed sets -/

/-- The least closed set around a set. -/
structure IsLeast (p : Prediction) (set closed : ItemSet) : Prop where
  subset : ∀ i ∈ set, i ∈ closed
  isClosed : p.Closed closed
  least : ∀ around : ItemSet, p.Closed around → (∀ i ∈ set, i ∈ around) → ∀ i ∈ closed, i ∈ around

/-- Rounds are cut short by an item that was reached. -/
theorem exists_of_closing {fuel : Nat} {fresh : ItemSet} (h : p.closing fuel fresh set = (closed, some f))
    (hfresh : ∀ i ∈ fresh, i ∈ set) : ∃ i ∈ closed, p.predicted i = .error f := by
  induction fuel generalizing fresh set with
  | zero => cases h
  | succ fuel ih =>
    rw [closing] at h
    cases hd : p.discovered fresh set with
    | error f' =>
      rw [hd] at h
      cases h
      unfold discovered at hd
      rcases bind_eq_error_iff.mp hd with hd | ⟨_, _, hd⟩
      · obtain ⟨i, hi, herror⟩ := exists_of_mapM_error hd
        exact ⟨i, hfresh i hi, herror⟩
      · cases hd
    | ok new =>
      rw [hd] at h
      cases new with
      | nil => cases h
      | cons j new => exact ih h fun i hi => ItemSet.mem_insertAll.mpr (.inr hi)

/-- A closure is not found if a prediction is impossible that it needs. -/
theorem exists_of_closure_error {motive : Item → Prop} (h : p.closure set = .error f) (hset : ∀ i ∈ set, motive i)
    (hpred : ∀ i items, motive i → p.predicted i = .ok items → ∀ j ∈ items, motive j) :
    ∃ i, motive i ∧ p.predicted i = .error f := by
  unfold closure closureSoFar at h
  generalize hclosing : p.closing p.roundBound set set = result at h
  obtain ⟨closed, fault⟩ := result
  cases fault with
  | none => cases h
  | some f' =>
    cases h
    obtain ⟨i, hi, herror⟩ := exists_of_closing hclosing fun _ hi => hi
    exact ⟨i, (closing_induction hclosing (fun _ hi => hi) hset hpred).2 i hi, herror⟩

/-- **What lies inside a closed set has a closure there.** -/
theorem exists_closure_le (hclosed : p.Closed closed) (hset : ∀ i ∈ set, i ∈ closed) :
    ∃ inner, p.closure set = .ok inner ∧ ∀ i ∈ inner, i ∈ closed := by
  have hpred : ∀ i items, i ∈ closed → p.predicted i = .ok items → ∀ j ∈ items, j ∈ closed := by
    intro i items hi hitems j hj
    obtain ⟨items', hitems', hall⟩ := hclosed i hi
    rw [hitems] at hitems'
    cases hitems'
    exact hall j hj
  cases hc : p.closure set with
  | ok inner => exact ⟨inner, rfl, closure_induction hc hset hpred⟩
  | error f =>
    obtain ⟨i, hi, herror⟩ := exists_of_closure_error hc hset hpred
    obtain ⟨items, hitems, _⟩ := hclosed i hi
    rw [herror] at hitems
    cases hitems

section Closures

variable (hg : (p.grammar.rules.map Rule.lhs).Nodup)
include hg

/-- **A closure is the least closed set.** -/
theorem isLeast_of_closure (h : p.closure set = .ok closed) : p.IsLeast set closed where
  subset := subset_closure h
  isClosed := closed_of_closure hg h
  least around haround hset := by
    obtain ⟨inner, hinner, hall⟩ := exists_closure_le haround hset
    rw [h] at hinner
    cases hinner
    exact hall

/-- **A closure is its own closure.** -/
theorem closure_closure (h : p.closure set = .ok closed) : p.closure closed = .ok closed :=
  closure_of_closed (closed_of_closure hg h)

/-- **Closures grow with their sets.** -/
theorem exists_closure_of_subset (h : p.closure set = .ok closed) (hpart : ∀ i ∈ part, i ∈ set) :
    ∃ inner, p.closure part = .ok inner ∧ ∀ i ∈ inner, i ∈ closed :=
  exists_closure_le (closed_of_closure hg h) fun i hi => subset_closure h i (hpart i hi)

/-- **Closures of sets over a defined grammar** are found unless there are too few numbers. -/
theorem closure_cases (hclosed : p.grammar.Closed)
    (hlen : ∀ r ∈ p.grammar.rules, ∀ a ∈ r.alternatives, a.symbols.length < wordLimit)
    (hset : ∀ i ∈ set, p.grammar.hasAlternative i.alternative = true) :
    (∃ closed, p.closure set = .ok closed) ∨ ∃ f, p.closure set = .error f ∧ p.grammar.Exceeds f := by
  cases hc : p.closure set with
  | ok closed => exact .inl ⟨closed, rfl⟩
  | error f =>
    refine .inr ⟨f, rfl, ?_⟩
    have hpred : ∀ i items, p.grammar.hasAlternative i.alternative = true → p.predicted i = .ok items → ∀ j ∈ items,
        p.grammar.hasAlternative j.alternative = true := by
      intro i items _ hitems j hj
      obtain ⟨_, _, _, _, _, _, hitems⟩ := exists_of_mem_predicted hitems hj
      obtain ⟨r, a, ht, _⟩ := (mem_itemsFor hg hitems).mp hj
      unfold Grammar.hasAlternative
      rw [ht]
      rfl
    obtain ⟨i, hi, herror⟩ := exists_of_closure_error hc hset hpred
    exact (stops_of_predicted hclosed hi herror).grammar_exceeds hlen

end Closures

/-! ## Cores -/

/-- What is kept of a closed set after some items have been tried: the closure brings the set back, but not if it lacks
one of the items that were tried and kept. -/
structure Trims (p : Prediction) (closed : ItemSet) (tried : List Item) (kept : ItemSet) : Prop where
  sublist : kept.Sublist closed
  closure_eq : p.closure kept = .ok closed
  needed : ∀ i ∈ tried, i ∈ kept → p.closure (kept.erase i) ≠ .ok closed

section Cores

variable (hg : (p.grammar.rules.map Rule.lhs).Nodup)
include hg

/-- Less does not close to the set if more does not. -/
theorem closure_ne_of_subset (hclosed : p.Closed closed) (hin : closed.Ascending) (hset : set.Sublist closed)
    (hpart : ∀ i ∈ part, i ∈ set) (h : p.closure set ≠ .ok closed) : p.closure part ≠ .ok closed := by
  intro heq
  obtain ⟨whole, hwhole, hle⟩ := exists_closure_le hclosed fun i hi => hset.subset hi
  obtain ⟨inner, hinner, hback⟩ := exists_closure_of_subset hg hwhole hpart
  rw [heq] at hinner
  cases hinner
  have hascending := ascending_closure (hin.sublist hset) hwhole
  rw [hascending.eq_of_mem_iff hin fun i => ⟨hle i, hback i⟩] at hwhole
  exact h hwhole

/-- An item that is tried is left out or found to be needed. -/
theorem Trims.exists_dropItem {tried : List Item} (hclosed : p.Closed closed) (hin : closed.Ascending)
    (h : p.Trims closed tried kept) (i : Item) :
    ∃ next, p.dropItem closed kept i = .ok next ∧ p.Trims closed (tried ++ [i]) next := by
  obtain ⟨hsub, hclosure, hneeded⟩ := h
  have hothers : (kept.erase i).Sublist closed := (List.erase_sublist).trans hsub
  obtain ⟨inner, hinner, _⟩ := exists_closure_le hclosed fun j hj => hothers.subset hj
  have hdrop : p.dropItem closed kept i = .ok (if inner = closed then kept.erase i else kept) := by
    unfold dropItem
    simp only [hinner, bind, Except.bind]
    split <;> rfl
  refine ⟨_, hdrop, ?_⟩
  split
  · rename_i heq
    subst heq
    refine ⟨hothers, hinner, fun j hj hkept => ?_⟩
    rcases List.mem_append.mp hj with hj | hj
    · -- what is needed among more is needed among less
      refine closure_ne_of_subset hg hclosed hin ((List.erase_sublist).trans hsub) (fun k hk => ?_)
        (hneeded j hj (List.mem_of_mem_erase hkept))
      rw [List.erase_comm] at hk
      exact List.mem_of_mem_erase hk
    · rw [List.mem_singleton.mp hj] at hkept
      have hnodup : kept.Nodup := (hin.sublist hsub).nodup
      exact absurd hkept (hnodup.not_mem_erase)
  · rename_i hne
    refine ⟨hsub, hclosure, fun j hj hkept => ?_⟩
    rcases List.mem_append.mp hj with hj | hj
    · exact hneeded j hj hkept
    · rw [List.mem_singleton.mp hj, hinner]
      exact fun heq => hne (Except.ok.inj heq)

theorem Trims.exists_foldlM {tried items : List Item} (hclosed : p.Closed closed) (hin : closed.Ascending)
    (h : p.Trims closed tried kept) :
    ∃ core, items.foldlM (p.dropItem closed) kept = .ok core ∧ p.Trims closed (tried ++ items) core := by
  induction items generalizing tried kept with
  | nil => exact ⟨kept, rfl, by rwa [List.append_nil]⟩
  | cons i items ih =>
    obtain ⟨next, hnext, htrims⟩ := h.exists_dropItem hg hclosed hin i
    obtain ⟨core, hcore, hall⟩ := ih htrims
    refine ⟨core, ?_, ?_⟩
    · rw [List.foldlM_cons, hnext]
      exact hcore
    · rwa [List.append_assoc, List.singleton_append] at hall

/-- **Closed sets have minimal cores**: the closure brings the set back from the core, and from no less. -/
theorem exists_core (hclosed : p.Closed closed) (hin : closed.Ascending) :
    ∃ core, p.core closed = .ok core ∧ core.Sublist closed ∧ p.closure core = .ok closed ∧
      ∀ i ∈ core, p.closure (core.erase i) ≠ .ok closed := by
  have hstart : p.Trims closed [] closed := ⟨.refl _, closure_of_closed hclosed, nofun⟩
  obtain ⟨core, hcore, hsub, hclosure, hneeded⟩ : ∃ core, p.core closed = .ok core ∧ p.Trims closed ([] ++ _) core :=
    hstart.exists_foldlM hg hclosed hin
  exact ⟨core, hcore, hsub, hclosure, fun i hi => hneeded i ((sortBy_perm closed).mem_iff.mpr (hsub.subset hi)) hi⟩

end Cores

/-- Only the empty set has an empty core. -/
theorem eq_nil_of_core (h : p.closure [] = .ok closed) : closed = [] := by
  have hnil : p.closure [] = .ok [] := closure_of_closed nofun
  rw [h] at hnil
  exact Except.ok.inj hnil

/-! ## States -/

theorem itemsFor_ne_emptyItemSet : p.itemsFor lhs ≠ .error .emptyItemSet := by
  intro h
  rcases itemsFor_eq_error h with ⟨hf, _⟩ | ⟨rule, r, index, a, dot, _, _, _, herror⟩
  · cases hf
  · rcases itemAt_eq_error herror with ⟨hf, _⟩ | ⟨hf, _⟩ | ⟨hf, _⟩ <;> cases hf

theorem closure_ne_emptyItemSet : p.closure set ≠ .error .emptyItemSet := by
  intro h
  obtain ⟨i, _, herror⟩ := exists_of_closure_error (motive := fun _ => True) h (fun _ _ => trivial)
    fun _ _ _ _ _ _ => trivial
  rcases predicted_eq_error herror with ⟨hf, _⟩ | ⟨_, _, _, _, _, _, hitems⟩
  · cases hf
  · exact itemsFor_ne_emptyItemSet hitems

theorem transition_ne_emptyItemSet {s : Symbol} : p.transition set s ≠ .error .emptyItemSet := by
  intro h
  unfold transition kernel at h
  rcases bind_eq_error_iff.mp h with h | ⟨_, _, h⟩
  · rcases bind_eq_error_iff.mp h with h | ⟨_, _, h⟩
    · obtain ⟨i, _, h⟩ := exists_of_mapM_error h
      unfold advanceOver Grammar.target Item.advance sum16 at h
      rcases bind_eq_error_iff.mp h with h | ⟨_, _, h⟩
      · split at h <;> cases h
      · dsimp only at h
        split at h
        · split at h <;> cases h
        · cases h
    · cases h
  · exact closure_ne_emptyItemSet h

end Prediction

namespace Automaton

open Exploration (Discovered)

variable {p : Prediction} {a : Automaton} {e : Exploration} {start set : ItemSet} {f : Fault} {s : Symbol} {i : Item}

theorem StateId.ofIndex_ne_emptyItemSet {n : Nat} : StateId.ofIndex n ≠ .error .emptyItemSet := by
  unfold StateId.ofIndex
  split <;> nofun

theorem follow_ne_emptyItemSet {source : StateId} :
    (Exploration.follow p source set e s).result ≠ .error .emptyItemSet := by
  intro h
  unfold Exploration.follow at h
  rw [Trail.result_bind] at h
  rcases bind_eq_error_iff.mp h with h | ⟨target, _, h⟩
  · exact Prediction.transition_ne_emptyItemSet h
  · split at h
    · cases h
    · split at h
      · cases h
      · rw [Trail.result_bind] at h
        rcases bind_eq_error_iff.mp h with h | ⟨_, _, h⟩
        · exact StateId.ofIndex_ne_emptyItemSet h
        · cases h

theorem explore_ne_emptyItemSet {symbols : List Symbol} {fuel current : Nat} :
    (Exploration.explore p symbols fuel current e).result ≠ .error .emptyItemSet := by
  intro h
  induction fuel generalizing current e with
  | zero => cases h
  | succ fuel ih =>
    rw [Exploration.explore] at h
    split at h
    · cases h
    · rw [Trail.result_bind] at h
      rcases bind_eq_error_iff.mp h with h | ⟨_, _, h⟩
      · exact StateId.ofIndex_ne_emptyItemSet h
      · rw [Trail.result_bind, Trail.result_foldlM] at h
        rcases bind_eq_error_iff.mp h with h | ⟨_, _, h⟩
        · obtain ⟨_, _, _, _, h⟩ := exists_of_foldlM_error (P := fun _ => True) h trivial fun _ _ _ _ _ _ => trivial
          exact follow_ne_emptyItemSet h
        · exact ih h

/-- A set with items has a core with items. -/
theorem stateOf_ne_emptyItemSet (hg : (p.grammar.rules.map Rule.lhs).Nodup) {number : Nat} (hclosed : p.Closed set)
    (hin : set.Ascending) (hne : set ≠ []) : stateOf p number set ≠ .error .emptyItemSet := by
  intro h
  obtain ⟨core, hcore, _, hclosure, _⟩ := Prediction.exists_core hg hclosed hin
  unfold stateOf at h
  rw [hcore] at h
  rcases bind_eq_error_iff.mp h with h | ⟨_, h', h⟩
  · cases h
  · cases h'
    split at h
    · rename_i hempty
      rw [List.isEmpty_iff.mp hempty] at hclosure
      exact hne (Prediction.eq_nil_of_core hclosure)
    · rcases bind_eq_error_iff.mp h with h | ⟨_, _, h⟩
      · exact StateId.ofIndex_ne_emptyItemSet h
      · cases h

theorem startSet_ne_emptyItemSet : startSet p ≠ .error .emptyItemSet := by
  intro h
  unfold startSet at h
  rcases bind_eq_error_iff.mp h with h | ⟨_, _, h⟩
  · unfold Grammar.start at h
    split at h <;> cases h
  · rcases bind_eq_error_iff.mp h with h | ⟨_, _, h⟩
    · exact Prediction.itemsFor_ne_emptyItemSet h
    · exact Prediction.closure_ne_emptyItemSet h

/-- The first set holds the items of the start symbol, and the others what was advanced to them. -/
theorem set_ne_nil (hg : (p.grammar.rules.map Rule.lhs).Nodup)
    (hstart : ∀ lhs, p.grammar.start = .ok lhs → ∃ a, p.grammar.Produces lhs a) (hset : startSet p = .ok start)
    (he : (Exploration.explore p (p.grammar.terminals ++ p.grammar.nonterminals) (wordLimit + 1) 0
      ⟨[start], .empty⟩).result = .ok e) {number : Nat} (hget : e.sets[number]? = some set) : set ≠ [] := by
  by_cases hzero : number = 0
  · subst hzero
    have hext := (Exploration.settled_of_explore hg (sound_start hg hset) (Nat.lt_succ_self _) he).1
    have hfirst : e.sets[0]? = some start := hext.getElem? rfl
    rw [hget] at hfirst
    cases hfirst
    obtain ⟨lhs, items, hlhs, hitems, hclosure⟩ := startSet_eq_ok.mp hset
    obtain ⟨a, hp⟩ := hstart lhs hlhs
    obtain ⟨j, hj, _⟩ := Prediction.exists_mem_itemsFor hg hitems hp
    exact List.ne_nil_of_mem (Prediction.subset_closure hclosure j (ItemSet.mem_ofList.mpr hj))
  · have hdiscovered : Discovered p e := .explore hg (discovered_start hg hset) he
    obtain ⟨_, _, _, hne⟩ := hdiscovered.exists_transition hget hzero
    exact hne

/-- **No state is without items**, if the start symbol has an alternative. -/
theorem build_ne_emptyItemSet (hg : (p.grammar.rules.map Rule.lhs).Nodup)
    (hstart : ∀ lhs, p.grammar.start = .ok lhs → ∃ a, p.grammar.Produces lhs a) :
    (build p).result ≠ .error .emptyItemSet := by
  intro h
  unfold build at h
  rw [Trail.result_bind] at h
  rcases bind_eq_error_iff.mp h with h | ⟨start, hset, h⟩
  · exact startSet_ne_emptyItemSet h
  rw [Trail.result_bind] at h
  rcases bind_eq_error_iff.mp h with h | ⟨e, he, h⟩
  · exact explore_ne_emptyItemSet h
  have hstates : statesOf p e.sets = .error .emptyItemSet := by
    rw [Trail.result_bind] at h
    rcases bind_eq_error_iff.mp h with h | ⟨_, _, h⟩
    · cases h
    · rw [Trail.result_bind] at h
      rcases bind_eq_error_iff.mp h with h | ⟨_, _, h⟩
      · exact h
      · cases h
  have hdiscovered : Discovered p e := .explore hg (discovered_start hg hset) he
  obtain ⟨⟨set, number⟩, hmem, hstate⟩ := exists_of_mapM_error hstates
  have hget : e.sets[number]? = some set := List.mem_zipIdx_iff_getElem?.mp hmem
  have hin := List.mem_of_getElem? hget
  exact stateOf_ne_emptyItemSet hg (hdiscovered.closed set hin) (hdiscovered.ascending set hin)
    (set_ne_nil hg hstart hset he hget) hstate

/-- If nothing vanishes, only moved dots have to be kept: the others are predicted or in front. -/
theorem mem_or_dot_eq_zero (hg : (p.grammar.rules.map Rule.lhs).Nodup) (hfirst : p.first = none) {closed : ItemSet}
    (h : p.closure set = .ok closed) : ∀ i ∈ closed, i ∈ set ∨ i.dot.toNat = 0 := by
  refine Prediction.closure_induction h (fun i hi => .inl hi) fun i items _ hitems j hj => .inr ?_
  obtain ⟨_, _, _, _, _, _, hitems⟩ := Prediction.exists_of_mem_predicted hitems hj
  obtain ⟨_, _, _, _, hdot⟩ := (Prediction.mem_itemsFor hg hitems).mp hj
  rw [Prediction.reach_eq_zero hfirst] at hdot
  exact Nat.le_zero.mp hdot

/-- Every set but the first is the closure of its items whose dots have moved, which were advanced to it. -/
theorem closure_moved (hg : (p.grammar.rules.map Rule.lhs).Nodup) (he : Discovered p e) {number : Nat}
    (hget : e.sets[number]? = some set) (hzero : number ≠ 0) :
    p.closure (set.filter fun i => 0 < i.dot.toNat) = .ok set := by
  have hin := List.mem_of_getElem? hget
  by_contra hnot
  obtain ⟨source, s, htransition, _⟩ := he.exists_transition hget hzero
  obtain ⟨kernel, hkernel, hkernelClosure⟩ := Prediction.transition_eq_ok.mp htransition
  refine Prediction.closure_ne_of_subset hg (he.closed set hin) (he.ascending set hin) List.filter_sublist
    (fun j hj => ?_) hnot hkernelClosure
  refine List.mem_filter.mpr ⟨Prediction.subset_closure hkernelClosure j hj, decide_eq_true ?_⟩
  obtain ⟨i, _, hadvance⟩ := (Prediction.mem_kernel hkernel).mp hj
  obtain ⟨_, _, _, _, _, hadvance⟩ := Prediction.advanceOver_eq_ok.mp hadvance
  have hdot := (Item.advance_eq_ok.mp hadvance).2
  omega

/-- **If nothing vanishes, the core of a state other than the first holds the items whose dots have moved.** -/
theorem core_eq_filter (hg : (p.grammar.rules.map Rule.lhs).Nodup) (hfirst : p.first = none)
    (h : (build p).result = .ok a) {state : State} (hstate : state ∈ a.states) (hne : state.id ≠ .start) :
    ∃ closed, p.closure state.core = .ok closed ∧ state.core = closed.filter fun i => 0 < i.dot.toNat := by
  obtain ⟨start, e, he⟩ := exists_explored h
  have hdiscovered := he.discovered hg
  obtain ⟨⟨set, number⟩, hmem, hof⟩ := exists_of_mem_mapM he.states_eq hstate
  have hget : e.sets[number]? = some set := List.mem_zipIdx_iff_getElem?.mp hmem
  have hin := List.mem_of_getElem? hget
  have hclosed := hdiscovered.closed set hin
  have hascending := hdiscovered.ascending set hin
  have hzero : number ≠ 0 := fun hzero => hne (StateId.toNat_inj ((stateOf_eq_ok hof hclosed).1.trans hzero))
  obtain ⟨core, hcore, hsub, hclosure, hminimal⟩ := Prediction.exists_core hg hclosed hascending
  obtain rfl := Except.ok.inj ((of_stateOf hof).2.1.symm.trans hcore)
  refine ⟨set, hclosure, ?_⟩
  have hkept : ∀ i ∈ set.filter fun i => 0 < i.dot.toNat, i ∈ state.core := by
    intro i hi
    obtain ⟨hi, hdot⟩ := List.mem_filter.mp hi
    exact (mem_or_dot_eq_zero hg hfirst hclosure i hi).resolve_right (Nat.ne_of_gt (of_decide_eq_true hdot))
  refine (hascending.sublist hsub).eq_of_mem_iff (hascending.sublist List.filter_sublist) fun i => ⟨fun hi => ?_, hkept i⟩
  by_contra hnot
  refine Prediction.closure_ne_of_subset hg hclosed hascending (List.erase_sublist.trans hsub) (fun j hj => ?_)
    (hminimal i hi) (closure_moved hg hdiscovered hget hzero)
  have hother : j ≠ i := fun heq => hnot (heq ▸ hj)
  exact (List.mem_erase_of_ne hother).mpr (hkept j hj)

end Automaton

/-! ## Defined grammars -/

/-- Every rule of a definition under way has an alternative. -/
theorem alternatives_ne_nil_of_step {d d' : Draft} {step : DefinitionStep} (h : ∀ r ∈ d.rules, r.alternatives ≠ [])
    (hstep : step.apply d = .ok d') : ∀ r ∈ d'.rules, r.alternatives ≠ [] := by
  cases step with
  | rule lhs rhs action =>
    rw [Draft.eq_setRule_of_addRule hstep]
    intro r hr
    rcases Draft.mem_setRule hr with rfl | hr
    · exact List.ne_nil_of_mem (Rule.mem_alternatives_add.mpr (.inl rfl))
    · exact h r hr
  | start s =>
    unfold DefinitionStep.apply Draft.setStart at hstep
    dsimp only at hstep
    split at hstep
    · cases hstep
    · cases hstep
      exact h

/-- The start symbol of a defined grammar has an alternative. -/
theorem exists_produces_start {steps : List DefinitionStep} {g : Grammar} (h : (Grammar.define steps).result = .ok g)
    {lhs : Symbol} (hlhs : g.start = .ok lhs) : ∃ a, g.Produces lhs a := by
  obtain ⟨d, hd, hg⟩ := exists_draft_of_define h
  have hall : ∀ r ∈ d.rules, r.alternatives ≠ [] :=
    foldlM_invariant (P := fun d => ∀ r ∈ d.rules, r.alternatives ≠ []) hd nofun fun _ _ _ _ hd hstep =>
      alternatives_ne_nil_of_step hd hstep
  obtain ⟨r, hr, hstart⟩ := (wellFormed_of_define h).exists_start
  rw [hlhs] at hstart
  cases hstart
  obtain ⟨a, ha⟩ := List.exists_mem_of_ne_nil _ (hall r ((mem_rules_of_finish hg).2.mem_iff.mp hr))
  exact ⟨a, r, hr, rfl, ha⟩

namespace Prediction

/-- Closure and core are inverse, and cores are minimal. -/
structure Reversible (p : Prediction) : Prop where
  /-- The closure of a set over the grammar is the least closed set around it. It can only fail to be found if there are
  too few numbers for the rules or for the alternatives of a rule. -/
  closure_cases : ∀ set : ItemSet, set.Ascending → (∀ i ∈ set, p.grammar.hasAlternative i.alternative = true) →
    (∃ closed, p.closure set = .ok closed ∧ closed.Ascending ∧ p.IsLeast set closed) ∨
      ∃ f, p.closure set = .error f ∧ p.grammar.Exceeds f
  closure_idem : ∀ set closed, p.closure set = .ok closed → p.closure closed = .ok closed
  closure_mono : ∀ part set closed : ItemSet, (∀ i ∈ part, i ∈ set) → p.closure set = .ok closed →
    ∃ inner, p.closure part = .ok inner ∧ ∀ i ∈ inner, i ∈ closed
  /-- The closure brings a closed set back from its core, and from no less. Only the empty set has an empty core. -/
  core : ∀ closed : ItemSet, closed.Ascending → p.Closed closed →
    ∃ core, p.core closed = .ok core ∧ p.closure core = .ok closed ∧
      (∀ i ∈ core, ∃ less, p.closure (core.erase i) = .ok less ∧ less ≠ closed) ∧ (core = [] → closed = [])
  /-- No state is without items. -/
  state_ne : (Automaton.build p).result ≠ .error .emptyItemSet
  /-- If nothing vanishes, the core of every state but the first holds the items whose dots have moved. -/
  state_core : p.first = none → ∀ a, (Automaton.build p).result = .ok a → ∀ state ∈ a.states, state.id ≠ .start →
    ∃ closed, p.closure state.core = .ok closed ∧ state.core = closed.filter fun i => 0 < i.dot.toNat

/-- **Predictions from a defined grammar are reversible**, whether they pass over what vanishes or not, if its alternatives
have fewer symbols than there are numbers. -/
theorem reversible_of_define {steps : List DefinitionStep} {g : Grammar} {p : Prediction}
    (hg : (Grammar.define steps).result = .ok g)
    (hlen : ∀ r ∈ g.rules, ∀ a ∈ r.alternatives, a.symbols.length < wordLimit)
    (hp : p = ⟨g, none⟩ ∨ p = ⟨g, some (FirstSets.ofGrammar g)⟩) : p.Reversible := by
  have hgrammar : p.grammar = g := by
    rcases hp with rfl | rfl <;> rfl
  subst hgrammar
  have hnodup := (wellFormed_of_define hg).nodup_lhs
  constructor
  · intro set hset hmem
    refine (closure_cases hnodup (closed_of_define hg) hlen hmem).imp_left ?_
    rintro ⟨closed, h⟩
    exact ⟨closed, h, ascending_closure hset h, isLeast_of_closure hnodup h⟩
  · exact fun set closed h => closure_closure hnodup h
  · exact fun part set closed hpart h => exists_closure_of_subset hnodup h hpart
  · intro closed hset hclosed
    obtain ⟨core, hcore, hsub, hclosure, hminimal⟩ := exists_core hnodup hclosed hset
    refine ⟨core, hcore, hclosure, fun i hi => ?_, ?_⟩
    · obtain ⟨less, hless, _⟩ := exists_closure_le hclosed fun j hj => hsub.subset (List.mem_of_mem_erase hj)
      exact ⟨less, hless, fun heq => hminimal i hi (heq ▸ hless)⟩
    · rintro rfl
      exact eq_nil_of_core hclosure
  · exact Automaton.build_ne_emptyItemSet hnodup fun lhs hlhs => exists_produces_start hg hlhs
  · exact fun hfirst a ha state hstate hne => Automaton.core_eq_filter hnodup hfirst ha hstate hne

/-- Two nonterminals that predict each other, and a third one that may begin with either. -/
def circularSteps : List DefinitionStep := [
  .rule (.nonterminal "S") [.nonterminal "A", .nonterminal "B"] none,
  .rule (.nonterminal "A") [.nonterminal "B"] none,
  .rule (.nonterminal "A") [Symbol.epsilon] none,
  .rule (.nonterminal "B") [.nonterminal "A", .terminal "x"] none]

set_option maxRecDepth 10000 in
/-- What is predicted in circles comes back from one item. -/
theorem reversible_of_define_circular : ∃ g closed, (Grammar.define circularSteps).result = .ok g ∧
    (⟨g, some (FirstSets.ofGrammar g)⟩ : Prediction).closure [⟨⟨0, 0⟩, 0⟩] = .ok closed ∧ closed.length = 5 ∧
    (⟨g, some (FirstSets.ofGrammar g)⟩ : Prediction).core closed = .ok [⟨⟨0, 0⟩, 0⟩] ∧
    (⟨g, some (FirstSets.ofGrammar g)⟩ : Prediction).Reversible ∧ (⟨g, none⟩ : Prediction).Reversible := by
  have heval : ((Grammar.define circularSteps).result.toOption.any fun g =>
      decide (∀ r ∈ g.rules, ∀ a ∈ r.alternatives, a.symbols.length < wordLimit) &&
      ((⟨g, some (FirstSets.ofGrammar g)⟩ : Prediction).closure [⟨⟨0, 0⟩, 0⟩]).toOption.any fun closed =>
        closed.length == 5 &&
        ((⟨g, some (FirstSets.ofGrammar g)⟩ : Prediction).core closed).toOption == some [⟨⟨0, 0⟩, 0⟩]) = true := by rfl
  obtain ⟨g, hg, heval⟩ := exists_ok_of_any heval
  obtain ⟨hlen, heval⟩ := Bool.and_eq_true_iff.mp heval
  obtain ⟨closed, hclosed, heval⟩ := exists_ok_of_any heval
  simp only [Bool.and_eq_true, beq_iff_eq] at heval
  obtain ⟨hlength, hcore⟩ := heval
  have hlen := of_decide_eq_true hlen
  exact ⟨g, closed, hg, hclosed, hlength, toOption_eq_some_iff.mp hcore,
    reversible_of_define hg hlen (.inr rfl), reversible_of_define hg hlen (.inl rfl)⟩

end Prediction

/-! ## Too many alternatives -/

section Crowded

variable {lhs : Symbol} {bodies : List (List Symbol)} {body : List Symbol}

/-- The alternatives that repeat the left-hand side in front of each body, the last one added first. -/
def recursiveRule (lhs : Symbol) (bodies : List (List Symbol)) : Rule :=
  ⟨lhs, bodies.reverse.map fun body => ⟨lhs :: body, none⟩⟩

theorem length_recursiveRule : (recursiveRule lhs bodies).alternatives.length = bodies.length := by
  simp only [recursiveRule, List.length_map, List.length_reverse]

theorem mem_recursiveRule {a : Alternative} :
    a ∈ (recursiveRule lhs bodies).alternatives ↔ ∃ body ∈ bodies, ⟨lhs :: body, none⟩ = a := by
  simp only [recursiveRule, List.mem_map, List.mem_reverse]

/-- The steps that define these alternatives. -/
def recursiveSteps (lhs : Symbol) (bodies : List (List Symbol)) : List DefinitionStep :=
  bodies.map fun body => .rule lhs (lhs :: body) none

theorem add_recursiveRule : (recursiveRule lhs bodies).add ⟨lhs :: body, none⟩ = recursiveRule lhs (bodies ++ [body]) := by
  unfold Rule.add
  rw [if_pos (by simp [Rule.isLeftRecursive, recursiveRule])]
  simp only [recursiveRule, List.reverse_append, List.reverse_singleton, List.singleton_append, List.map_cons]

/-- The definition after these steps. -/
def recursiveDraft (lhs : Symbol) (bodies : List (List Symbol)) : Draft :=
  if bodies.isEmpty then .empty else ⟨[recursiveRule lhs bodies], none⟩

/-- A body that is new and has no empty derivation in it can be added. -/
theorem addRule_recursiveDraft (hlhs : lhs.isNonterminal = true) (hbody : Symbol.epsilon ∉ body)
    (hnew : body ∉ bodies) :
    (recursiveDraft lhs bodies).addRule lhs (lhs :: body) none = .ok (recursiveDraft lhs (bodies ++ [body])) := by
  have hterminal : ¬lhs.isTerminal = true := Symbol.not_isTerminal hlhs
  have hmixed : Symbol.epsilon ∉ lhs :: body := by
    rw [List.mem_cons, not_or]
    exact ⟨(Symbol.ne_epsilon_of_isNonterminal hlhs).symm, hbody⟩
  have hrule : (recursiveDraft lhs bodies).ruleOf lhs = recursiveRule lhs bodies := by
    cases bodies with
    | nil => rfl
    | cons first rest => simp [recursiveDraft, Draft.ruleOf, recursiveRule]
  have hset : (recursiveDraft lhs bodies).setRule (recursiveRule lhs (bodies ++ [body])) =
      recursiveDraft lhs (bodies ++ [body]) := by
    cases bodies with
    | nil => rfl
    | cons first rest => simp [recursiveDraft, Draft.setRule, recursiveRule]
  have hdifferent : ((recursiveRule lhs bodies).alternatives.any fun a => a.symbols == lhs :: body) = false := by
    simp only [recursiveRule, List.any_map, List.any_eq_false, List.mem_reverse, Function.comp_apply, beq_iff_eq,
      List.cons.injEq, true_and]
    exact fun b hb heq => hnew (heq ▸ hb)
  unfold Draft.addRule
  rw [if_neg hterminal, hrule, hdifferent, add_recursiveRule, hset]
  simp [hmixed]

theorem foldlM_recursiveSteps (hlhs : lhs.isNonterminal = true) (hnodup : bodies.Nodup)
    (hbodies : ∀ body ∈ bodies, Symbol.epsilon ∉ body) :
    (recursiveSteps lhs bodies).foldlM (fun d step => DefinitionStep.apply d step) Draft.empty =
      .ok (recursiveDraft lhs bodies) := by
  induction bodies using List.reverseRecOn with
  | nil => rfl
  | append_singleton bodies body ih =>
    obtain ⟨hnodup, _, hdisjoint⟩ := List.nodup_append.mp hnodup
    have hnew : body ∉ bodies := fun hmem => hdisjoint body hmem body List.mem_cons_self rfl
    have hbody := hbodies body (List.mem_append_right _ List.mem_cons_self)
    have hbefore := ih hnodup fun b hb => hbodies b (List.mem_append_left _ hb)
    unfold recursiveSteps at hbefore ⊢
    rw [List.map_append, List.foldlM_append, hbefore, List.map_singleton]
    show (DefinitionStep.apply _ _ >>= pure) = _
    rw [bind_pure]
    exact addRule_recursiveDraft hlhs hbody hnew

theorem finish_recursiveDraft (hne : bodies ≠ []) (hbodies : ∀ body ∈ bodies, ∀ s ∈ body, s.isTerminal = true) :
    (recursiveDraft lhs bodies).finish = .ok ⟨[recursiveRule lhs bodies]⟩ := by
  have hdraft : recursiveDraft lhs bodies = ⟨[recursiveRule lhs bodies], none⟩ :=
    if_neg fun hempty => hne (List.isEmpty_iff.mp hempty)
  have hknown : ∀ s ∈ (⟨[recursiveRule lhs bodies]⟩ : Grammar).nonterminals, s = lhs := by
    intro s hs
    rcases Grammar.mem_nonterminals.mp hs with hs | ⟨hs, _, a, ⟨r, hr, _, ha⟩, hmem⟩
    · exact List.mem_singleton.mp hs
    · rw [List.mem_singleton.mp hr] at ha
      obtain ⟨body, hbody, rfl⟩ := mem_recursiveRule.mp ha
      rcases List.mem_cons.mp hmem with rfl | hmem
      · rfl
      · exact absurd (hbodies body hbody s hmem) (Symbol.not_isTerminal hs)
  have hnone : ((⟨[recursiveRule lhs bodies]⟩ : Grammar).nonterminals.find? fun s =>
      ((⟨[recursiveRule lhs bodies]⟩ : Grammar).position? s).isNone) = none := by
    refine List.find?_eq_none.mpr fun s hs => ?_
    rw [hknown s hs]
    simp [Grammar.position?, recursiveRule]
  rw [hdraft]
  simp only [Draft.finish, Draft.ordered, List.isEmpty_cons, Bool.false_eq_true, if_false, hnone]

/-- **A rule with any number of left-recursive alternatives is accepted** if they are different and without empty
derivations and other nonterminals. -/
theorem define_recursiveSteps (hlhs : lhs.isNonterminal = true) (hne : bodies ≠ []) (hnodup : bodies.Nodup)
    (hbodies : ∀ body ∈ bodies, ∀ s ∈ body, s.isTerminal = true ∧ s ≠ Symbol.epsilon) :
    (Grammar.define (recursiveSteps lhs bodies)).result = .ok ⟨[recursiveRule lhs bodies]⟩ := by
  have hfold := foldlM_recursiveSteps hlhs hnodup fun body hbody hmem => (hbodies body hbody _ hmem).2 rfl
  have hrun : (fun d step => (DefinitionStep.run d step).result) = fun d step => DefinitionStep.apply d step := by
    funext d step
    rfl
  unfold Grammar.define
  rw [Trail.result_bind]
  show ((recursiveSteps lhs bodies).foldlM DefinitionStep.run Draft.empty).result.mapError _ >>= _ = _
  rw [Trail.result_foldlM, hrun, hfold]
  exact finish_recursiveDraft hne fun body hbody s hs => (hbodies body hbody s hs).1

/-- **The closure of an item before a nonterminal is not found** if this has more alternatives than there are numbers. -/
theorem closure_eq_tooManyAlternatives {steps : List DefinitionStep} {g : Grammar}
    (hg : (Grammar.define steps).result = .ok g)
    (hlen : ∀ r ∈ g.rules, ∀ a ∈ r.alternatives, a.symbols.length < wordLimit) (hrules : g.rules.length ≤ wordLimit)
    {r rule : Rule} (hr : r ∈ g.rules) (hmany : wordLimit < r.alternatives.length) {i : Item} {a : Alternative}
    (ht : g.target? i.alternative = some (rule, a)) (hn : i.nextIn a = some r.lhs) :
    (⟨g, none⟩ : Prediction).closure [i] = .error .tooManyAlternatives := by
  have hwell := wellFormed_of_define hg
  have hmem : ∀ j ∈ [i], g.hasAlternative j.alternative = true := by
    intro j hj
    rw [List.mem_singleton.mp hj, Grammar.hasAlternative, ht]
    rfl
  rcases Prediction.closure_cases (p := ⟨g, none⟩) hwell.nodup_lhs (closed_of_define hg) hlen hmem with
    ⟨closed, hclosure⟩ | ⟨f, herror, hexceeds⟩
  · -- the alternative behind the last number would be among the predicted ones
    have hclosed := Prediction.closed_of_closure hwell.nodup_lhs hclosure
    obtain ⟨items, hitems, _⟩ := hclosed i (Prediction.subset_closure hclosure i List.mem_cons_self)
    rw [Prediction.predicted_of_next ht hn (hwell.nonterminal_lhs r hr)] at hitems
    have hlast : r.alternatives[wordLimit]? = some r.alternatives[wordLimit] := List.getElem?_eq_getElem hmany
    obtain ⟨j, _, u, htarget, hlhs, _⟩ := Prediction.exists_mem_itemsFor hwell.nodup_lhs hitems
      ⟨r, hr, rfl, List.mem_of_getElem? hlast⟩
    obtain ⟨hu, hj⟩ := Grammar.target?_eq_some.mp htarget
    have hsame : u = r := List.inj_on_of_nodup_map hwell.nodup_lhs (List.mem_of_getElem? hu) hr hlhs
    rw [hsame] at hj
    obtain ⟨hlt, _⟩ := List.getElem?_eq_some_iff.mp hj
    have hindex := (List.getElem?_inj hlt (hwell.proper r hr).nodup).mp (hj.trans hlast.symm)
    have := j.alternative.index.toNat_lt
    unfold wordLimit at hindex
    omega
  · cases hexceeds with
    | rules h => exact absurd hrules (Nat.not_le_of_lt h)
    | alternatives => exact herror

/-- A terminal with a number. -/
def letter (n : Nat) : Symbol := .terminal ("x" ++ toString n)

theorem letter_injective {m n : Nat} (h : letter m = letter n) : m = n := by
  have hlist := congrArg String.toList (Symbol.terminal.inj h)
  simp only [String.toList_append] at hlist
  exact Nat.repr_inj.mp (String.toList_inj.mp (List.append_cancel_left hlist))

theorem letter_ne_epsilon (n : Nat) : letter n ≠ Symbol.epsilon := by
  intro h
  have hlist := congrArg String.toList (Symbol.terminal.inj h)
  simp only [String.toList_append] at hlist
  cases (List.cons.inj hlist).1

/-- One body more than there are numbers: none at all, and all pairs of so many letters. -/
def crowdedBodies : List (List Symbol) :=
  [] :: (List.range wordLimit).map fun n => [letter (n / 256), letter (n % 256)]

theorem nodup_crowdedBodies : crowdedBodies.Nodup := by
  refine List.nodup_cons.mpr ⟨fun hmem => ?_, List.nodup_range.map fun m n heq => ?_⟩
  · obtain ⟨n, _, hn⟩ := List.mem_map.mp hmem
    cases hn
  · have hdiv := letter_injective (List.cons.inj heq).1
    have hmod := letter_injective (List.cons.inj (List.cons.inj heq).2).1
    omega

theorem mem_crowdedBodies {body : List Symbol} (h : body ∈ crowdedBodies) :
    body.length ≤ 2 ∧ ∀ s ∈ body, s.isTerminal = true ∧ s ≠ Symbol.epsilon := by
  rcases List.mem_cons.mp h with rfl | h
  · exact ⟨Nat.zero_le 2, nofun⟩
  · obtain ⟨n, _, rfl⟩ := List.mem_map.mp h
    refine ⟨Nat.le_refl 2, fun s hs => ?_⟩
    rcases List.mem_cons.mp hs with rfl | hs
    · exact ⟨rfl, letter_ne_epsilon _⟩
    · rw [List.mem_singleton.mp hs]
      exact ⟨rfl, letter_ne_epsilon _⟩

/-- The grammar with these bodies. -/
def crowdedRules : Grammar := ⟨[recursiveRule (.nonterminal "S") crowdedBodies]⟩

/-- **A closure over short alternatives that is not found**: there is one alternative more than can be numbered. -/
theorem not_exists_closure_crowded :
    (Grammar.define (recursiveSteps (.nonterminal "S") crowdedBodies)).result = .ok crowdedRules ∧
    (∀ r ∈ crowdedRules.rules, ∀ a ∈ r.alternatives, a.symbols.length < wordLimit) ∧
    crowdedRules.hasAlternative ⟨0, 0⟩ = true ∧
    (⟨crowdedRules, none⟩ : Prediction).closure [⟨⟨0, 0⟩, 0⟩] = .error .tooManyAlternatives := by
  have hne : crowdedBodies ≠ [] := List.cons_ne_nil _ _
  have hg : (Grammar.define (recursiveSteps (.nonterminal "S") crowdedBodies)).result = .ok crowdedRules :=
    define_recursiveSteps rfl hne nodup_crowdedBodies fun body hbody => (mem_crowdedBodies hbody).2
  have hlen : ∀ r ∈ crowdedRules.rules, ∀ a ∈ r.alternatives, a.symbols.length < wordLimit := by
    intro r hr a ha
    rw [List.mem_singleton.mp hr] at ha
    obtain ⟨body, hbody, rfl⟩ := mem_recursiveRule.mp ha
    have hshort := (mem_crowdedBodies hbody).1
    unfold wordLimit
    rw [List.length_cons]
    omega
  have hmany : wordLimit < (recursiveRule (.nonterminal "S") crowdedBodies).alternatives.length := by
    rw [length_recursiveRule, crowdedBodies, List.length_cons, List.length_map, List.length_range]
    exact Nat.lt_succ_self _
  have hfirst := List.getElem?_eq_getElem (Nat.lt_of_le_of_lt (Nat.zero_le _) hmany)
  obtain ⟨body, _, hbody⟩ := mem_recursiveRule.mp (List.mem_of_getElem? hfirst)
  have htarget : crowdedRules.target? ⟨0, 0⟩ =
      some (recursiveRule (.nonterminal "S") crowdedBodies, ⟨.nonterminal "S" :: body, none⟩) :=
    Grammar.target?_eq_some.mpr ⟨rfl, hfirst.trans (congrArg some hbody.symm)⟩
  refine ⟨hg, hlen, by rw [Grammar.hasAlternative, htarget]; rfl, ?_⟩
  exact closure_eq_tooManyAlternatives hg hlen (show 1 ≤ wordLimit by decide) List.mem_cons_self hmany htarget rfl

end Crowded

end LR
end TableParser
