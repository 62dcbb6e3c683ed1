import TableParser.Proofs.Cores

/-!
# Dot positions

The dot of an item stands in front of a symbol of its alternative or behind the last one (`LR.Item.Within`), and whatever
is predicted, closed or advanced keeps to that.

* **Prediction and closure** (`LR.Prediction.within_of_closing`, `LR.Prediction.stops_of_closing`) add items of the grammar
  only, also when they are stopped on the way, and are stopped for want of numbers only (`LR.Prediction.Stops`).
* **Transitions** (`LR.Prediction.kernel_cases`) close exactly the items whose dots are moved over the symbol
  (`LR.Prediction.Advances`), unless there is no number for the next place of a dot (`LR.Prediction.AtLimit`).
-/

namespace TableParser.LR

/-- The dot stands in front of a symbol of the alternative or behind the last one. -/
def Item.Within (i : Item) (g : Grammar) : Prop :=
  ∃ r a, g.target? i.alternative = some (r, a) ∧ i.dot.toNat ≤ a.symbols.length

theorem Item.Within.hasAlternative {i : Item} {g : Grammar} (h : i.Within g) : g.hasAlternative i.alternative = true := by
  obtain ⟨r, a, ht, _⟩ := h
  unfold Grammar.hasAlternative
  rw [ht]
  rfl

/-- A dot is moved, or there is no number for its next place. -/
theorem Item.advance_cases (i : Item) :
    (∃ j, i.advance = .ok j) ∨ i.advance = .error .additionOverflow ∧ i.dot.toNat + 1 = wordLimit := by
  have hlt := i.dot.toNat_lt
  unfold Item.advance sum16
  by_cases hdot : i.dot.toNat + (1 : UInt16).toNat < wordLimit
  · left
    rw [if_pos hdot]
    exact ⟨_, rfl⟩
  · right
    rw [if_neg hdot]
    exact ⟨rfl, Nat.le_antisymm hlt (Nat.le_of_not_lt hdot)⟩

namespace Prediction

variable {p : Prediction} {set closed fresh kernel : ItemSet} {i j : Item} {lhs s : Symbol} {f : Fault}

/-! ## Prediction and closure -/

/-- Predicted items are items of the grammar. -/
theorem within_of_mem_itemsOneByOne (hg : (p.grammar.rules.map Rule.lhs).Nodup)
    (h : Except.ok j ∈ p.itemsOneByOne lhs) : j.Within p.grammar := by
  obtain ⟨r, a, ht, _, hdot⟩ := (mem_itemsOneByOne hg).mp h
  exact ⟨r, a, ht, Nat.le_trans hdot (reach_le p _)⟩

theorem within_of_predicted {items : ItemSet} (hg : (p.grammar.rules.map Rule.lhs).Nodup)
    (h : p.predicted i = .ok items) (hj : j ∈ items) : j.Within p.grammar := by
  obtain ⟨_, _, _, _, _, _, hitems⟩ := exists_of_mem_predicted h hj
  exact within_of_mem_itemsOneByOne hg ((mem_of_mapM_id hitems).mp hj)

/-- Rounds keep to the items of the grammar, however they end. -/
theorem within_of_closing (hg : (p.grammar.rules.map Rule.lhs).Nodup) {fuel : Nat} {fault : Option Fault}
    (h : p.closing fuel set set = (closed, fault)) (hset : ∀ i ∈ set, i.Within p.grammar) :
    ∀ i ∈ closed, i.Within p.grammar :=
  (closing_induction h (fun _ hi => hi) hset fun _ _ _ hitems _ hj => within_of_predicted hg hitems hj).2

/-- Rounds are stopped for want of numbers only. -/
theorem stops_of_closing (hg : (p.grammar.rules.map Rule.lhs).Nodup) (hclosed : p.grammar.Closed) {fuel : Nat}
    (h : p.closing fuel set set = (closed, some f)) (hset : ∀ i ∈ set, i.Within p.grammar) : p.Stops f := by
  obtain ⟨i, hi, herror⟩ := exists_of_closing h fun _ hi => hi
  exact stops_of_predicted hclosed (within_of_closing hg h hset i hi).hasAlternative herror

/-! ## Transitions -/

/-- The second item is the first one with its dot moved over the symbol, which comes next in an alternative that is not
empty. -/
def Advances (p : Prediction) (s : Symbol) (i j : Item) : Prop :=
  ∃ r a, p.grammar.target? i.alternative = some (r, a) ∧ a.isEpsilon = false ∧ i.nextIn a = some s ∧
    j.alternative = i.alternative ∧ j.dot.toNat = i.dot.toNat + 1

/-- The symbol comes next at the last place of a dot that there is a number for. -/
def AtLimit (p : Prediction) (s : Symbol) (i : Item) : Prop :=
  ∃ r a, p.grammar.target? i.alternative = some (r, a) ∧ a.isEpsilon = false ∧ i.nextIn a = some s ∧
    i.dot.toNat + 1 = wordLimit

theorem advanceOver_eq_ok_iff_advances : p.advanceOver s i = .ok (some j) ↔ p.Advances s i j := by
  rw [advanceOver_eq_ok]
  simp only [Advances, Item.advance_eq_ok]

/-- An advanced item is one of the grammar: there is a symbol in front of its dot. -/
theorem Advances.within (h : p.Advances s i j) : j.Within p.grammar := by
  obtain ⟨r, a, ht, _, hn, halternative, hdot⟩ := h
  obtain ⟨hlt, _⟩ := List.getElem?_eq_some_iff.mp hn
  refine ⟨r, a, by rw [halternative]; exact ht, ?_⟩
  rw [hdot]
  exact hlt

theorem AtLimit.not_advances (h : p.AtLimit s i) : ¬p.Advances s i j := by
  obtain ⟨_, _, _, _, _, hlimit⟩ := h
  rintro ⟨_, _, _, _, _, _, hdot⟩
  have hlt := j.dot.toNat_lt
  unfold wordLimit at hlimit
  omega

/-- An item of the grammar is passed over, or advanced, or has its dot at the last place. -/
theorem advanceOver_cases (hi : i.Within p.grammar) (s : Symbol) :
    p.advanceOver s i = .ok none ∧ ¬p.AtLimit s i ∨ (∃ j, p.advanceOver s i = .ok (some j)) ∨
      p.advanceOver s i = .error .additionOverflow ∧ p.AtLimit s i := by
  obtain ⟨r, a, ht, _⟩ := hi
  have hrun : p.advanceOver s i =
      if !a.isEpsilon && i.nextIn a == some s then i.advance.map some else .ok none := by
    unfold advanceOver
    rw [Grammar.target_eq_ok.mpr ht]
    simp only [bind, Except.bind]
    split
    · cases i.advance <;> rfl
    · rfl
  rw [hrun]
  by_cases hc : (!a.isEpsilon && i.nextIn a == some s) = true
  · rw [if_pos hc]
    simp only [Bool.and_eq_true, Bool.not_eq_true', beq_iff_eq] at hc
    right
    rcases i.advance_cases with ⟨j, hadvance⟩ | ⟨hoverflow, hlast⟩
    · exact .inl ⟨j, by rw [hadvance]; rfl⟩
    · exact .inr ⟨by rw [hoverflow]; rfl, r, a, ht, hc.1, hc.2, hlast⟩
  · rw [if_neg hc]
    left
    refine ⟨rfl, fun hlimit => ?_⟩
    obtain ⟨_, b, ht', hempty, hn, _⟩ := hlimit
    rw [ht] at ht'
    cases ht'
    exact hc (by simp [hempty, hn])

/-- **What is advanced over a symbol**: exactly the items that it comes next in, unless one of them has its dot at the last
place. -/
theorem kernel_cases (hset : ∀ i ∈ set, i.Within p.grammar) (s : Symbol) :
    (∃ kernel, p.kernel set s = .ok kernel ∧ kernel.Ascending ∧ (∀ j, j ∈ kernel ↔ ∃ i ∈ set, p.Advances s i j) ∧
        ∀ i ∈ set, ¬p.AtLimit s i) ∨
      p.kernel set s = .error .additionOverflow ∧ ∃ i ∈ set, p.AtLimit s i := by
  cases hrun : set.mapM (p.advanceOver s) with
  | error f =>
    right
    obtain ⟨i, hi, herror⟩ := exists_of_mapM_error hrun
    rcases advanceOver_cases (hset i hi) s with ⟨hok, _⟩ | ⟨j, hok⟩ | ⟨hoverflow, hlimit⟩
    · rw [herror] at hok
      cases hok
    · rw [herror] at hok
      cases hok
    · rw [herror] at hoverflow
      cases hoverflow
      refine ⟨?_, i, hi, hlimit⟩
      unfold kernel
      rw [hrun]
      rfl
  | ok results =>
    left
    have hkernel : p.kernel set s = .ok (ItemSet.ofList (results.filterMap id)) := by
      unfold kernel
      rw [hrun]
      rfl
    refine ⟨_, hkernel, ItemSet.ascending_ofList _, fun j => ?_, fun i hi hlimit => ?_⟩
    · simp only [mem_kernel hkernel, advanceOver_eq_ok_iff_advances]
    · obtain ⟨result, _, hresult⟩ := exists_mem_of_mapM hrun hi
      rcases advanceOver_cases (hset i hi) s with ⟨_, hno⟩ | ⟨j, hok⟩ | ⟨hoverflow, _⟩
      · exact hno hlimit
      · exact hlimit.not_advances (advanceOver_eq_ok_iff_advances.mp hok)
      · rw [hresult] at hoverflow
        cases hoverflow

/-- **Dots stay within their alternatives**, and are never counted past the numbers that there are for them. -/
structure KeepsDots (p : Prediction) : Prop where
  /-- Prediction adds items of the grammar, up to what stops it. If nothing does, these are all items of the nonterminal
  with the dot at the beginning or behind symbols that vanish. -/
  addItemsFor : ∀ (set : ItemSet) (lhs : Symbol), (∀ i ∈ set, i.Within p.grammar) →
    (∀ j ∈ (p.addItemsFor set lhs).1, j.Within p.grammar) ∧
    ((p.addItemsFor set lhs).2 = none → ∀ j, j ∈ (p.addItemsFor set lhs).1 ↔ j ∈ set ∨
      ∃ r a, p.grammar.target? j.alternative = some (r, a) ∧ r.lhs = lhs ∧ j.dot.toNat ≤ p.reach a.symbols) ∧
    ∀ f, (p.addItemsFor set lhs).2 = some f → f = .undefinedRule lhs ∧ lhs ∉ p.grammar.lhsSymbols ∨ p.Stops f
  /-- Closure adds items of the grammar, up to what stops it. -/
  closure : ∀ set : ItemSet, (∀ i ∈ set, i.Within p.grammar) →
    (∀ j ∈ (p.closureSoFar set).1, j.Within p.grammar) ∧ ∀ f, (p.closureSoFar set).2 = some f → p.Stops f
  /-- A transition closes exactly the items whose dots are moved over the symbol. It is stopped before that if the dot of one
  of them is at the last place that there is a number for. -/
  transition : ∀ (set : ItemSet) (s : Symbol), (∀ i ∈ set, i.Within p.grammar) →
    (∃ kernel : ItemSet, kernel.Ascending ∧ (∀ j, j ∈ kernel ↔ ∃ i ∈ set, p.Advances s i j) ∧
      (∀ i ∈ set, ¬p.AtLimit s i) ∧ p.transition set s = p.closure kernel) ∨
    (∃ i ∈ set, p.AtLimit s i) ∧ p.transition set s = .error .additionOverflow
  /-- Transitions lead to items of the grammar. -/
  target : ∀ (set : ItemSet) (s : Symbol) (target : ItemSet), (∀ i ∈ set, i.Within p.grammar) →
    p.transition set s = .ok target → ∀ j ∈ target, j.Within p.grammar

/-- **Items of a defined grammar keep their dots within their alternatives**, however long these are and whether symbols
that vanish are passed over or not. -/
theorem keepsDots_of_define {steps : List DefinitionStep} (hg : (Grammar.define steps).result = .ok p.grammar) :
    p.KeepsDots := by
  have hnodup := (wellFormed_of_define hg).nodup_lhs
  have hclosed := closed_of_define hg
  have hclosure : ∀ (set : ItemSet), (∀ i ∈ set, i.Within p.grammar) →
      ∀ closed, p.closure set = .ok closed → ∀ j ∈ closed, j.Within p.grammar :=
    fun set hset closed h => within_of_closing hnodup (closure_eq_ok.mp h) hset
  constructor
  · intro set lhs hset
    unfold Prediction.addItemsFor
    refine ⟨fun j hj => ?_, fun hnone j => ?_, fun f hf => ?_⟩
    · rcases ItemSet.mem_insertAll.mp hj with hj | hj
      · exact hset j hj
      · exact within_of_mem_itemsOneByOne hnodup (Fault.mem_of_mem_collect hj)
    · rw [ItemSet.mem_insertAll, Fault.mem_collect hnone, mem_itemsOneByOne hnodup]
    · refine (error_mem_itemsOneByOne (Fault.error_mem_of_collect hf)).imp_right ?_
      rintro ⟨_, _, _, _, _, hr, ha, hdot, herror⟩
      exact .of_itemAt hr ha hdot herror
  · exact fun set hset => ⟨within_of_closing hnodup rfl hset,
      fun f hf => stops_of_closing hnodup hclosed (Prod.ext rfl hf) hset⟩
  · intro set s hset
    unfold Prediction.transition
    rcases kernel_cases hset s with ⟨kernel, hkernel, hascending, hmem, hno⟩ | ⟨herror, hlimit⟩
    · exact .inl ⟨kernel, hascending, hmem, hno, by rw [hkernel]; rfl⟩
    · exact .inr ⟨hlimit, by rw [herror]; rfl⟩
  · intro set s target hset htransition
    obtain ⟨kernel, hkernel, htarget⟩ := transition_eq_ok.mp htransition
    refine hclosure kernel (fun j hj => ?_) target htarget
    obtain ⟨i, _, hadvance⟩ := (mem_kernel hkernel).mp hj
    exact (advanceOver_eq_ok_iff_advances.mp hadvance).within

/-! ## The last place -/

/-- A letter as often as there are numbers behind zero. -/
def longBody : List Symbol := List.replicate 65535 (.terminal "a")

/-- The grammar that repeats its start symbol in front of these letters. -/
def longRules : Grammar := ⟨[recursiveRule (.nonterminal "S") [longBody]]⟩

theorem define_longRules :
    (Grammar.define (recursiveSteps (.nonterminal "S") [longBody])).result = .ok longRules := by
  refine define_recursiveSteps rfl (List.cons_ne_nil _ _) (List.nodup_singleton _) fun body hbody s hs => ?_
  rw [List.mem_singleton.mp hbody] at hs
  rw [List.eq_of_mem_replicate hs]
  exact ⟨rfl, by decide⟩

theorem target_longRules : longRules.target? ⟨0, 0⟩ =
    some (recursiveRule (.nonterminal "S") [longBody], ⟨.nonterminal "S" :: longBody, none⟩) := rfl

/-- All symbols but the first are letters. -/
theorem nextIn_longBody {i : Item} (h : 0 < i.dot.toNat) :
    i.nextIn ⟨.nonterminal "S" :: longBody, none⟩ = some (.terminal "a") := by
  obtain ⟨n, hn⟩ := Nat.exists_eq_succ_of_ne_zero (Nat.ne_of_gt h)
  have hlt := i.dot.toNat_lt
  unfold Item.nextIn longBody
  rw [hn, List.getElem?_cons_succ, List.getElem?_replicate, if_pos (by omega)]

theorem within_longRules (dot : UInt16) : (⟨⟨0, 0⟩, dot⟩ : Item).Within longRules := by
  have hlen : longBody.length = 65535 := List.length_replicate
  have hlt := dot.toNat_lt
  refine ⟨_, _, target_longRules, ?_⟩
  rw [List.length_cons, hlen]
  exact Nat.le_of_lt hlt

/-- **The last dot that can be moved**: there is a number for the place behind it. -/
theorem keepsDots_of_define_long :
    (Grammar.define (recursiveSteps (.nonterminal "S") [longBody])).result = .ok longRules ∧
    (⟨longRules, none⟩ : Prediction).KeepsDots ∧
    (⟨longRules, none⟩ : Prediction).transition [⟨⟨0, 0⟩, 65534⟩] (.terminal "a") = .ok [⟨⟨0, 0⟩, 65535⟩] := by
  have hkeeps : (⟨longRules, none⟩ : Prediction).KeepsDots := keepsDots_of_define define_longRules
  refine ⟨define_longRules, hkeeps, ?_⟩
  have hnext := nextIn_longBody (i := ⟨⟨0, 0⟩, 65534⟩) (by decide)
  have hadvances : (⟨longRules, none⟩ : Prediction).Advances (.terminal "a") ⟨⟨0, 0⟩, 65534⟩ ⟨⟨0, 0⟩, 65535⟩ :=
    ⟨_, _, target_longRules, rfl, hnext, rfl, rfl⟩
  rcases hkeeps.transition [⟨⟨0, 0⟩, 65534⟩] (.terminal "a") (List.forall_mem_singleton.mpr (within_longRules _)) with
    ⟨kernel, hascending, hmem, _, htransition⟩ | ⟨⟨i, hi, hlimit⟩, _⟩
  · have hkernel : kernel = [⟨⟨0, 0⟩, 65535⟩] := by
      refine hascending.eq_of_mem_iff (List.pairwise_singleton _ _) fun j => ?_
      rw [hmem, List.mem_singleton]
      constructor
      · rintro ⟨i, hi, _, _, _, _, _, halternative, hdot⟩
        rw [List.mem_singleton.mp hi] at halternative hdot
        exact Item.eq_of_parts halternative hdot
      · rintro rfl
        exact ⟨_, List.mem_singleton_self _, hadvances⟩
    rw [htransition, hkernel]
    refine closure_of_closed fun j hj => ⟨[], ?_, nofun⟩
    rw [List.mem_singleton.mp hj]
    exact predicted_of_next_terminal target_longRules (nextIn_longBody (by decide)) rfl
  · rw [List.mem_singleton.mp hi] at hlimit
    exact absurd hadvances hlimit.not_advances

/-- **The dot behind it cannot be moved, although the alternative goes on**: the sum overflows, and what is told is not that
the alternative is too long. -/
theorem not_guarded_long :
    (Grammar.define (recursiveSteps (.nonterminal "S") [longBody])).result = .ok longRules ∧
    (⟨⟨0, 0⟩, 65535⟩ : Item).Within longRules ∧
    (⟨longRules, none⟩ : Prediction).transition [⟨⟨0, 0⟩, 65535⟩] (.terminal "a") = .error .additionOverflow ∧
    Fault.additionOverflow.message = "attempt to add with overflow" ∧
    Fault.tooLongAlternative.message = "too long alternative" := by
  refine ⟨define_longRules, within_longRules _, ?_, rfl, rfl⟩
  have hwithin : ∀ i ∈ [(⟨⟨0, 0⟩, 65535⟩ : Item)], i.Within longRules :=
    List.forall_mem_singleton.mpr (within_longRules _)
  have hlimit : (⟨longRules, none⟩ : Prediction).AtLimit (.terminal "a") ⟨⟨0, 0⟩, 65535⟩ :=
    ⟨_, _, target_longRules, rfl, nextIn_longBody (by decide), rfl⟩
  unfold transition
  rcases kernel_cases (p := ⟨longRules, none⟩) hwithin (.terminal "a") with ⟨_, _, _, _, hno⟩ | ⟨herror, _⟩
  · exact absurd hlimit (hno _ (List.mem_singleton_self _))
  · rw [herror]
    rfl

end Prediction
end TableParser.LR
