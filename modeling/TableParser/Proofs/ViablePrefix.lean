import TableParser.Proofs.Discovery
import TableParser.Proofs.SlrTable
import TableParser.Samples

/-!
# The automaton is the subset construction

An item `[A → α . β]` is valid for a string of symbols that leads from the start symbol down to `A` and on over `α`
(`Item.ValidFor`). The automaton of a grammar follows a string exactly as far as there are valid items for it, and the
state behind the string holds just these (`Automaton.IsSubsetConstruction`, `Automaton.subset_construction`).

* **Soundness** (`Automaton.validFor_of_has`): by induction on the string from its end, where predictions lead down
  and edges lead on.
* **Completeness** (`Automaton.exists_has_of_validFor`): by induction on the way down from the start symbol, and along
  each alternative on it.
-/

namespace TableParser
namespace LR

/-- The ways down from the start symbol: the symbols passed in the alternatives on the way, and the nonterminal at the
end of it. -/
inductive Leads (P : Productions) (start : Symbol) : List Symbol → Symbol → Prop
  | start : Leads P start [] start
  | down {γ α β : List Symbol} {lhs s : Symbol} {a : Alternative} (h : Leads P start γ lhs) (hp : P lhs a)
      (ha : a.symbols = α ++ s :: β) (hs : s.isNonterminal = true) : Leads P start (γ ++ α) s

/-- The item `[A → α . β]` is valid for every way down to `A` with `α` behind it. An empty alternative has its dot in
front. -/
def Item.ValidFor (g : Grammar) (start : Symbol) (γ : List Symbol) (i : Item) : Prop :=
  ∃ δ r a, Leads g.Produces start δ r.lhs ∧ g.target? i.alternative = some (r, a) ∧
    i.dot.toNat ≤ a.symbols.length ∧ (a.isEpsilon = true → i.dot.toNat = 0) ∧ γ = δ ++ a.symbols.take i.dot.toNat

theorem split_at_next {i : Item} {a : Alternative} {s : Symbol} (h : i.nextIn a = some s) :
    a.symbols = a.symbols.take i.dot.toNat ++ s :: a.symbols.drop (i.dot.toNat + 1) := by
  obtain ⟨hlt, hget⟩ := List.getElem?_eq_some_iff.mp h
  rw [← hget, ← List.drop_eq_getElem_cons hlt, List.take_append_drop]

/-- A symbol of a concatenation stands in its first part or in its second one. -/
theorem split_of_append_eq {s : Symbol} {β γ x y : List Symbol} (h : β ++ s :: γ = x ++ y) :
    (∃ mid, x = β ++ s :: mid ∧ γ = mid ++ y) ∨ ∃ mid, β = x ++ mid ∧ y = mid ++ s :: γ := by
  rcases List.append_eq_append_iff.mp h with ⟨mid, hx, hmid⟩ | ⟨mid, hβ, hy⟩
  · cases mid with
    | nil => exact .inr ⟨[], by simpa using hx.symm, hmid.symm⟩
    | cons u mid =>
      obtain ⟨rfl, hγ⟩ := List.cons.inj hmid
      exact .inl ⟨mid, hx, hγ⟩
  · exact .inr ⟨mid, hβ, hy⟩

namespace Automaton

variable {g : Grammar} {start : Symbol} {sets : List ItemSet} {a : Automaton} {q : StateId} {i j : Item}
  {γ : List Symbol} {lhs s : Symbol} {rule : Rule} {b : Alternative}

/-! ## Items in states are valid -/

/-- What a valid item predicts is valid. -/
theorem validFor_of_predicts (h : i.ValidFor g start γ) (hij : Predicts ⟨g, none⟩ i j) : j.ValidFor g start γ := by
  obtain ⟨δ, r, b, hlead, ht, _, _, rfl⟩ := h
  obtain ⟨hdot, r', b', rule', c, ht', hn, hs, hj⟩ := hij
  have hsame : (r', b') = (r, b) := Option.some.inj (ht'.symm.trans ht)
  cases hsame
  refine ⟨_, rule', c, hlead.down (Grammar.produces_of_target? ht).2 (split_at_next hn) hs, hj, ?_, fun _ => hdot, ?_⟩
  · rw [hdot]
    exact Nat.zero_le _
  · rw [hdot, List.take_zero, List.append_nil]

/-- A valid item is valid behind the next symbol with its dot moved over it. -/
theorem validFor_of_advance (h : i.ValidFor g start γ) (ht : g.target? i.alternative = some (rule, b))
    (he : b.isEpsilon = false) (hn : i.nextIn b = some s) (hadv : i.advance = .ok j) : j.ValidFor g start (γ ++ [s]) := by
  obtain ⟨δ, r, b', hlead, ht', _, _, rfl⟩ := h
  have hsame : (r, b') = (rule, b) := Option.some.inj (ht'.symm.trans ht)
  cases hsame
  obtain ⟨halt, hdot⟩ := Item.advance_eq_ok.mp hadv
  obtain ⟨hlt, _⟩ := List.getElem?_eq_some_iff.mp hn
  have hnext : b.symbols[i.dot.toNat]? = some s := hn
  refine ⟨δ, rule, b, hlead, halt ▸ ht, ?_, fun hb => ?_, ?_⟩
  · rw [hdot]
    exact hlt
  · rw [he] at hb
    cases hb
  · rw [hdot, List.take_add_one, hnext, List.append_assoc]
    rfl

/-- **The items behind a string are valid for it.** -/
theorem validFor_of_has (hx : Exact ⟨g, none⟩ sets a) (hstart : g.start = .ok start) (hw : walk a.edges γ = some q)
    (hi : Has sets q i) : i.ValidFor g start γ := by
  induction γ using List.reverseRecOn generalizing q i with
  | nil =>
    cases hw
    refine Has.start_induction (motive := fun j => j.ValidFor g start []) hx rfl ?_ ?_ hi
    · intro j rule b hdot ht hrule
      have hlhs : start = rule.lhs := Except.ok.inj (hstart.symm.trans hrule)
      refine ⟨[], rule, b, hlhs ▸ .start, ht, ?_, fun _ => hdot, ?_⟩
      · rw [hdot]
        exact Nat.zero_le _
      · rw [hdot]
        rfl
    · exact fun _ _ => validFor_of_predicts
  | append_singleton γ s ih =>
    obtain ⟨q', hq', hedge⟩ := walk_snoc.mp hw
    refine Has.edge_induction (motive := fun j => j.ValidFor g start (γ ++ [s])) hx rfl hedge ?_ ?_ hi
    · intro i rule b j hi ht he hn hadv
      exact validFor_of_advance (ih hq' hi) ht he hn hadv
    · exact fun _ _ => validFor_of_predicts

/-! ## Valid items are in states -/

/-- What an item in a state predicts is in the state. -/
theorem Has.exists_predicted {p : Prediction} (h : Has sets q i) (hx : Exact p sets a) :
    ∃ items, p.predicted i = .ok items ∧ ∀ j ∈ items, Has sets q j := by
  obtain ⟨set, hset, hi⟩ := h
  obtain ⟨items, hitems, hall⟩ := hx.sound.closed set (List.mem_of_getElem? hset) i hi
  exact ⟨items, hitems, fun j hj => ⟨set, hset, hall j hj⟩⟩

/-- Along an alternative that is predicted in a state, the edges lead to states with its dot further on. -/
theorem exists_has_of_recognized (hx : Exact ⟨g, none⟩ sets a) (hw : walk a.edges γ = some q) (hi : Has sets q i)
    (ht : g.target? i.alternative = some (rule, b)) (hdot : i.dot.toNat = 0) (he : b.isEpsilon = false) {n : Nat}
    (hn : n ≤ b.symbols.length) : ∃ r j, walk a.edges (γ ++ b.symbols.take n) = some r ∧ Has sets r j ∧
      j.alternative = i.alternative ∧ j.dot.toNat = n := by
  induction n with
  | zero => exact ⟨q, i, by rw [List.take_zero, List.append_nil, hw], hi, rfl, hdot⟩
  | succ n ih =>
    obtain ⟨r, j, hr, hj, halt, hjn⟩ := ih (Nat.le_of_succ_le hn)
    have hnext : b.symbols[n]? = some b.symbols[n] := List.getElem?_eq_getElem hn
    have hnextIn : j.nextIn b = some b.symbols[n] := by
      unfold Item.nextIn
      rw [hjn, hnext]
    obtain ⟨r', k, hedge, hk, hadv⟩ := hj.advance hx (halt ▸ ht) he hnextIn
    obtain ⟨hkalt, hkn⟩ := Item.advance_eq_ok.mp hadv
    refine ⟨r', k, ?_, hk, hkalt.trans halt, by rw [hkn, hjn]⟩
    rw [List.take_add_one, hnext, ← List.append_assoc]
    exact walk_snoc.mpr ⟨r, hr, hedge⟩

/-- In a state with all items of a nonterminal, each of its alternatives leads on to where any of its symbols is next. -/
theorem exists_has_before {items : List Item} {α β : List Symbol} (hx : Exact ⟨g, none⟩ sets a)
    (hw : walk a.edges γ = some q) (hitems : (⟨g, none⟩ : Prediction).itemsFor lhs = .ok items)
    (hall : ∀ j ∈ items, Has sets q j) (hp : g.Produces lhs b) (he : b.isEpsilon = false)
    (hb : b.symbols = α ++ s :: β) : ∃ r j rule, walk a.edges (γ ++ α) = some r ∧ Has sets r j ∧
      g.target? j.alternative = some (rule, b) ∧ j.nextIn b = some s := by
  obtain ⟨i, hi, rule, ht, _, hdot⟩ := Prediction.exists_mem_itemsFor hx.nodup_lhs hitems hp
  have hle : α.length ≤ b.symbols.length := by
    rw [hb, List.length_append]
    exact Nat.le_add_right _ _
  have htake : b.symbols.take α.length = α := by rw [hb, List.take_left]
  obtain ⟨r, j, hr, hj, halt, hjn⟩ := exists_has_of_recognized hx hw (hall i hi) ht hdot he hle
  have hnext : j.nextIn b = some s := by
    unfold Item.nextIn
    rw [hjn, hb, List.getElem?_append_right (Nat.le_refl _), Nat.sub_self]
    rfl
  exact ⟨r, j, rule, htake ▸ hr, hj, halt ▸ ht, hnext⟩

/-- **A way down can be followed**, to a state with all items of the nonterminal at its end. -/
theorem exists_state_of_leads (hx : Exact ⟨g, none⟩ sets a) (hstart : g.start = .ok start)
    (halone : EpsilonAlone g.Produces) (h : Leads g.Produces start γ lhs) : ∃ q items,
      walk a.edges γ = some q ∧ (⟨g, none⟩ : Prediction).itemsFor lhs = .ok items ∧ ∀ j ∈ items, Has sets q j := by
  induction h with
  | start =>
    obtain ⟨set, hset, hzero⟩ := hx.start
    obtain ⟨lhs, items, hlhs, hitems, hclosure⟩ := startSet_eq_ok.mp hset
    have heq : start = lhs := Except.ok.inj (hstart.symm.trans hlhs)
    subst heq
    refine ⟨.start, items, rfl, hitems, fun j hj => ⟨set, hzero, ?_⟩⟩
    exact Prediction.subset_closure hclosure j (ItemSet.mem_ofList.mpr hj)
  | @down γ α β lhs s b hlead hp hb hs ih =>
    obtain ⟨q, items, hq, hitems, hall⟩ := ih
    have he := halone.isEpsilon_eq_false hp (hb ▸ List.mem_append_right _ List.mem_cons_self) hs
    obtain ⟨r, j, rule, hr, hj, ht, hnext⟩ := exists_has_before hx hq hitems hall hp he hb
    obtain ⟨found, hfound, hhas⟩ := hj.exists_predicted hx
    rw [Prediction.predicted_of_next ht hnext hs] at hfound
    exact ⟨r, found, hr, hfound, hhas⟩

/-- **A string with a valid item can be followed**, to a state with the item. -/
theorem exists_has_of_validFor (hx : Exact ⟨g, none⟩ sets a) (hstart : g.start = .ok start)
    (halone : EpsilonAlone g.Produces) (h : i.ValidFor g start γ) : ∃ q, walk a.edges γ = some q ∧ Has sets q i := by
  obtain ⟨δ, rule, b, hlead, ht, hle, hempty, rfl⟩ := h
  obtain ⟨q, items, hq, hitems, hall⟩ := exists_state_of_leads hx hstart halone hlead
  have hfront : Has sets q ⟨i.alternative, 0⟩ :=
    hall _ ((Prediction.mem_itemsFor hx.nodup_lhs hitems).mpr ⟨rule, b, ht, rfl, Nat.zero_le _⟩)
  cases he : b.isEpsilon with
  | true =>
    have hdot := hempty he
    have hi : i = ⟨i.alternative, 0⟩ := Item.eq_of_parts rfl hdot
    rw [hdot, List.take_zero, List.append_nil]
    exact ⟨q, hq, hi ▸ hfront⟩
  | false =>
    obtain ⟨r, j, hr, hj, halt, hjn⟩ := exists_has_of_recognized hx hq hfront ht rfl he hle
    have hij : j = i := Item.eq_of_parts halt hjn
    exact ⟨r, hr, hij ▸ hj⟩

/-! ## The construction -/

/-- What makes an automaton the subset construction for a grammar. -/
structure IsSubsetConstruction (g : Grammar) (start : Symbol) (a : Automaton) : Prop where
  /-- A string can be followed exactly if an item is valid for it. -/
  walk_isSome_iff : ∀ γ, (walk a.edges γ).isSome = true ↔ ∃ i : Item, i.ValidFor g start γ
  /-- The state behind a string holds exactly the items that are valid for it. -/
  mem_iff_validFor : ∀ γ q, walk a.edges γ = some q → ∃ s ∈ a.states, s.id = q ∧
    ∃ set, (⟨g, none⟩ : Prediction).closure s.core = .ok set ∧ ∀ i, i ∈ set ↔ i.ValidFor g start γ
  /-- Different states hold different items. -/
  distinct : ∀ s ∈ a.states, ∀ s' ∈ a.states, ∀ set set', (⟨g, none⟩ : Prediction).closure s.core = .ok set →
    (⟨g, none⟩ : Prediction).closure s'.core = .ok set' → (∀ i, i ∈ set ↔ i ∈ set') → s = s'
  /-- Every state is behind some string. -/
  reachable : ∀ s ∈ a.states, ∃ γ, walk a.edges γ = some s.id
  /-- The states are numbered from zero on, in their order. -/
  numbered : a.states.map (fun s => s.id.number.toNat) = List.range a.states.length

/-- States with the same number are the same. -/
theorem Explored.state_inj {p : Prediction} {first : ItemSet} {e : Exploration} (hg : (p.grammar.rules.map Rule.lhs).Nodup)
    (h : Explored p first e a) {s s' : State} (hs : s ∈ a.states) (hs' : s' ∈ a.states) (hid : s.id = s'.id) : s = s' := by
  have hnodup : (a.states.map fun s => s.id.number.toNat).Nodup := by
    rw [h.numbers hg]
    exact List.nodup_range
  exact List.inj_on_of_nodup_map hnodup hs hs' (congrArg (fun id => id.number.toNat) hid)

/-- A built automaton is the subset construction if the empty derivation stands alone. -/
theorem isSubsetConstruction_of_build (hg : (g.rules.map Rule.lhs).Nodup) (halone : EpsilonAlone g.Produces)
    (hstart : g.start = .ok start) (h : (build ⟨g, none⟩).result = .ok a) : IsSubsetConstruction g start a := by
  obtain ⟨first, e, he⟩ := exists_explored h
  have hx : Exact ⟨g, none⟩ e.sets a := he.exact hg
  have hd := he.discovered hg
  have hedges := he.edges_eq
  -- the state behind a string, with its set, which is not empty
  have hstate : ∀ γ q, walk a.edges γ = some q → ∃ s ∈ a.states, s.id = q ∧ ∃ set,
      e.sets[q.number.toNat]? = some set ∧ (⟨g, none⟩ : Prediction).closure s.core = .ok set := by
    intro γ q hw
    obtain ⟨set, hset⟩ := hx.exists_set_of_walk hw
    obtain ⟨s, hs, hid, hcore⟩ := hx.exists_state_of_set hset
    exact ⟨s, hs, hid, set, hset, hcore⟩
  refine ⟨fun γ => ?_, fun γ q hw => ?_, ?_, ?_, he.numbers hg⟩
  · rw [Option.isSome_iff_exists]
    constructor
    · rintro ⟨q, hw⟩
      obtain ⟨s, hs, _, set, hset, hcore⟩ := hstate γ q hw
      obtain ⟨i, hi⟩ := List.exists_mem_of_ne_nil _ (he.core_ne_nil s hs)
      exact ⟨i, validFor_of_has hx hstart hw ⟨set, hset, Prediction.subset_closure hcore i hi⟩⟩
    · rintro ⟨i, hi⟩
      obtain ⟨q, hw, _⟩ := exists_has_of_validFor hx hstart halone hi
      exact ⟨q, hw⟩
  · obtain ⟨s, hs, hid, set, hset, hcore⟩ := hstate γ q hw
    refine ⟨s, hs, hid, set, hcore, fun i => ⟨fun hi => validFor_of_has hx hstart hw ⟨set, hset, hi⟩, fun hi => ?_⟩⟩
    obtain ⟨q', hw', set', hset', hmem⟩ := exists_has_of_validFor hx hstart halone hi
    rw [hw] at hw'
    cases hw'
    rw [hset] at hset'
    cases hset'
    exact hmem
  · intro s hs s' hs' set set' hcore hcore' hmem
    obtain ⟨u, hu, hcu⟩ := hx.closure_core s hs
    obtain ⟨u', hu', hcu'⟩ := hx.closure_core s' hs'
    have hset : u = set := Except.ok.inj (hcu.symm.trans hcore)
    have hset' : u' = set' := Except.ok.inj (hcu'.symm.trans hcore')
    subst hset hset'
    have heq : u = u' := (hd.ascending u (List.mem_of_getElem? hu)).eq_of_mem_iff
      (hd.ascending u' (List.mem_of_getElem? hu')) hmem
    subst heq
    obtain ⟨hlt, _⟩ := List.getElem?_eq_some_iff.mp hu
    exact he.state_inj hg hs hs' (StateId.toNat_inj ((List.getElem?_inj hlt hd.nodup).mp (hu.trans hu'.symm)))
  · intro s hs
    obtain ⟨set, hset, _⟩ := hx.closure_core s hs
    obtain ⟨hlt, _⟩ := List.getElem?_eq_some_iff.mp hset
    rw [hedges]
    exact hd.reached s.id hlt

/-- **The automaton of a defined grammar is the subset construction**, and so is that of the augmented grammar. -/
theorem subset_construction {steps : List DefinitionStep} {base : Grammar} (hbase : (Grammar.define steps).result = .ok base)
    (hg : g = base ∨ base.augment.result = .ok g) (h : (build ⟨g, none⟩).result = .ok a) :
    ∃ start, g.start = .ok start ∧ IsSubsetConstruction g start a := by
  have hwell := wellFormed_of_define hbase
  rcases hg with rfl | hg
  · obtain ⟨r, _, hstart⟩ := hwell.exists_start
    exact ⟨r.lhs, hstart, isSubsetConstruction_of_build hwell.nodup_lhs hwell.epsilonAlone hstart h⟩
  · obtain ⟨_, accept, haug⟩ := Grammar.Augmented.of_augment hwell hg
    exact ⟨accept, haug.start_eq_accept,
      isSubsetConstruction_of_build haug.nodup_lhs haug.epsilonAlone haug.start_eq_accept h⟩

set_option maxRecDepth 10000 in
/-- The automaton of lists of a letter, which may be empty, has five states; two letters and a list lead to the last. -/
theorem subset_construction_list : ∃ base g a, (Grammar.define Sample.emptyableList.steps).result = .ok base ∧
    base.augment.result = .ok g ∧ (build ⟨g, none⟩).result = .ok a ∧ a.states.length = 5 ∧
    walk a.edges [.terminal "a", .terminal "a", .nonterminal "A"] = some ⟨4⟩ ∧
    ∃ start, g.start = .ok start ∧ IsSubsetConstruction g start a := by
  have heval : ((Grammar.define Sample.emptyableList.steps).result.toOption.any fun base =>
      base.augment.result.toOption.any fun g => (build ⟨g, none⟩).result.toOption.any fun a =>
        decide (a.states.length = 5 ∧ walk a.edges [.terminal "a", .terminal "a", .nonterminal "A"] = some ⟨4⟩)) =
      true := by rfl
  obtain ⟨base, hbase, hrest⟩ := exists_ok_of_any heval
  obtain ⟨g, hg, hrest⟩ := exists_ok_of_any hrest
  obtain ⟨a, ha, hrest⟩ := exists_ok_of_any hrest
  obtain ⟨hlength, hwalk⟩ := of_decide_eq_true hrest
  exact ⟨base, g, a, hbase, hg, ha, hlength, hwalk, subset_construction hbase (.inr hg) ha⟩

end Automaton
end LR
end TableParser
