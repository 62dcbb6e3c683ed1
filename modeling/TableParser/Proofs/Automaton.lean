import TableParser.LR.Automaton
import TableParser.Proofs.Closure
import TableParser.Proofs.Entries

/-!
# The automaton is complete

The exploration follows every symbol from every state that it finds (`Exploration.settled_of_explore`), so the states
and edges of an automaton say everything about transitions (`Automaton.Exact`). An item stands in a state
(`Automaton.Exact.Has`) when the closed set of the state holds it.

* **Forward**: an edge leads on from every item (`Has.advance`), and predictions stay in the state (`Has.predict`).
* **Backward**: an item in a state was advanced along the edge to it, or predicted there (`Has.of_edge`).
-/

namespace TableParser

namespace Matrix

variable {κ₁ κ₂ ν : Type} [DecidableEq κ₁] [DecidableEq κ₂] {m : Matrix κ₁ κ₂ ν} {k₁ a : κ₁} {k₂ b : κ₂} {v w : ν}

/-- An insertion fills its slot or finds it filled, and leaves the others as they are. -/
theorem get?_insertNew : (m.insertNew k₁ k₂ v).get? a b =
    if (a, b) = (k₁, k₂) then some ((m.get? k₁ k₂).getD v) else m.get? a b := by
  unfold insertNew
  cases h : m.insert k₁ k₂ v with
  | error stored =>
    have hs := insert_eq_error_iff.mp h
    dsimp only
    split
    · rename_i hk
      cases hk
      rw [hs]
      rfl
    · rfl
  | ok n =>
    dsimp only
    rw [get?_of_insert h, get?_eq_none_of_insert h]
    rfl

/-- No slot is listed twice. -/
def Proper (m : Matrix κ₁ κ₂ ν) : Prop := (m.entries.map Prod.fst).Nodup

theorem Proper.insertNew (h : m.Proper) (k₁ : κ₁) (k₂ : κ₂) (v : ν) : (m.insertNew k₁ k₂ v).Proper := by
  unfold Matrix.insertNew Matrix.insert
  cases hg : m.get? k₁ k₂ with
  | some stored => exact h
  | none => exact nodup_keys_concat h hg

theorem mem_toList_of_get? (h : m.get? a b = some v) : (a, b, v) ∈ m.toList :=
  List.mem_map.mpr ⟨((a, b), v), mem_of_lookup h, rfl⟩

/-- The entries are what the slots hold. -/
theorem Proper.mem_toList_iff (h : m.Proper) : (a, b, v) ∈ m.toList ↔ m.get? a b = some v := by
  refine ⟨fun hmem => ?_, mem_toList_of_get?⟩
  obtain ⟨⟨⟨a', b'⟩, v'⟩, hentry, heq⟩ := List.mem_map.mp hmem
  cases heq
  exact (lookup_eq_some_iff_mem h).mpr hentry

theorem get?_insertNew_of_get? (h : m.get? a b = some w) : (m.insertNew k₁ k₂ v).get? a b = some w := by
  rw [get?_insertNew]
  split
  · rename_i hk
    cases hk
    rw [h]
    rfl
  · exact h

end Matrix

namespace LR

theorem StateId.ofIndex_eq_ok {n : Nat} {q : StateId} : StateId.ofIndex n = .ok q ↔ q.number.toNat = n := by
  unfold ofIndex wordLimit
  constructor
  · intro h
    split at h
    · cases h
    · cases h
      simp only [Nat.toUInt16, UInt16.toNat_ofNat']
      omega
  · rintro rfl
    have := q.number.toNat_lt
    rw [if_neg (by omega)]
    simp [Nat.toUInt16]

theorem StateId.toNat_inj {q r : StateId} (h : q.number.toNat = r.number.toNat) : q = r := by
  cases q
  cases r
  exact congrArg StateId.mk (UInt16.toNat_inj.mp h)

/-! ## Exploration -/

namespace Exploration

variable {p : Prediction} {e e' : Exploration} {q r : StateId} {set target : ItemSet} {s : Symbol}

/-- What was found stays found. -/
structure Extends (e e' : Exploration) : Prop where
  sets : e.sets <+: e'.sets
  edges : ∀ q s r, e.edges.get? q s = some r → e'.edges.get? q s = some r

theorem Extends.refl (e : Exploration) : Extends e e := ⟨List.prefix_rfl, fun _ _ _ h => h⟩

theorem Extends.trans {e'' : Exploration} (h₁ : Extends e e') (h₂ : Extends e' e'') : Extends e e'' :=
  ⟨h₁.sets.trans h₂.sets, fun q s r h => h₂.edges q s r (h₁.edges q s r h)⟩

theorem Extends.getElem?_eq {i : Nat} (h : Extends e e') (hi : i < e.sets.length) : e'.sets[i]? = e.sets[i]? := by
  obtain ⟨rest, hrest⟩ := h.sets
  rw [← hrest, List.getElem?_append_left hi]

theorem Extends.getElem? {i : Nat} (h : Extends e e') (hi : e.sets[i]? = some set) : e'.sets[i]? = some set := by
  obtain ⟨hlt, _⟩ := List.getElem?_eq_some_iff.mp hi
  rw [h.getElem?_eq hlt, hi]

/-- The sets are closed, there is a number for each, and edges are transitions between them. -/
structure Sound (p : Prediction) (e : Exploration) : Prop where
  length_le : e.sets.length ≤ wordLimit
  proper : e.edges.Proper
  closed : ∀ set ∈ e.sets, p.Closed set
  edges : ∀ q s r, e.edges.get? q s = some r → ∃ set target, e.sets[q.number.toNat]? = some set ∧
    e.sets[r.number.toNat]? = some target ∧ p.transition set s = .ok target ∧ target ≠ []

/-- The transition of a state on a symbol leads nowhere or is an edge. -/
def Settled (p : Prediction) (e : Exploration) (q : StateId) (set : ItemSet) (s : Symbol) : Prop :=
  ∃ target, p.transition set s = .ok target ∧
    (target = [] ∨ ∃ r, e.edges.get? q s = some r ∧ e.sets[r.number.toNat]? = some target)

theorem Settled.mono (h : Settled p e q set s) (he : Extends e e') : Settled p e' q set s := by
  obtain ⟨target, ht, hr⟩ := h
  refine ⟨target, ht, hr.imp_right ?_⟩
  rintro ⟨r, hr, hset⟩
  exact ⟨r, he.edges q s r hr, he.getElem? hset⟩

/-- An edge along a transition keeps the exploration sound, and settles the symbol. -/
theorem Sound.connect (h : Sound p e) (hq : e.sets[q.number.toNat]? = some set)
    (hr : e.sets[r.number.toNat]? = some target) (ht : p.transition set s = .ok target) (hne : target ≠ []) :
    Extends e (e.connect q s r) ∧ Sound p (e.connect q s r) ∧ Settled p (e.connect q s r) q set s := by
  have hext : Extends e (e.connect q s r) :=
    ⟨List.prefix_rfl, fun _ _ _ hg => Matrix.get?_insertNew_of_get? hg⟩
  refine ⟨hext, ⟨h.length_le, h.proper.insertNew q s r, h.closed, ?_⟩, target, ht, .inr ?_⟩
  · intro q' s' r' hg
    unfold Exploration.connect at hg
    rw [Matrix.get?_insertNew] at hg
    split at hg
    · rename_i hk
      cases hk
      cases hold : e.edges.get? q s with
      | none =>
        rw [hold] at hg
        cases hg
        exact ⟨set, target, hq, hr, ht, hne⟩
      | some r₀ =>
        rw [hold] at hg
        cases hg
        exact h.edges q s r₀ hold
    · exact h.edges q' s' r' hg
  · cases hold : e.edges.get? q s with
    | none =>
      refine ⟨r, ?_, hr⟩
      unfold Exploration.connect
      rw [Matrix.get?_insertNew, if_pos rfl, hold]
      rfl
    | some r₀ =>
      obtain ⟨set₀, target₀, hq₀, hr₀, ht₀, _⟩ := h.edges q s r₀ hold
      rw [hq] at hq₀
      cases hq₀
      rw [ht] at ht₀
      cases ht₀
      exact ⟨r₀, hext.edges q s r₀ hold, hr₀⟩

/-- A new state for a closed set. -/
theorem Sound.snoc (h : Sound p e) (hlt : e.sets.length < wordLimit) (hclosed : p.Closed target) :
    Sound p { e with sets := e.sets ++ [target] } := by
  refine ⟨?_, h.proper, ?_, ?_⟩
  · rw [List.length_append, List.length_singleton]
    exact hlt
  · intro u hu
    rcases List.mem_append.mp hu with hu | hu
    · exact h.closed u hu
    · rw [List.mem_singleton.mp hu]
      exact hclosed
  · intro q' s' r' hedge
    obtain ⟨u, v, hu, hv, hrest⟩ := h.edges q' s' r' hedge
    have hext : Extends e { e with sets := e.sets ++ [target] } := ⟨List.prefix_append _ _, fun _ _ _ hget => hget⟩
    exact ⟨u, v, hext.getElem? hu, hext.getElem? hv, hrest⟩

/-- **Following a symbol** settles it. -/
theorem Sound.follow (h : Sound p e) (hg : (p.grammar.rules.map Rule.lhs).Nodup)
    (hq : e.sets[q.number.toNat]? = some set) (hf : (Exploration.follow p q set e s).result = .ok e') :
    Extends e e' ∧ Sound p e' ∧ Settled p e' q set s := by
  unfold Exploration.follow at hf
  obtain ⟨target, ht, hf⟩ := Trail.result_bind_eq_ok_iff.mp hf
  have ht' : p.transition set s = .ok target := ht
  split at hf
  · rename_i hempty
    cases hf
    exact ⟨.refl e, h, target, ht', .inl (List.isEmpty_iff.mp hempty)⟩
  · rename_i hempty
    have hne : target ≠ [] := fun heq => hempty (List.isEmpty_iff.mpr heq)
    split at hf
    · rename_i i hi
      cases hf
      obtain ⟨hlt, hget, _⟩ := List.idxOf?_eq_some_iff.mp hi
      have hle := h.length_le
      unfold wordLimit at hle
      have hnum : i.toUInt16.toNat = i := by
        simp only [Nat.toUInt16, UInt16.toNat_ofNat']
        omega
      refine h.connect hq (r := ⟨i.toUInt16⟩) ?_ ht' hne
      rw [hnum]
      exact List.getElem?_eq_some_iff.mpr ⟨hlt, hget⟩
    · obtain ⟨id, hid, hf⟩ := Trail.result_bind_eq_ok_iff.mp hf
      cases hf
      have hnum : id.number.toNat = e.sets.length := StateId.ofIndex_eq_ok.mp hid
      have hlt := id.number.toNat_lt
      obtain ⟨kernel, _, hclosure⟩ := Prediction.transition_eq_ok.mp ht'
      have hext : Extends e { e with sets := e.sets ++ [target] } := ⟨List.prefix_append _ _, fun _ _ _ hg => hg⟩
      have hsound : Sound p { e with sets := e.sets ++ [target] } :=
        h.snoc (hnum ▸ hlt) (Prediction.closed_of_closure hg hclosure)
      have hnew : (e.sets ++ [target])[id.number.toNat]? = some target := by
        rw [hnum, List.getElem?_append_right (Nat.le_refl _), Nat.sub_self]
        rfl
      obtain ⟨h₁, h₂, h₃⟩ := hsound.connect (hext.getElem? hq) hnew ht' hne
      exact ⟨hext.trans h₁, h₂, h₃⟩

/-- Following several symbols settles all of them. -/
theorem Sound.followAll (hg : (p.grammar.rules.map Rule.lhs).Nodup) {symbols : List Symbol} (h : Sound p e)
    (hq : e.sets[q.number.toNat]? = some set)
    (hf : symbols.foldlM (fun e s => (Exploration.follow p q set e s).result) e = .ok e') :
    Extends e e' ∧ Sound p e' ∧ ∀ s ∈ symbols, Settled p e' q set s := by
  induction symbols generalizing e with
  | nil =>
    cases hf
    exact ⟨.refl _, h, fun s hs => by cases hs⟩
  | cons s symbols ih =>
    rw [List.foldlM_cons] at hf
    obtain ⟨e₁, h₁, h₂⟩ := bind_eq_ok_iff.mp hf
    obtain ⟨hext, hsound, hset⟩ := h.follow hg hq h₁
    obtain ⟨hext', hsound', hall⟩ := ih hsound (hext.getElem? hq) h₂
    refine ⟨hext.trans hext', hsound', ?_⟩
    intro u hu
    rcases List.mem_cons.mp hu with rfl | hu
    · exact hset.mono hext'
    · exact hall u hu

/-- **Induction along an exploration**: what every round keeps, in which the symbols are followed from the current
state, holds of the last exploration. It ends behind the last state, or when its fuel is used up. -/
theorem explore_induction {P : Nat → Exploration → Prop} {symbols : List Symbol} {fuel current : Nat}
    (hround : ∀ (source : StateId) (set : ItemSet) (e e₁ : Exploration), P source.number.toNat e →
      e.sets[source.number.toNat]? = some set →
      symbols.foldlM (fun e s => (Exploration.follow p source set e s).result) e = .ok e₁ →
      P (source.number.toNat + 1) e₁)
    (h : P current e) (he : (explore p symbols fuel current e).result = .ok e') :
    ∃ last, P last e' ∧ (e'.sets.length ≤ last ∨ last = current + fuel) := by
  induction fuel generalizing current e with
  | zero =>
    cases he
    exact ⟨current, h, .inr rfl⟩
  | succ fuel ih =>
    rw [explore] at he
    cases hc : e.sets[current]? with
    | none =>
      rw [hc] at he
      cases he
      exact ⟨current, h, .inl (List.getElem?_eq_none_iff.mp hc)⟩
    | some set =>
      rw [hc] at he
      dsimp only at he
      obtain ⟨source, hsource, he⟩ := Trail.result_bind_eq_ok_iff.mp he
      obtain ⟨e₁, h₁, he⟩ := Trail.result_bind_eq_ok_iff.mp he
      rw [Trail.result_foldlM] at h₁
      have hnum : source.number.toNat = current := StateId.ofIndex_eq_ok.mp hsource
      subst hnum
      obtain ⟨last, hlast, hend⟩ := ih (hround source set e e₁ h hc h₁) he
      refine ⟨last, hlast, hend.imp_right fun heq => ?_⟩
      omega

/-- What the rounds of an exploration keep: the states before the current one are settled. -/
structure SettledBefore (p : Prediction) (symbols : List Symbol) (first : Exploration) (current : Nat)
    (e : Exploration) : Prop where
  extended : Extends first e
  sound : Sound p e
  settled : ∀ q set, q.number.toNat < current → e.sets[q.number.toNat]? = some set → ∀ s ∈ symbols, Settled p e q set s

theorem SettledBefore.round (hg : (p.grammar.rules.map Rule.lhs).Nodup) {symbols : List Symbol} {first : Exploration}
    {source : StateId} (h : SettledBefore p symbols first source.number.toNat e)
    (hset : e.sets[source.number.toNat]? = some set)
    (hf : symbols.foldlM (fun e s => (Exploration.follow p source set e s).result) e = .ok e') :
    SettledBefore p symbols first (source.number.toNat + 1) e' := by
  obtain ⟨hext, hsound, hall⟩ := h.sound.followAll hg hset hf
  refine ⟨h.extended.trans hext, hsound, ?_⟩
  intro q set' hq hset' s hs
  rcases Nat.lt_succ_iff_lt_or_eq.mp hq with hq | hq
  · obtain ⟨hlt, _⟩ := List.getElem?_eq_some_iff.mp hset
    rw [hext.getElem?_eq (Nat.lt_trans hq hlt)] at hset'
    exact (h.settled q set' hq hset' s hs).mono hext
  · cases StateId.toNat_inj hq
    rw [hext.getElem? hset] at hset'
    cases hset'
    exact hall s hs

/-- **An exploration settles every state** when its fuel suffices for all the numbers there are. -/
theorem settled_of_explore (hg : (p.grammar.rules.map Rule.lhs).Nodup) {symbols : List Symbol} {fuel : Nat}
    (h : Sound p e) (hfuel : wordLimit < fuel) (he : (explore p symbols fuel 0 e).result = .ok e') :
    Extends e e' ∧ Sound p e' ∧
      ∀ q set, e'.sets[q.number.toNat]? = some set → ∀ s ∈ symbols, Settled p e' q set s := by
  have hzero : SettledBefore p symbols e 0 e := ⟨.refl e, h, fun _ _ hq => absurd hq (Nat.not_lt_zero _)⟩
  obtain ⟨last, hlast, hend⟩ := explore_induction (fun _ _ _ _ h hset hf => h.round hg hset hf) hzero he
  refine ⟨hlast.extended, hlast.sound, fun q set hq => hlast.settled q set ?_ hq⟩
  obtain ⟨hlt, _⟩ := List.getElem?_eq_some_iff.mp hq
  have hle := hlast.sound.length_le
  omega

end Exploration

/-! ## The automaton -/

namespace Automaton

variable {p : Prediction} {sets : List ItemSet} {a : Automaton}

/-- The closed sets behind the states of an automaton, with everything that its edges say about them. -/
structure Exact (p : Prediction) (sets : List ItemSet) (a : Automaton) : Prop where
  nodup_lhs : (p.grammar.rules.map Rule.lhs).Nodup
  start : ∃ set, startSet p = .ok set ∧ sets[0]? = some set
  sound : Exploration.Sound p ⟨sets, a.edges⟩
  settled : ∀ q set, sets[q.number.toNat]? = some set → ∀ s ∈ p.grammar.terminals ++ p.grammar.nonterminals,
    Exploration.Settled p ⟨sets, a.edges⟩ q set s
  closure_core : ∀ s ∈ a.states, ∃ set, sets[s.id.number.toNat]? = some set ∧ p.closure s.core = .ok set
  exists_state : ∀ i set, sets[i]? = some set → ∃ s ∈ a.states, s.id.number.toNat = i

/-- The state with the number of a set keeps the core of that set. -/
theorem Exact.exists_state_of_set {q : StateId} {set : ItemSet} (h : Exact p sets a)
    (hset : sets[q.number.toNat]? = some set) : ∃ s ∈ a.states, s.id = q ∧ p.closure s.core = .ok set := by
  obtain ⟨s, hs, hid⟩ := h.exists_state _ set hset
  obtain ⟨set', hset', hcore⟩ := h.closure_core s hs
  rw [hid, hset] at hset'
  cases hset'
  exact ⟨s, hs, StateId.toNat_inj hid, hcore⟩

/-- A state keeps its number and the core of its set, which is not empty. -/
theorem of_stateOf {number : Nat} {set : ItemSet} {s : State} (h : stateOf p number set = .ok s) :
    s.id.number.toNat = number ∧ p.core set = .ok s.core ∧ s.core ≠ [] := by
  unfold stateOf at h
  obtain ⟨core, hcore, h⟩ := bind_eq_ok_iff.mp h
  split at h
  · obtain ⟨_, h, _⟩ := bind_eq_ok_iff.mp h
    cases h
  · rename_i hempty
    obtain ⟨id, hid, h⟩ := bind_eq_ok_iff.mp h
    cases h
    exact ⟨StateId.ofIndex_eq_ok.mp hid, hcore, fun heq => hempty (List.isEmpty_iff.mpr heq)⟩

theorem stateOf_eq_ok {number : Nat} {set : ItemSet} {s : State} (h : stateOf p number set = .ok s)
    (hset : p.Closed set) : s.id.number.toNat = number ∧ p.closure s.core = .ok set := by
  obtain ⟨hid, hcore, _⟩ := of_stateOf h
  exact ⟨hid, Prediction.closure_of_core hcore hset⟩

theorem startSet_eq_ok {set : ItemSet} : startSet p = .ok set ↔
    ∃ lhs items, p.grammar.start = .ok lhs ∧ p.itemsFor lhs = .ok items ∧ p.closure (ItemSet.ofList items) = .ok set := by
  unfold startSet
  rw [bind_eq_ok_iff]
  constructor
  · rintro ⟨lhs, hlhs, h⟩
    obtain ⟨items, hitems, h⟩ := bind_eq_ok_iff.mp h
    exact ⟨lhs, items, hlhs, hitems, h⟩
  · rintro ⟨lhs, items, hlhs, hitems, h⟩
    exact ⟨lhs, hlhs, bind_eq_ok_iff.mpr ⟨items, hitems, h⟩⟩

/-- The exploration that an automaton comes from. -/
structure Explored (p : Prediction) (start : ItemSet) (e : Exploration) (a : Automaton) : Prop where
  start_eq : startSet p = .ok start
  explore_eq : (Exploration.explore p (p.grammar.terminals ++ p.grammar.nonterminals) (wordLimit + 1) 0
    ⟨[start], .empty⟩).result = .ok e
  states_eq : statesOf p e.sets = .ok a.states
  edges_eq : a.edges = e.edges

theorem exists_explored (h : (build p).result = .ok a) : ∃ start e, Explored p start e a := by
  unfold build at h
  obtain ⟨start, hstart, h⟩ := Trail.result_bind_eq_ok_iff.mp h
  obtain ⟨e, he, h⟩ := Trail.result_bind_eq_ok_iff.mp h
  obtain ⟨_, _, h⟩ := Trail.result_bind_eq_ok_iff.mp h
  obtain ⟨states, hstates, h⟩ := Trail.result_bind_eq_ok_iff.mp h
  cases h
  exact ⟨start, e, hstart, he, hstates, rfl⟩

/-- The start state alone is a sound exploration. -/
theorem sound_start (hg : (p.grammar.rules.map Rule.lhs).Nodup) {start : ItemSet} (h : startSet p = .ok start) :
    Exploration.Sound p ⟨[start], .empty⟩ := by
  refine ⟨show 1 ≤ wordLimit by decide, List.nodup_nil, ?_, ?_⟩
  · intro set hset
    obtain ⟨_, _, _, _, hclosure⟩ := startSet_eq_ok.mp h
    rw [List.mem_singleton.mp hset]
    exact Prediction.closed_of_closure hg hclosure
  · intro q s r hedge
    rw [Matrix.get?_empty] at hedge
    cases hedge

/-- The sets that were found say everything about an automaton. -/
theorem Explored.exact {start : ItemSet} {e : Exploration} (hg : (p.grammar.rules.map Rule.lhs).Nodup)
    (h : Explored p start e a) : Exact p e.sets a := by
  obtain ⟨hstart, he, hstates, hedges⟩ := h
  obtain ⟨states, edges⟩ := a
  cases hedges
  obtain ⟨hext, hsound, hall⟩ := Exploration.settled_of_explore hg (sound_start hg hstart)
    (Nat.lt_succ_self _) he
  unfold statesOf at hstates
  refine ⟨hg, ⟨start, hstart, hext.getElem? rfl⟩, hsound, hall, ?_, ?_⟩
  · intro s hs
    obtain ⟨⟨set, i⟩, hset, hs⟩ := exists_of_mem_mapM hstates hs
    have hget := List.mem_zipIdx_iff_getElem?.mp hset
    obtain ⟨hid, hcore⟩ := stateOf_eq_ok hs (hsound.closed set (List.mem_of_getElem? hget))
    exact ⟨set, by rw [hid]; exact hget, hcore⟩
  · intro i set hset
    have hmem : (set, i) ∈ e.sets.zipIdx := List.mem_zipIdx_iff_getElem?.mpr hset
    obtain ⟨s, hs, hsi⟩ := exists_mem_of_mapM hstates hmem
    exact ⟨s, hs, (stateOf_eq_ok hsi (hsound.closed set (List.mem_of_getElem? hset))).1⟩

/-- **Built automata are exact.** -/
theorem exact_of_build (hg : (p.grammar.rules.map Rule.lhs).Nodup) (h : (build p).result = .ok a) :
    ∃ sets, Exact p sets a := by
  obtain ⟨_, e, he⟩ := exists_explored h
  exact ⟨e.sets, he.exact hg⟩

/-! ## Items in states -/

/-- An item stands in a state when the closed set of the state holds it. -/
def Has (sets : List ItemSet) (q : StateId) (i : Item) : Prop := ∃ set, sets[q.number.toNat]? = some set ∧ i ∈ set

/-- An item with the dot in front, of a nonterminal that stands on a right-hand side. -/
def Predicted (p : Prediction) (j : Item) : Prop :=
  j.dot.toNat = 0 ∧ ∃ r b, p.grammar.target? j.alternative = some (r, b) ∧ r.lhs ∈ p.grammar.rhsSymbols

variable {q r : StateId} {s : Symbol} {i j : Item} {rule : Rule} {b : Alternative}

theorem mem_rhsSymbols_of_nextIn (ht : p.grammar.target? i.alternative = some (rule, b)) (hn : i.nextIn b = some s) :
    s ∈ p.grammar.rhsSymbols :=
  Grammar.mem_rhsSymbols.mpr ⟨rule.lhs, b, (Grammar.produces_of_target? ht).2, List.mem_of_getElem? hn⟩

/-- **An edge leads on** from every item whose dot stands before a symbol. -/
theorem Has.advance (h : Has sets q i) (hx : Exact p sets a)
    (ht : p.grammar.target? i.alternative = some (rule, b)) (he : b.isEpsilon = false) (hn : i.nextIn b = some s) :
    ∃ r j, a.edges.get? q s = some r ∧ Has sets r j ∧ i.advance = .ok j := by
  obtain ⟨set, hset, hi⟩ := h
  have hs : s ∈ p.grammar.terminals ++ p.grammar.nonterminals := by
    have hp := (Grammar.produces_of_target? ht).2
    have hmem : s ∈ b.symbols := List.mem_of_getElem? hn
    refine List.mem_append.mpr ?_
    cases hterminal : s.isTerminal with
    | true => exact .inl (Grammar.mem_terminals.mpr ⟨hterminal, rule.lhs, b, hp, hmem⟩)
    | false =>
      have hnt := Symbol.isTerminal_eq_false_iff.mp hterminal
      exact .inr (Grammar.mem_nonterminals.mpr (.inr ⟨hnt, rule.lhs, b, hp, hmem⟩))
  obtain ⟨target, htarget, hr⟩ := hx.settled q set hset s hs
  obtain ⟨j, hj, hij⟩ := Prediction.exists_advance_of_transition htarget hi ht he hn
  rcases hr with rfl | ⟨r, hr, hrset⟩
  · cases hj
  · exact ⟨r, j, hr, ⟨target, hrset, hj⟩, hij⟩

/-- **Predictions stay in the state.** -/
theorem Has.predict (h : Has sets q i) (hx : Exact p sets a)
    (ht : p.grammar.target? i.alternative = some (rule, b)) (hn : i.nextIn b = some s)
    (hs : s.isNonterminal = true) {c : Alternative} (hp : p.grammar.Produces s c) :
    ∃ j rule', Has sets q j ∧ p.grammar.target? j.alternative = some (rule', c) ∧ rule'.lhs = s ∧
      j.dot.toNat = 0 := by
  obtain ⟨set, hset, hi⟩ := h
  obtain ⟨items, hitems, hall⟩ := hx.sound.closed set (List.mem_of_getElem? hset) i hi
  rw [Prediction.predicted_of_next ht hn hs] at hitems
  obtain ⟨j, hj, rule', htarget, hlhs, hdot⟩ := Prediction.exists_mem_itemsFor hx.nodup_lhs hitems hp
  exact ⟨j, rule', ⟨set, hset, hall j hj⟩, htarget, hlhs, hdot⟩

/-- The second item has its dot in front of an alternative of the nonterminal behind the dot of the first one. -/
def Predicts (p : Prediction) (i j : Item) : Prop :=
  j.dot.toNat = 0 ∧ ∃ rule b rule' c, p.grammar.target? i.alternative = some (rule, b) ∧
    i.nextIn b = some rule'.lhs ∧ rule'.lhs.isNonterminal = true ∧ p.grammar.target? j.alternative = some (rule', c)

theorem Predicts.predicted (h : Predicts p i j) : Predicted p j := by
  obtain ⟨hdot, rule, b, rule', c, ht, hn, _, htj⟩ := h
  exact ⟨hdot, rule', c, htj, mem_rhsSymbols_of_nextIn ht hn⟩

section WithoutFirst

variable (hx : Exact p sets a) (hfirst : p.first = none)
include hx hfirst

theorem predicts_of_mem {items : List Item} (h : p.predicted i = .ok items) (hj : j ∈ items) : Predicts p i j := by
  obtain ⟨rule, b, s, ht, hn, hs, hitems⟩ := Prediction.exists_of_mem_predicted h hj
  obtain ⟨rule', c, ht', rfl, hdot⟩ := (Prediction.mem_itemsFor hx.nodup_lhs hitems).mp hj
  rw [Prediction.reach_eq_zero hfirst] at hdot
  exact ⟨Nat.le_zero.mp hdot, rule, b, rule', c, ht, hn, hs, ht'⟩

/-- **What holds of the items advanced along an edge** and of what such items predict holds of all items behind it. -/
theorem Has.edge_induction {motive : Item → Prop} (hedge : a.edges.get? q s = some r)
    (hadvance : ∀ i rule b j, Has sets q i → p.grammar.target? i.alternative = some (rule, b) → b.isEpsilon = false →
      i.nextIn b = some s → i.advance = .ok j → motive j)
    (hpredict : ∀ i j, motive i → Predicts p i j → motive j) (h : Has sets r j) : motive j := by
  obtain ⟨set, target, hset, htarget, htrans, _⟩ := hx.sound.edges q s r hedge
  obtain ⟨target', htarget', hj⟩ := h
  rw [htarget] at htarget'
  cases htarget'
  obtain ⟨kernel, hk, hclosure⟩ := Prediction.transition_eq_ok.mp htrans
  refine Prediction.closure_induction hclosure ?_ ?_ j hj
  · intro j hj
    obtain ⟨i, hi, hij⟩ := (Prediction.mem_kernel hk).mp hj
    obtain ⟨rule, b, ht, he, hn, hadv⟩ := Prediction.advanceOver_eq_ok.mp hij
    exact hadvance i rule b j ⟨set, hset, hi⟩ ht he hn hadv
  · intro i items hi hitems j hj
    exact hpredict i j hi (predicts_of_mem hx hfirst hitems hj)

/-- **What holds of the items of the start symbol** and of what such items predict holds of all items in the start
state. -/
theorem Has.start_induction {motive : Item → Prop}
    (hbase : ∀ j rule b, j.dot.toNat = 0 → p.grammar.target? j.alternative = some (rule, b) →
      p.grammar.start = .ok rule.lhs → motive j)
    (hpredict : ∀ i j, motive i → Predicts p i j → motive j) (h : Has sets .start j) : motive j := by
  obtain ⟨set, hstart, hset⟩ := hx.start
  obtain ⟨set', hset', hj⟩ := h
  have hzero : sets[StateId.start.number.toNat]? = sets[0]? := rfl
  rw [hzero, hset] at hset'
  cases hset'
  obtain ⟨lhs, items, hlhs, hitems, hclosure⟩ := startSet_eq_ok.mp hstart
  refine Prediction.closure_induction hclosure ?_ ?_ j hj
  · intro j hj
    obtain ⟨rule, b, ht, hrule, hdot⟩ := (Prediction.mem_itemsFor hx.nodup_lhs hitems).mp (ItemSet.mem_ofList.mp hj)
    rw [Prediction.reach_eq_zero hfirst] at hdot
    exact hbase j rule b (Nat.le_zero.mp hdot) ht (by rw [hrule, hlhs])
  · intro i items' hi hitems' j hj
    exact hpredict i j hi (predicts_of_mem hx hfirst hitems' hj)

/-- **An item behind an edge** was advanced along it or predicted. -/
theorem Has.of_edge (h : Has sets r j) (hedge : a.edges.get? q s = some r) :
    (∃ i rule b, Has sets q i ∧ p.grammar.target? i.alternative = some (rule, b) ∧ b.isEpsilon = false ∧
      i.nextIn b = some s ∧ i.advance = .ok j) ∨ Predicted p j := by
  refine Has.edge_induction (motive := fun j => (∃ i rule b, Has sets q i ∧
    p.grammar.target? i.alternative = some (rule, b) ∧ b.isEpsilon = false ∧ i.nextIn b = some s ∧
    i.advance = .ok j) ∨ Predicted p j) hx hfirst hedge ?_ ?_ h
  · intro i rule b j hi ht he hn hadv
    exact .inl ⟨i, rule, b, hi, ht, he, hn, hadv⟩
  · intro i j _ hij
    exact .inr hij.predicted

/-- An item behind an edge stands before it with the dot one symbol earlier, if it was not predicted. -/
theorem Has.exists_before (h : Has sets r j) (hedge : a.edges.get? q s = some r)
    (ht : p.grammar.target? j.alternative = some (rule, b)) :
    (∃ i, Has sets q i ∧ p.grammar.target? i.alternative = some (rule, b) ∧ b.symbols[i.dot.toNat]? = some s ∧
      j.dot.toNat = i.dot.toNat + 1) ∨ Predicted p j := by
  rcases Has.of_edge hx hfirst h hedge with ⟨i, rule', b', hi, hti, _, hn, hadv⟩ | hpred
  · obtain ⟨halt, hdot⟩ := Item.advance_eq_ok.mp hadv
    have hsame : (rule', b') = (rule, b) := Option.some.inj (hti.symm.trans (halt ▸ ht))
    cases hsame
    exact .inl ⟨i, hi, hti, hn, hdot⟩
  · exact .inr hpred

/-- **An item in the start state** has its dot in front and is one of the start symbol, or predicted. -/
theorem Has.of_start (h : Has sets .start j) :
    (j.dot.toNat = 0 ∧ ∃ rule b, p.grammar.target? j.alternative = some (rule, b) ∧
      p.grammar.start = .ok rule.lhs) ∨ Predicted p j := by
  refine Has.start_induction (motive := fun j => (j.dot.toNat = 0 ∧ ∃ rule b,
    p.grammar.target? j.alternative = some (rule, b) ∧ p.grammar.start = .ok rule.lhs) ∨ Predicted p j)
    hx hfirst ?_ ?_ h
  · intro j rule b hdot ht hstart
    exact .inl ⟨hdot, rule, b, ht, hstart⟩
  · intro i j _ hij
    exact .inr hij.predicted

/-- Before an edge stands an item with its dot before the symbol of the edge. -/
theorem Has.exists_of_edge (hedge : a.edges.get? q s = some r) : ∃ i rule b, Has sets q i ∧
    p.grammar.target? i.alternative = some (rule, b) ∧ b.isEpsilon = false ∧ i.nextIn b = some s := by
  obtain ⟨set, target, hset, htarget, htrans, hne⟩ := hx.sound.edges q s r hedge
  obtain ⟨j, hj⟩ := List.exists_mem_of_ne_nil target hne
  refine Has.edge_induction (motive := fun _ => ∃ i rule b, Has sets q i ∧
    p.grammar.target? i.alternative = some (rule, b) ∧ b.isEpsilon = false ∧ i.nextIn b = some s) hx hfirst hedge ?_ ?_
    ⟨target, htarget, hj⟩
  · intro i rule b j hi ht he hn _
    exact ⟨i, rule, b, hi, ht, he, hn⟩
  · exact fun _ _ h _ => h

end WithoutFirst

/-- The alternatives of the start symbol stand in the start state. -/
theorem has_start (hx : Exact p sets a) {lhs : Symbol} (hlhs : p.grammar.start = .ok lhs)
    (hp : p.grammar.Produces lhs b) :
    ∃ j rule, Has sets .start j ∧ p.grammar.target? j.alternative = some (rule, b) ∧ rule.lhs = lhs ∧
      j.dot.toNat = 0 := by
  obtain ⟨set, hstart, hset⟩ := hx.start
  obtain ⟨lhs', items, hlhs', hitems, hclosure⟩ := startSet_eq_ok.mp hstart
  rw [hlhs] at hlhs'
  cases hlhs'
  obtain ⟨j, hj, rule, ht, hrule, hdot⟩ := Prediction.exists_mem_itemsFor hx.nodup_lhs hitems hp
  exact ⟨j, rule, ⟨set, hset, Prediction.subset_closure hclosure j (ItemSet.mem_ofList.mpr hj)⟩, ht, hrule, hdot⟩

end Automaton
end LR
end TableParser
