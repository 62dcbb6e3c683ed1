import Mathlib.Data.List.Induction
import TableParser.Proofs.Automaton
import TableParser.Proofs.ItemOrder

/-!
# How states are discovered

An exploration takes up a set as a new state only if it has not met the set before, and only behind an edge from a state
that it has found already. So no set is found twice, and a string of symbols leads to each of them from the start state
(`Exploration.Discovered`).

* **Walks** (`walk`): where the edges lead along a string of symbols.
* **Numbers** (`Automaton.Explored.numbers`): the states are numbered in the order of their discovery.
-/

namespace TableParser.LR

/-! ## Walks -/

/-- Where the edges lead along a string of symbols, from the start state. -/
def walk (edges : Edges) (γ : List Symbol) : Option StateId := γ.foldlM edges.get? .start

section Walk

variable {edges edges' : Edges} {γ : List Symbol} {q r : StateId} {s : Symbol}

@[simp] theorem walk_nil : walk edges [] = some .start := rfl

theorem walk_snoc : walk edges (γ ++ [s]) = some r ↔ ∃ q, walk edges γ = some q ∧ edges.get? q s = some r := by
  unfold walk
  rw [List.foldlM_append]
  simp [Option.bind_eq_some_iff]

/-- Where the edges lead along two strings, one after the other. -/
theorem walk_append {δ : List Symbol} : walk edges (γ ++ δ) = some r ↔
    ∃ q, walk edges γ = some q ∧ δ.foldlM edges.get? q = some r := by
  unfold walk
  rw [List.foldlM_append]
  exact Option.bind_eq_some_iff

theorem foldlM_get?_cons : (s :: γ).foldlM edges.get? q = some r ↔
    ∃ p, edges.get? q s = some p ∧ γ.foldlM edges.get? p = some r := by
  rw [List.foldlM_cons]
  exact Option.bind_eq_some_iff

/-- More edges lead further, and the old ones still lead where they did. -/
theorem walk_mono (h : ∀ q s r, edges.get? q s = some r → edges'.get? q s = some r) (hw : walk edges γ = some q) :
    walk edges' γ = some q := by
  induction γ using List.reverseRecOn generalizing q with
  | nil => exact hw
  | append_singleton γ s ih =>
    obtain ⟨q', hq', hedge⟩ := walk_snoc.mp hw
    exact walk_snoc.mpr ⟨q', ih hq', h q' s q hedge⟩

end Walk

/-! ## Exploration -/

namespace Exploration

variable {p : Prediction} {e e' : Exploration} {q r : StateId} {set : ItemSet} {s : Symbol}

/-- A sound exploration that found every set once, in order, behind the edges that it found. -/
structure Discovered (p : Prediction) (e : Exploration) : Prop extends Sound p e where
  nodup : e.sets.Nodup
  ascending : ∀ set ∈ e.sets, set.Ascending
  reached : ∀ q : StateId, q.number.toNat < e.sets.length → ∃ γ, walk e.edges γ = some q

/-- Following a symbol finds no set or a new one, which is the transition. -/
theorem sets_of_follow (hf : (Exploration.follow p q set e s).result = .ok e') : e'.sets = e.sets ∨
    ∃ target, p.transition set s = .ok target ∧ target ≠ [] ∧ target ∉ e.sets ∧ e'.sets = e.sets ++ [target] := by
  unfold Exploration.follow at hf
  obtain ⟨target, ht, hf⟩ := Trail.result_bind_eq_ok_iff.mp hf
  split at hf
  · cases hf
    exact .inl rfl
  · rename_i hempty
    split at hf
    · cases hf
      exact .inl rfl
    · rename_i hnone
      obtain ⟨id, _, hf⟩ := Trail.result_bind_eq_ok_iff.mp hf
      cases hf
      exact .inr ⟨target, ht, fun heq => hempty (List.isEmpty_iff.mpr heq), List.idxOf?_eq_none_iff.mp hnone, rfl⟩

/-- **Following a symbol** keeps every set reached once. -/
theorem Discovered.follow (h : Discovered p e) (hg : (p.grammar.rules.map Rule.lhs).Nodup)
    (hq : e.sets[q.number.toNat]? = some set) (hf : (Exploration.follow p q set e s).result = .ok e') :
    Extends e e' ∧ Discovered p e' := by
  obtain ⟨hext, hsound, target', ht', hsettled⟩ := h.toSound.follow hg hq hf
  refine ⟨hext, ?_⟩
  have hreached : ∀ r : StateId, r.number.toNat < e.sets.length → ∃ γ, walk e'.edges γ = some r := fun r hr => by
    obtain ⟨γ, hγ⟩ := h.reached r hr
    exact ⟨γ, walk_mono hext.edges hγ⟩
  rcases sets_of_follow hf with heq | ⟨target, ht, hne, hnew, heq⟩
  · exact ⟨hsound, heq ▸ h.nodup, heq ▸ h.ascending, heq ▸ hreached⟩
  · have htarget : target = target' := Except.ok.inj (ht.symm.trans ht')
    subst htarget
    have hnodup : e'.sets.Nodup := by
      rw [heq]
      exact List.nodup_append.mpr ⟨h.nodup, List.nodup_singleton _, fun u hu v hv huv =>
        hnew (List.mem_singleton.mp hv ▸ huv ▸ hu)⟩
    refine ⟨hsound, hnodup, fun u hu => ?_, fun r hr => ?_⟩
    · rw [heq] at hu
      rcases List.mem_append.mp hu with hu | hu
      · exact h.ascending u hu
      · rw [List.mem_singleton.mp hu]
        exact Prediction.ascending_transition ht
    · by_cases hold : r.number.toNat < e.sets.length
      · exact hreached r hold
      · -- the state is the new one, to which the edge leads that settles the symbol
        obtain ⟨r', hedge, hset⟩ := hsettled.resolve_left hne
        have hlast : r.number.toNat = e.sets.length := by
          rw [heq, List.length_append, List.length_singleton] at hr
          omega
        have hget : e'.sets[r.number.toNat]? = some target := by
          rw [heq, hlast, List.getElem?_append_right (Nat.le_refl _), Nat.sub_self]
          rfl
        have hsame : r = r' := StateId.toNat_inj ((List.getElem?_inj hr hnodup).mp (hget.trans hset.symm))
        obtain ⟨hlt, _⟩ := List.getElem?_eq_some_iff.mp hq
        obtain ⟨γ, hγ⟩ := h.reached q hlt
        exact ⟨γ ++ [s], walk_snoc.mpr ⟨q, walk_mono hext.edges hγ, hsame ▸ hedge⟩⟩

/-- **A whole exploration** keeps every set reached once. -/
theorem Discovered.explore (hg : (p.grammar.rules.map Rule.lhs).Nodup) {symbols : List Symbol} {fuel current : Nat}
    (h : Discovered p e) (he : (Exploration.explore p symbols fuel current e).result = .ok e') : Discovered p e' := by
  have hround : ∀ (source : StateId) (set : ItemSet) (x x' : Exploration), Discovered p x →
      x.sets[source.number.toNat]? = some set →
      symbols.foldlM (fun e s => (Exploration.follow p source set e s).result) x = .ok x' → Discovered p x' := by
    intro source set x x' hx hset hf
    refine (foldlM_invariant (P := fun e => Discovered p e ∧ e.sets[source.number.toNat]? = some set) hf ⟨hx, hset⟩
      fun s _ b c hb hbc => ?_).1
    obtain ⟨hext, hc⟩ := hb.1.follow hg hb.2 hbc
    exact ⟨hc, hext.getElem? hb.2⟩
  obtain ⟨_, hlast, _⟩ := explore_induction (P := fun _ => Discovered p) hround h he
  exact hlast

/-- Every set but the first one lies behind an edge. -/
theorem Discovered.exists_transition {n : Nat} (h : Discovered p e) (hset : e.sets[n]? = some set) (hn : n ≠ 0) :
    ∃ source s, p.transition source s = .ok set ∧ set ≠ [] := by
  obtain ⟨hlt, _⟩ := List.getElem?_eq_some_iff.mp hset
  obtain ⟨q, rfl⟩ : ∃ q : StateId, q.number.toNat = n := by
    have hle := h.length_le
    exact ⟨⟨n.toUInt16⟩, UInt16.toNat_ofNat_of_lt' (Nat.lt_of_lt_of_le hlt hle)⟩
  obtain ⟨γ, hγ⟩ := h.reached q hlt
  rcases List.eq_nil_or_concat γ with rfl | ⟨γ, s, rfl⟩
  · cases hγ
    exact absurd rfl hn
  · rw [List.concat_eq_append] at hγ
    obtain ⟨r, _, hedge⟩ := walk_snoc.mp hγ
    obtain ⟨source, target, _, htarget, htrans, hne⟩ := h.edges r s q hedge
    rw [hset] at htarget
    cases htarget
    exact ⟨source, s, htrans, hne⟩

end Exploration

/-! ## The automaton -/

namespace Automaton

variable {p : Prediction} {a : Automaton} {start : ItemSet} {e : Exploration}

/-- What can be followed leads to a state with a set. -/
theorem Exact.exists_set_of_walk {sets : List ItemSet} {γ : List Symbol} {q : StateId} (h : Exact p sets a)
    (hw : walk a.edges γ = some q) : ∃ set, sets[q.number.toNat]? = some set := by
  rcases List.eq_nil_or_concat' γ with rfl | ⟨before, s, rfl⟩
  · cases hw
    obtain ⟨set, _, hset⟩ := h.start
    exact ⟨set, hset⟩
  · obtain ⟨r, _, hedge⟩ := walk_snoc.mp hw
    obtain ⟨_, target, _, htarget, _⟩ := h.sound.edges r s q hedge
    exact ⟨target, htarget⟩

/-- An exploration starts with one set. -/
theorem discovered_start (hg : (p.grammar.rules.map Rule.lhs).Nodup) (h : startSet p = .ok start) :
    Exploration.Discovered p ⟨[start], .empty⟩ := by
  refine ⟨sound_start hg h, List.nodup_singleton _, ?_, ?_⟩
  · intro set hset
    obtain ⟨_, items, _, _, hclosure⟩ := startSet_eq_ok.mp h
    rw [List.mem_singleton.mp hset]
    exact Prediction.ascending_closure (ItemSet.ascending_ofList items) hclosure
  · intro q hq
    have hzero : q.number.toNat = 0 := Nat.lt_one_iff.mp hq
    exact ⟨[], congrArg some (StateId.toNat_inj hzero).symm⟩

/-- What an automaton was built from found every set once. -/
theorem Explored.discovered (hg : (p.grammar.rules.map Rule.lhs).Nodup) (h : Explored p start e a) :
    Exploration.Discovered p e := .explore hg (discovered_start hg h.start_eq) h.explore_eq

/-- **The states are numbered** in the order of their discovery. -/
theorem Explored.numbers (hg : (p.grammar.rules.map Rule.lhs).Nodup) (h : Explored p start e a) :
    a.states.map (fun s => s.id.number.toNat) = List.range a.states.length := by
  have hclosed := (h.exact hg).sound.closed
  have hnumbers : a.states.map (fun s => s.id.number.toNat) = e.sets.zipIdx.map Prod.snd := by
    refine map_eq_map_of_mapM h.states_eq fun x hx s hs => ?_
    have hmem := List.mem_of_getElem? (List.mem_zipIdx_iff_getElem?.mp hx)
    exact (stateOf_eq_ok hs (hclosed x.1 hmem)).1
  have hlength : a.states.length = e.sets.length := by
    have := congrArg List.length hnumbers
    rwa [List.length_map, List.length_map, List.length_zipIdx] at this
  rw [hnumbers, hlength, List.zipIdx_map_snd, List.range_eq_range']

/-- No state has an empty core. -/
theorem Explored.core_ne_nil (h : Explored p start e a) : ∀ s ∈ a.states, s.core ≠ [] := by
  intro s hs
  obtain ⟨_, _, hstate⟩ := exists_of_mem_mapM h.states_eq hs
  exact (of_stateOf hstate).2.2

end Automaton
end TableParser.LR
