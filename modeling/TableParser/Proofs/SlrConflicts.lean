import Mathlib.Data.List.Pairwise
import TableParser.Proofs.ViablePrefix

/-!
# Conflicts of SLR tables

Filling a table is answering requests for its slots, one after the other: the first request for a slot is granted, and
each later one for something else is recorded as a conflict (`LR.Filling.Filled`). The requests are the candidates for
the slots, each of them once, shifts first and then the alternatives in ascending order (`LR.pairwise_requests`). So
both the table and the list of its conflicts are known (`LR.Table.isSlr_of_build`).
-/

namespace TableParser
namespace LR

/-! ## Requests -/

/-- An action that is asked for in a slot of the table. -/
structure Request where
  state : StateId
  terminal : Symbol
  action : TableAction

namespace Request

variable {requests : List Request} {q : StateId} {s : Symbol} {act : TableAction} {x y : Request}

/-- The action that is asked for first in a slot. -/
def first? (requests : List Request) (q : StateId) (s : Symbol) : Option TableAction :=
  (requests.find? fun x => x.state = q ∧ x.terminal = s).map Request.action

/-- The conflict of a request with the one that was granted in its slot. -/
def conflict? (requests : List Request) (x : Request) : Option Conflict :=
  match first? requests x.state x.terminal with
  | none => none
  | some kept => if kept = x.action then none else some ⟨x.state, x.terminal, kept, x.action⟩

theorem first?_snoc : first? (requests ++ [x]) q s =
    (first? requests q s).or (if x.state = q ∧ x.terminal = s then some x.action else none) := by
  unfold first?
  rw [List.find?_append]
  cases requests.find? fun y => y.state = q ∧ y.terminal = s with
  | some y => rfl
  | none => by_cases h : x.state = q ∧ x.terminal = s <;> simp [h]

theorem isSome_first? (h : x ∈ requests) : (first? requests x.state x.terminal).isSome = true := by
  unfold first?
  rw [Option.isSome_map, List.find?_isSome]
  exact ⟨x, h, by simp⟩

/-- What was granted in a slot stays granted when there is one more request. -/
theorem first?_snoc_of_some {kept : TableAction} (h : first? requests q s = some kept) :
    first? (requests ++ [x]) q s = some kept := by
  rw [first?_snoc, h, Option.some_or]

/-- One more request leads to one more conflict at most. -/
theorem filterMap_conflict?_snoc : (requests ++ [x]).filterMap (conflict? (requests ++ [x])) =
    requests.filterMap (conflict? requests) ++ (conflict? requests x).toList := by
  have hold : requests.filterMap (conflict? (requests ++ [x])) = requests.filterMap (conflict? requests) := by
    refine List.filterMap_congr fun y hy => ?_
    obtain ⟨kept, hkept⟩ := Option.isSome_iff_exists.mp (isSome_first? hy)
    unfold conflict?
    rw [first?_snoc_of_some hkept, hkept]
  have hlast : conflict? (requests ++ [x]) x = conflict? requests x := by
    unfold conflict?
    cases hkept : first? requests x.state x.terminal with
    | none => simp [first?_snoc, hkept]
    | some kept => rw [first?_snoc_of_some hkept]
  rw [List.filterMap_append, hold]
  cases h : conflict? requests x with
  | none => simp [hlast, h]
  | some c => simp [hlast, h]

theorem conflict?_eq_some {c : Conflict} : conflict? requests x = some c ↔
    first? requests c.state c.terminal = some c.kept ∧ c.kept ≠ c.dropped ∧ x = ⟨c.state, c.terminal, c.dropped⟩ := by
  obtain ⟨q, s, kept, dropped⟩ := c
  obtain ⟨q', s', act⟩ := x
  unfold conflict?
  dsimp only
  constructor
  · intro h
    split at h
    · cases h
    · rename_i kept' hkept
      split at h
      · cases h
      · rename_i hne
        cases h
        exact ⟨hkept, hne, rfl⟩
  · rintro ⟨hkept, hne, heq⟩
    cases heq
    rw [hkept]
    exact if_neg hne

end Request

namespace Filling

variable {g : Grammar} {p : Prediction} {accept : Symbol} {follow : FollowSets} {requests : List Request}
  {f f' : Filling} {q : StateId} {s : Symbol} {act : TableAction}

/-- The first requests are granted, and the others recorded as conflicts. -/
structure Filled (requests : List Request) (f : Filling) : Prop where
  get?_eq : ∀ q s, f.actions.get? q s = Request.first? requests q s
  conflicts_eq : f.conflicts = requests.filterMap (Request.conflict? requests)

theorem Filled.empty : Filled [] .empty := ⟨fun _ _ => rfl, rfl⟩

/-- **Entering an action** answers one more request. -/
theorem Filled.insert (hf : Filled requests f) (h : (Filling.insert g q act f s).result = .ok f') :
    Filled (requests ++ [⟨q, s, act⟩]) f' := by
  rcases insert_cases h with ⟨actions, hins, rfl⟩ | ⟨kept, hkept, rfl⟩
  · have hfree : Request.first? requests q s = none := by
      rw [← hf.get?_eq]
      exact Matrix.get?_eq_none_of_insert hins
    refine ⟨fun q' s' => ?_, ?_⟩
    · rw [Matrix.get?_of_insert hins, Request.first?_snoc, hf.get?_eq]
      by_cases hslot : (q', s') = (q, s)
      · cases hslot
        simp [hfree]
      · rw [if_neg hslot, if_neg fun heq => hslot (Prod.ext heq.1.symm heq.2.symm), Option.or_none]
    · have hnone : Request.conflict? requests ⟨q, s, act⟩ = none := by simp [Request.conflict?, hfree]
      rw [Request.filterMap_conflict?_snoc, hnone, Option.toList_none, List.append_nil]
      exact hf.conflicts_eq
  · rw [hf.get?_eq] at hkept
    refine ⟨fun q' s' => ?_, ?_⟩
    · rw [hf.get?_eq, Request.first?_snoc]
      split
      · rename_i hslot
        obtain ⟨rfl, rfl⟩ := hslot
        rw [hkept, Option.some_or]
      · exact Option.or_none.symm
    · have hconflict : (Request.conflict? requests ⟨q, s, act⟩).toList =
          if kept = act then [] else [⟨q, s, kept, act⟩] := by
        simp only [Request.conflict?, hkept]
        split <;> rfl
      rw [Request.filterMap_conflict?_snoc, hconflict, hf.conflicts_eq]

end Filling

/-! ## The requests of a table -/

/-- What an edge asks for: on a terminal, a shift. -/
def edgeRequests (edge : StateId × Symbol × StateId) : List Request :=
  if edge.2.1.isTerminal then [⟨edge.1, edge.2.1, .shift edge.2.2⟩] else []

/-- What an item of a state asks for: when it is complete, a reduction on what follows, or acceptance. -/
def itemRequests (g : Grammar) (follow : FollowSets) (accept : Symbol) (q : StateId) (i : Item) : List Request :=
  match g.target? i.alternative with
  | none => []
  | some (r, a) =>
    if i.isCompleteIn a then
      if r.lhs = accept then [⟨q, Symbol.endMarker, .accept⟩]
      else ((SymbolSets.members follow r.lhs).filter (· != Symbol.epsilon)).map (⟨q, ·, .reduce i.alternative⟩)
    else []

/-- What the items of a state ask for. -/
def stateRequests (p : Prediction) (follow : FollowSets) (accept : Symbol) (s : State) : List Request :=
  match p.closure s.core with
  | .error _ => []
  | .ok set => set.flatMap (itemRequests p.grammar follow accept s.id)

/-- All requests for the slots of a table. -/
def tableRequests (g : Grammar) (follow : FollowSets) (accept : Symbol) (a : Automaton) : List Request :=
  a.edges.toList.flatMap edgeRequests ++ a.states.flatMap (stateRequests ⟨g, none⟩ follow accept)

namespace Filling

variable {g : Grammar} {p : Prediction} {accept : Symbol} {follow : FollowSets} {requests : List Request}
  {f f' : Filling} {q : StateId}

theorem Filled.insertEdge {edge : StateId × Symbol × StateId} (hf : Filled requests f)
    (h : (Filling.insertEdge g f edge).result = .ok f') : Filled (requests ++ edgeRequests edge) f' := by
  obtain ⟨source, s, target⟩ := edge
  unfold Filling.insertEdge at h
  unfold edgeRequests
  dsimp only at h ⊢
  split at h
  · rename_i hs
    rw [if_pos hs]
    exact hf.insert h
  · rename_i hs
    cases h
    rw [if_neg hs, List.append_nil]
    exact ⟨hf.get?_eq, hf.conflicts_eq⟩

theorem Filled.insertItem {i : Item} (hf : Filled requests f)
    (h : (Filling.insertItem g follow accept q f i).result = .ok f') :
    Filled (requests ++ itemRequests g follow accept q i) f' := by
  obtain ⟨r, b, ht, hcases⟩ := insertItem_cases h
  unfold itemRequests
  rw [ht]
  dsimp only
  rcases hcases with ⟨hc, rfl⟩ | ⟨hc, hr, h⟩ | ⟨hc, hr, h⟩
  · rw [hc, if_neg Bool.false_ne_true, List.append_nil]
    exact hf
  · rw [if_pos hc, if_pos hr]
    exact hf.insert h
  · rw [if_pos hc, if_neg hr, ← List.flatMap_singleton' (List.map _ _), List.flatMap_map]
    exact foldlM_collects (P := Filled) h hf fun t _ zs b c hb hbc => hb.insert hbc

theorem Filled.insertState {s : State} (hf : Filled requests f)
    (h : (Filling.insertState p follow accept f s).result = .ok f') :
    Filled (requests ++ stateRequests p follow accept s) f' := by
  obtain ⟨set, hset, h⟩ := insertState_eq_ok h
  unfold stateRequests
  rw [hset]
  exact foldlM_collects (P := Filled) h hf fun i _ zs b c hb hbc => hb.insertItem hbc

/-- **A built table answers its requests.** -/
theorem filled_of_built {t : Table} {a : Automaton} {edges items : Filling}
    (h : Table.Built g accept follow a edges items t) : Filled (tableRequests t.grammar follow accept a) items := by
  have hedges : Filled ([] ++ a.edges.toList.flatMap edgeRequests) edges :=
    foldlM_collects (P := Filled) h.edges_eq .empty fun edge _ zs b c hb hbc => hb.insertEdge hbc
  exact foldlM_collects (P := Filled) h.items_eq hedges fun s _ zs b c hb hbc => hb.insertState hbc

end Filling

/-! ## Requests are candidates -/

section Candidates

variable {g : Grammar} {accept : Symbol} {follow : FollowSets} {sets : List ItemSet} {a : Automaton} {q : StateId}
  {s : Symbol} {i : Item} {act : TableAction} {x : Request}

theorem mem_edgeRequests {edge : StateId × Symbol × StateId} : x ∈ edgeRequests edge ↔
    edge.2.1.isTerminal = true ∧ x = ⟨edge.1, edge.2.1, .shift edge.2.2⟩ := by
  unfold edgeRequests
  by_cases h : edge.2.1.isTerminal = true <;> simp [h]

theorem mem_itemRequests : x ∈ itemRequests g follow accept q i ↔ ∃ r b, g.target? i.alternative = some (r, b) ∧
    i.isCompleteIn b = true ∧ (r.lhs = accept ∧ x = ⟨q, Symbol.endMarker, .accept⟩ ∨
      r.lhs ≠ accept ∧ ∃ t ∈ SymbolSets.members follow r.lhs, t ≠ Symbol.epsilon ∧ x = ⟨q, t, .reduce i.alternative⟩) := by
  have hmembers : ∀ {set : List Symbol}, x ∈ (set.filter (· != Symbol.epsilon)).map (⟨q, ·, .reduce i.alternative⟩) ↔
      ∃ t ∈ set, t ≠ Symbol.epsilon ∧ x = ⟨q, t, .reduce i.alternative⟩ := by
    intro set
    simp only [List.mem_map, List.mem_filter, bne_iff_ne, and_assoc]
    exact exists_congr fun t => and_congr_right fun _ => and_congr_right fun _ => eq_comm
  unfold itemRequests
  cases ht : g.target? i.alternative with
  | none => simp
  | some found =>
    obtain ⟨r, b⟩ := found
    by_cases hc : i.isCompleteIn b = true
    · by_cases hr : r.lhs = accept
      · simp [hc, hr]
      · dsimp only
        rw [if_pos hc, if_neg hr, hmembers]
        simp [hc, hr]
    · simp [hc]

theorem mem_stateRequests {p : Prediction} {st : State} {set : ItemSet} (hset : p.closure st.core = .ok set) :
    x ∈ stateRequests p follow accept st ↔ ∃ i ∈ set, x ∈ itemRequests p.grammar follow accept st.id i := by
  unfold stateRequests
  rw [hset]
  exact List.mem_flatMap

/-- **The requests are the candidates.** -/
theorem mem_tableRequests (hx : Automaton.Exact ⟨g, none⟩ sets a) : ⟨q, s, act⟩ ∈ tableRequests g follow accept a ↔
    Candidate g accept follow sets a.edges q s act := by
  unfold tableRequests
  rw [List.mem_append, List.mem_flatMap, List.mem_flatMap]
  constructor
  · rintro (⟨⟨source, t, target⟩, hedge, hmem⟩ | ⟨st, hst, hmem⟩)
    · obtain ⟨ht, heq⟩ := mem_edgeRequests.mp hmem
      cases heq
      exact .shift (hx.sound.proper.mem_toList_iff.mp hedge) ht
    · obtain ⟨set, hset, hcore⟩ := hx.closure_core st hst
      obtain ⟨i, hi, hmem⟩ := (mem_stateRequests hcore).mp hmem
      obtain ⟨r, b, ht, hc, ⟨hr, heq⟩ | ⟨hr, t, hfollows, hne, heq⟩⟩ := mem_itemRequests.mp hmem
      · cases heq
        exact .accept ⟨set, hset, hi⟩ ht hc hr rfl
      · cases heq
        exact .reduce ⟨set, hset, hi⟩ ht hc hr hfollows hne
  · have hstate : ∀ i, Automaton.Has sets q i → ⟨q, s, act⟩ ∈ itemRequests g follow accept q i →
        ∃ st ∈ a.states, ⟨q, s, act⟩ ∈ stateRequests ⟨g, none⟩ follow accept st := by
      rintro i ⟨set, hset, hi⟩ hmem
      obtain ⟨st, hst, rfl, hcore⟩ := hx.exists_state_of_set hset
      exact ⟨st, hst, (mem_stateRequests hcore).mpr ⟨i, hi, hmem⟩⟩
    intro hcand
    cases hcand with
    | @shift r hedge ht =>
      exact .inl ⟨(q, s, r), Matrix.mem_toList_of_get? hedge, mem_edgeRequests.mpr ⟨ht, rfl⟩⟩
    | @reduce i r b hi ht hc hr hmem hne =>
      exact .inr (hstate i hi (mem_itemRequests.mpr ⟨r, b, ht, hc, .inr ⟨hr, s, hmem, hne, rfl⟩⟩))
    | @accept i r b hi ht hc hr hs =>
      subst hs
      exact .inr (hstate i hi (mem_itemRequests.mpr ⟨r, b, ht, hc, .inl ⟨hr, rfl⟩⟩))

end Candidates

/-! ## Requests are in order -/

/-- The number of the alternative that an action completes; acceptance completes the first one of all. -/
def TableAction.number : TableAction → Nat
  | .shift _ => 0
  | .reduce id => id.toRaw
  | .accept => 0

/-- The place of an action among those for one slot: shifts come first, then the alternatives by their numbers. -/
def TableAction.place : TableAction → Nat
  | .shift _ => 0
  | act => act.number + 1

/-- For the same slot, the first request has the earlier place. -/
def Request.Precedes (x y : Request) : Prop :=
  x.state = y.state → x.terminal = y.terminal → x.action.place < y.action.place

/-- The new start symbol has the first alternative of all. -/
theorem toRaw_eq_zero_of_accept {g g' : Grammar} {start accept : Symbol} (h : Grammar.Augmented g g' start accept)
    {id : AlternativeId} {r : Rule} {b : Alternative} (ht : g'.target? id = some (r, b)) (hr : r.lhs = accept) :
    id.toRaw = 0 := by
  obtain ⟨hrule, hb⟩ := Grammar.target?_eq_some.mp ht
  have hfirst : g'.find accept = .ok (0, ⟨accept, [⟨[start], none⟩]⟩) :=
    (Grammar.find_eq_ok_iff h.nodup_lhs).mpr ⟨by rw [h.rules_eq]; rfl, rfl⟩
  have hsame := (Grammar.find_eq_ok_iff h.nodup_lhs).mpr ⟨hrule, hr⟩
  rw [hfirst] at hsame
  obtain ⟨hzero, rfl⟩ := Prod.mk.inj (Except.ok.inj hsame)
  obtain ⟨hlt, _⟩ := List.getElem?_eq_some_iff.mp hb
  have hindex : id.index.toNat = 0 := Nat.lt_one_iff.mp hlt
  unfold AlternativeId.toRaw
  rw [← hzero, hindex, Nat.zero_mul]

section Order

variable {g g' : Grammar} {start accept : Symbol} {follow : FollowSets} {a : Automaton} {first : ItemSet}
  {e : Exploration} {q : StateId} {i j : Item} {r : Rule} {b : Alternative} {x : Request}

/-- What an item asks for has the place of its alternative. -/
theorem place_of_mem_itemRequests (h : Grammar.Augmented g g' start accept) (hx : x ∈ itemRequests g' follow accept q i) :
    x.state = q ∧ x.action.place = i.alternative.toRaw + 1 := by
  obtain ⟨r, b, ht, _, ⟨hr, rfl⟩ | ⟨_, t, _, _, rfl⟩⟩ := mem_itemRequests.mp hx
  · refine ⟨rfl, ?_⟩
    rw [toRaw_eq_zero_of_accept h ht hr]
    rfl
  · exact ⟨rfl, rfl⟩

/-- In a state, the dot of a complete item is where its alternative has it. -/
theorem dot_of_complete (hg : (g.rules.map Rule.lhs).Nodup) (hstart : g.start = .ok start)
    (he : Automaton.Explored ⟨g, none⟩ first e a) (hi : Automaton.Has e.sets q i)
    (ht : g.target? i.alternative = some (r, b)) (hc : i.isCompleteIn b = true) :
    i.dot.toNat = b.arity := by
  have hx : Automaton.Exact ⟨g, none⟩ e.sets a := he.exact hg
  obtain ⟨set, hset, _⟩ := id hi
  obtain ⟨hlt, _⟩ := List.getElem?_eq_some_iff.mp hset
  obtain ⟨γ, hγ⟩ := (he.discovered hg).reached q hlt
  rw [← he.edges_eq] at hγ
  obtain ⟨_, r', b', _, ht', hle, hempty, _⟩ := Automaton.validFor_of_has hx hstart hγ hi
  have hsame : (r', b') = (r, b) := Option.some.inj (ht'.symm.trans ht)
  cases hsame
  exact Item.dot_eq_arity hc hle hempty

/-- A state holds one complete item of an alternative at most. -/
theorem eq_of_complete (hg : (g.rules.map Rule.lhs).Nodup) (hstart : g.start = .ok start)
    (he : Automaton.Explored ⟨g, none⟩ first e a) (hi : Automaton.Has e.sets q i) (hj : Automaton.Has e.sets q j)
    (hij : i.alternative = j.alternative) (ht : g.target? i.alternative = some (r, b)) (hc : i.isCompleteIn b = true)
    (hc' : j.isCompleteIn b = true) : i = j := by
  refine Item.eq_of_parts hij ?_
  rw [dot_of_complete hg hstart he hi ht hc, dot_of_complete hg hstart he hj (hij ▸ ht) hc']

/-- An item asks for one action on each terminal. -/
theorem pairwise_itemRequests (hfollow : ∀ s, (SymbolSets.members follow s).Nodup) :
    (itemRequests g follow accept q i).Pairwise Request.Precedes := by
  unfold itemRequests
  split
  · exact .nil
  · rename_i r b _
    split
    · split
      · exact List.pairwise_singleton _ _
      · refine List.pairwise_map.mpr (((hfollow r.lhs).filter _).imp ?_)
        exact fun hne _ hs => absurd hs hne
    · exact .nil

section Augmented

variable (h : Grammar.Augmented g g' start accept) (he : Automaton.Explored ⟨g', none⟩ first e a)
  (hfollow : ∀ s, (SymbolSets.members follow s).Nodup)
include h he hfollow

/-- The items of a state ask in the order of their alternatives. -/
theorem pairwise_stateRequests {st : State} (hst : st ∈ a.states) :
    (stateRequests ⟨g', none⟩ follow accept st).Pairwise Request.Precedes := by
  have hx : Automaton.Exact ⟨g', none⟩ e.sets a := he.exact h.nodup_lhs
  obtain ⟨set, hset, hcore⟩ := hx.closure_core st hst
  have hascending := (he.discovered h.nodup_lhs).ascending set (List.mem_of_getElem? hset)
  unfold stateRequests
  rw [hcore]
  refine List.pairwise_flatMap.mpr ⟨fun i _ => pairwise_itemRequests hfollow, ?_⟩
  refine List.Pairwise.imp_of_mem (fun {i j} hi hj hlt x hmem y hmem' _ _ => ?_) hascending
  rw [(place_of_mem_itemRequests h hmem).2, (place_of_mem_itemRequests h hmem').2]
  refine Nat.succ_lt_succ (Nat.lt_of_le_of_ne (Item.toRaw_le_of_rank_lt hlt) fun hraw => ?_)
  -- the same alternative cannot be complete twice
  have hij := AlternativeId.toRaw_inj hraw
  obtain ⟨r, b, ht, hc, _⟩ := mem_itemRequests.mp hmem
  obtain ⟨r', b', ht', hc', _⟩ := mem_itemRequests.mp hmem'
  have hsame : (r', b') = (r, b) := Option.some.inj (ht'.symm.trans (hij ▸ ht))
  cases hsame
  have heq := eq_of_complete h.nodup_lhs h.start_eq_accept he ⟨set, hset, hi⟩ ⟨set, hset, hj⟩ hij ht hc hc'
  exact absurd hlt (heq ▸ Nat.lt_irrefl _)

/-- **The requests for a slot are in order**, and no two of them are the same. -/
theorem pairwise_requests : (tableRequests g' follow accept a).Pairwise Request.Precedes := by
  have hx : Automaton.Exact ⟨g', none⟩ e.sets a := he.exact h.nodup_lhs
  unfold tableRequests
  refine List.pairwise_append.mpr ⟨?_, ?_, ?_⟩
  · refine List.pairwise_flatMap.mpr ⟨fun edge _ => ?_, ?_⟩
    · unfold edgeRequests
      split
      · exact List.pairwise_singleton _ _
      · exact .nil
    · refine List.pairwise_map.mpr ((List.pairwise_map.mp hx.sound.proper).imp ?_)
      rintro ⟨⟨q, s⟩, r⟩ ⟨⟨q', s'⟩, r'⟩ hne x hmem y hmem' hq hs
      obtain ⟨_, rfl⟩ := mem_edgeRequests.mp hmem
      obtain ⟨_, rfl⟩ := mem_edgeRequests.mp hmem'
      exact absurd (Prod.ext hq hs) hne
  · refine List.pairwise_flatMap.mpr ⟨fun st hst => pairwise_stateRequests h he hfollow hst, ?_⟩
    have hnodup : (a.states.map fun st => st.id.number.toNat).Nodup := by
      rw [he.numbers h.nodup_lhs]
      exact List.nodup_range
    refine List.Pairwise.imp_of_mem (fun {st st'} hst hst' hne x hmem y hmem' hq _ => ?_) (List.pairwise_map.mp hnodup)
    obtain ⟨set, _, hcore⟩ := hx.closure_core st hst
    obtain ⟨set', _, hcore'⟩ := hx.closure_core st' hst'
    obtain ⟨i, _, hmem⟩ := (mem_stateRequests hcore).mp hmem
    obtain ⟨i', _, hmem'⟩ := (mem_stateRequests hcore').mp hmem'
    rw [(place_of_mem_itemRequests h hmem).1, (place_of_mem_itemRequests h hmem').1] at hq
    exact absurd (congrArg (fun id => id.number.toNat) hq) hne
  · intro x hmem y hmem' _ _
    obtain ⟨edge, _, hmem⟩ := List.mem_flatMap.mp hmem
    obtain ⟨_, rfl⟩ := mem_edgeRequests.mp hmem
    obtain ⟨st, hst, hmem'⟩ := List.mem_flatMap.mp hmem'
    obtain ⟨set, _, hcore⟩ := hx.closure_core st hst
    obtain ⟨i, _, hmem'⟩ := (mem_stateRequests hcore).mp hmem'
    rw [(place_of_mem_itemRequests h hmem').2]
    exact Nat.succ_pos _

end Augmented
end Order

/-! ## What is granted -/

namespace Request

variable {requests : List Request} {q : StateId} {s : Symbol} {act act' : TableAction}

/-- For the same slot, the requests have different places. -/
def Differs (x y : Request) : Prop := x.state = y.state → x.terminal = y.terminal → x.action.place ≠ y.action.place

instance : Std.Symm Differs := ⟨fun _ _ h hq hs => (h hq.symm hs.symm).symm⟩

/-- Requests for one slot at the same place are the same. -/
theorem eq_of_place_eq (h : requests.Pairwise Precedes) (hact : ⟨q, s, act⟩ ∈ requests) (hact' : ⟨q, s, act'⟩ ∈ requests)
    (hplace : act.place = act'.place) : act = act' := by
  have hdiffers : requests.Pairwise Differs := h.imp fun hxy hq hs => Nat.ne_of_lt (hxy hq hs)
  by_contra hne
  exact hdiffers.forall hact hact' (fun heq => hne (congrArg Request.action heq)) rfl rfl hplace

/-- **The request with the earliest place is granted.** -/
theorem first?_eq_some_iff (h : requests.Pairwise Precedes) : first? requests q s = some act ↔
    ⟨q, s, act⟩ ∈ requests ∧ ∀ act', ⟨q, s, act'⟩ ∈ requests → act.place ≤ act'.place := by
  have hleast : ∀ {act}, first? requests q s = some act →
      ⟨q, s, act⟩ ∈ requests ∧ ∀ act', ⟨q, s, act'⟩ ∈ requests → act.place ≤ act'.place := by
    intro act hfirst
    obtain ⟨x, hx, rfl⟩ := Option.map_eq_some_iff.mp hfirst
    obtain ⟨hslot, before, after, rfl, hbefore⟩ := List.find?_eq_some_iff_append.mp hx
    obtain ⟨rfl, rfl⟩ := of_decide_eq_true hslot
    refine ⟨List.mem_append_right _ List.mem_cons_self, fun act' hact' => ?_⟩
    rcases List.mem_append.mp hact' with hmem | hmem
    · have hnot := hbefore _ hmem
      simp at hnot
    · rcases List.mem_cons.mp hmem with heq | hmem
      · exact Nat.le_of_eq (congrArg (fun x => x.action.place) heq).symm
      · have hafter := (List.pairwise_cons.mp (List.pairwise_append.mp h).2.1).1 _ hmem
        exact Nat.le_of_lt (hafter rfl rfl)
  refine ⟨hleast, fun ⟨hact, hall⟩ => ?_⟩
  obtain ⟨granted, hgranted⟩ := Option.isSome_iff_exists.mp (isSome_first? hact)
  obtain ⟨hmem, hle⟩ := hleast hgranted
  rw [hgranted, eq_of_place_eq h hmem hact (Nat.le_antisymm (hle act hact) (hall granted hmem))]

/-- No conflict is recorded twice. -/
theorem nodup_conflicts (h : requests.Pairwise Precedes) : (requests.filterMap (conflict? requests)).Nodup := by
  refine List.Nodup.filterMap (fun x y c hx hy => ?_) (h.imp fun {x y} hxy heq => ?_)
  · rw [(conflict?_eq_some.mp hx).2.2, (conflict?_eq_some.mp hy).2.2]
  · subst heq
    exact Nat.lt_irrefl _ (hxy rfl rfl)

end Request

/-! ## Tables -/

/-- What a table makes of the candidates for its slots. -/
structure Table.Resolves (t : Table) (C : StateId → Symbol → TableAction → Prop) : Prop where
  /-- A slot is filled exactly if there is a candidate for it. -/
  isSome_iff : ∀ q s, (t.actions.get? q s).isSome = true ↔ ∃ act, C q s act
  /-- A shift is entered whenever it is a candidate. -/
  shift_iff : ∀ q s r, t.actions.get? q s = some (.shift r) ↔ C q s (.shift r)
  /-- Where no shift is a candidate, the candidate with the first alternative is entered. -/
  least_iff : ∀ q s act, (∀ r, ¬C q s (.shift r)) →
    (t.actions.get? q s = some act ↔ C q s act ∧ ∀ act', C q s act' → act.number ≤ act'.number)
  /-- No conflict is recorded twice. -/
  nodup : t.conflicts.Nodup
  /-- The conflicts are those of what is entered with each of the other candidates. -/
  mem_conflicts_iff : ∀ c, c ∈ t.conflicts ↔
    t.actions.get? c.state c.terminal = some c.kept ∧ C c.state c.terminal c.dropped ∧ c.dropped ≠ c.kept
  /-- There are no conflicts exactly if no slot has two candidates. -/
  conflicts_eq_nil_iff : t.conflicts = [] ↔ ∀ q s act act', C q s act → C q s act' → act = act'

section Resolved

variable {C : StateId → Symbol → TableAction → Prop} {requests : List Request} {f : Filling}
  (hf : Filling.Filled requests f) (hmem : ∀ q s act, ⟨q, s, act⟩ ∈ requests ↔ C q s act)
include hf hmem

/-- A slot holds the candidate of the first place. -/
theorem Filling.Filled.get?_eq_some_iff (horder : requests.Pairwise Request.Precedes) {q : StateId} {s : Symbol}
    {act : TableAction} : f.actions.get? q s = some act ↔ C q s act ∧ ∀ act', C q s act' → act.place ≤ act'.place := by
  rw [hf.get?_eq, Request.first?_eq_some_iff horder]
  simp only [hmem]

theorem Filling.Filled.exists_kept {q : StateId} {s : Symbol} {act : TableAction} (h : C q s act) :
    ∃ kept, f.actions.get? q s = some kept := by
  rw [hf.get?_eq]
  exact Option.isSome_iff_exists.mp (Request.isSome_first? ((hmem q s act).mpr h))

/-- The conflicts are those of what is entered with each of the other candidates. -/
theorem Filling.Filled.mem_conflicts_iff {c : Conflict} : c ∈ f.conflicts ↔
    f.actions.get? c.state c.terminal = some c.kept ∧ C c.state c.terminal c.dropped ∧ c.dropped ≠ c.kept := by
  rw [hf.conflicts_eq, List.mem_filterMap, hf.get?_eq, ← hmem]
  constructor
  · rintro ⟨x, hx, hc⟩
    obtain ⟨hkept, hne, rfl⟩ := Request.conflict?_eq_some.mp hc
    exact ⟨hkept, hx, hne.symm⟩
  · rintro ⟨hkept, hx, hne⟩
    exact ⟨_, hx, Request.conflict?_eq_some.mpr ⟨hkept, hne.symm, rfl⟩⟩

/-- There are no conflicts exactly if no slot has two candidates. -/
theorem Filling.Filled.conflicts_eq_nil_iff (horder : requests.Pairwise Request.Precedes) : f.conflicts = [] ↔
    ∀ q s act act', C q s act → C q s act' → act = act' := by
  rw [List.eq_nil_iff_forall_not_mem]
  constructor
  · intro hnil q s act act' hact hact'
    have hentered : ∀ act, C q s act → f.actions.get? q s = some act := by
      intro act hact
      obtain ⟨kept, hkept⟩ := hf.exists_kept hmem hact
      by_contra hne
      refine hnil ⟨q, s, kept, act⟩ ((hf.mem_conflicts_iff hmem).mpr ⟨hkept, hact, fun heq => hne ?_⟩)
      exact hkept.trans (congrArg some heq.symm)
    exact Option.some.inj ((hentered act hact).symm.trans (hentered act' hact'))
  · intro hsingle c hc
    obtain ⟨hkept, hdropped, hne⟩ := (hf.mem_conflicts_iff hmem).mp hc
    exact hne (hsingle _ _ _ _ hdropped ((hf.get?_eq_some_iff hmem horder).mp hkept).1)

end Resolved

/-- Tables resolve the candidates of which their requests are made. -/
theorem Table.resolves_of_requests {t : Table} {C : StateId → Symbol → TableAction → Prop} {requests : List Request}
    {f : Filling} (hf : Filling.Filled requests f) (hactions : t.actions = f.actions) (hconflicts : t.conflicts = f.conflicts)
    (horder : requests.Pairwise Request.Precedes) (hmem : ∀ q s act, ⟨q, s, act⟩ ∈ requests ↔ C q s act) :
    t.Resolves C := by
  have hentry : ∀ q s act, t.actions.get? q s = some act ↔
      C q s act ∧ ∀ act', C q s act' → act.place ≤ act'.place := fun _ _ _ => hactions ▸ hf.get?_eq_some_iff hmem horder
  have hsome : ∀ q s act, C q s act → ∃ kept, t.actions.get? q s = some kept := fun _ _ _ h =>
    hactions ▸ hf.exists_kept hmem h
  refine ⟨fun q s => ?_, fun q s r => ?_, fun q s act hno => ?_, ?_,
    fun _ => hactions ▸ hconflicts ▸ hf.mem_conflicts_iff hmem, hconflicts ▸ hf.conflicts_eq_nil_iff hmem horder⟩
  · rw [Option.isSome_iff_exists]
    exact ⟨fun ⟨act, hact⟩ => ⟨act, ((hentry q s act).mp hact).1⟩, fun ⟨act, hact⟩ => hsome q s act hact⟩
  · rw [hentry]
    exact and_iff_left fun act' _ => Nat.zero_le _
  · -- without shifts, places are numbers of alternatives
    have hplace : ∀ act, C q s act → act.place = act.number + 1 := by
      intro act hact
      cases act with
      | shift r => exact absurd hact (hno r)
      | reduce id => rfl
      | accept => rfl
    rw [hentry]
    refine and_congr_right fun hact => forall_congr' fun act' => imp_congr_right fun hact' => ?_
    rw [hplace act hact, hplace act' hact', Nat.succ_le_succ_iff]
  · rw [hconflicts, hf.conflicts_eq]
    exact Request.nodup_conflicts horder

/-- What makes a table the SLR table of a grammar: it is about the augmented grammar, its FOLLOW sets and its automaton,
and both its entries and its conflicts are what the candidates come to. -/
structure Table.IsSlr (g : Grammar) (start accept : Symbol) (follow : FollowSets) (sets : List ItemSet) (a : Automaton)
    (t : Table) : Prop where
  augmented : Grammar.Augmented g t.grammar start accept
  follow_eq : FollowSets.ofGrammar t.grammar (FirstSets.ofGrammar t.grammar) = .ok follow
  build_eq : (Automaton.build ⟨t.grammar, none⟩).result = .ok a
  automaton_eq : t.automaton = some a
  /-- The sets are the closed sets of the states, each under the number of its state. -/
  closed_sets : sets.length = a.states.length ∧ ∀ s ∈ a.states, ∃ set, sets[s.id.number.toNat]? = some set ∧
    (⟨t.grammar, none⟩ : Prediction).closure s.core = .ok set
  resolves : t.Resolves (Candidate t.grammar accept follow sets a.edges)
  goto_iff : ∀ q s r, s.isNonterminal = true → (t.gotos.get? q s = some r ↔ a.edges.get? q s = some r)

/-- **SLR tables and their conflicts are exact.** The table of a defined grammar holds a shift wherever the automaton has
an edge, and otherwise the candidate with the first alternative; all other candidates are its conflicts. -/
theorem Table.isSlr_of_build {steps : List DefinitionStep} {g : Grammar} {t : Table}
    (hg : (Grammar.define steps).result = .ok g) (h : (Table.build g).result = .ok t) :
    ∃ start accept follow sets a, Table.IsSlr g start accept follow sets a t := by
  have hwell := wellFormed_of_define hg
  obtain ⟨accept, follow, a, edges, items, hbuilt⟩ := Table.exists_built h
  obtain ⟨start, accept', haug⟩ := Grammar.Augmented.of_augment hwell hbuilt.augment_eq
  have heq : accept = accept' := Except.ok.inj (hbuilt.start_eq.symm.trans haug.start_eq_accept)
  subst heq
  have hautomaton : t.automaton = some a := congrArg Table.automaton hbuilt.table_eq
  obtain ⟨first, e, he⟩ := Automaton.exists_explored hbuilt.automaton_eq
  have hx : Automaton.Exact ⟨t.grammar, none⟩ e.sets a := he.exact haug.nodup_lhs
  have hlength : e.sets.length = a.states.length :=
    List.length_zipIdx.symm.trans (mapM_eq_ok_iff.mp he.states_eq).length_eq
  have horder := pairwise_requests haug he (FollowSets.nodup_members hbuilt.follow_eq)
  refine ⟨start, accept, follow, e.sets, a, haug, hbuilt.follow_eq, hbuilt.automaton_eq, hautomaton,
    ⟨hlength, hx.closure_core⟩, ?_, ?_⟩
  · exact Table.resolves_of_requests (Filling.filled_of_built hbuilt) (congrArg Table.actions hbuilt.table_eq)
      (congrArg Table.conflicts hbuilt.table_eq) horder fun q s act => mem_tableRequests hx
  · obtain ⟨_, _, _, _, a', hexact⟩ := Table.exact_of_build hwell h
    have ha : a' = a := Option.some.inj (hexact.automaton_eq.symm.trans hautomaton)
    subst ha
    intro q s r hs
    rw [Symbol.isNonterminal_eq_not_isTerminal, Bool.not_eq_true'] at hs
    rw [hexact.goto]
    exact and_iff_left hs

section Ambiguous

open TableParser.Symbol

/-- Sums that can be read in two ways, of a letter that can be read in two ways. -/
def ambiguousSteps : List DefinitionStep := [
  .rule (nonterminal "S") [nonterminal "S", terminal "+", nonterminal "S"] none,
  .rule (nonterminal "S") [nonterminal "A"] none,
  .rule (nonterminal "S") [nonterminal "B"] none,
  .rule (nonterminal "A") [terminal "a"] none,
  .rule (nonterminal "B") [terminal "a"] none]

/-- The table of ambiguous sums has three conflicts: the letter is read in the first way, both before a sign and at the
end, and a second sign is shifted. -/
theorem Table.isSlr_of_build_ambiguous : ∃ g t, (Grammar.define ambiguousSteps).result = .ok g ∧
    (Table.build g).result = .ok t ∧
    t.conflicts = [⟨⟨1⟩, endMarker, .reduce ⟨2, 0⟩, .reduce ⟨3, 0⟩⟩, ⟨⟨1⟩, terminal "+", .reduce ⟨2, 0⟩, .reduce ⟨3, 0⟩⟩,
      ⟨⟨6⟩, terminal "+", .shift ⟨5⟩, .reduce ⟨1, 0⟩⟩] ∧
    ∃ start accept follow sets a, Table.IsSlr g start accept follow sets a t := by
  have heval : ((Grammar.define ambiguousSteps).result.toOption.any fun g =>
      (Table.build g).result.toOption.any fun t => t.conflicts = [⟨⟨1⟩, endMarker, .reduce ⟨2, 0⟩, .reduce ⟨3, 0⟩⟩,
        ⟨⟨1⟩, terminal "+", .reduce ⟨2, 0⟩, .reduce ⟨3, 0⟩⟩, ⟨⟨6⟩, terminal "+", .shift ⟨5⟩, .reduce ⟨1, 0⟩⟩]) = true := by rfl
  obtain ⟨g, hg, hrest⟩ := exists_ok_of_any heval
  obtain ⟨t, ht, hconflicts⟩ := exists_ok_of_any hrest
  exact ⟨g, t, hg, ht, of_decide_eq_true hconflicts, Table.isSlr_of_build hg ht⟩

end Ambiguous

end LR
end TableParser
