import Mathlib.Data.List.Nodup
import TableParser.Proofs.AlternativeOrder
import TableParser.Proofs.Factoring

/-!
# Factors are groups

The scan for the run to factor out ends early, but since sorted alternatives that begin alike stand together, what it
finds is a whole group: all alternatives that begin with the stem, and no two of them have more in common than that
(`Factor.groups_of_ofAlternatives`). When it finds nothing, no two alternatives begin alike (`Factor.prefixFree_of_none`).

* **All rounds for a rule** (`Factoring.exists_groups_of_rounds`): each round but the last one takes a group out of the
  rule, and the last one leaves alternatives no two of which begin alike.
-/

namespace TableParser

/-! ## Longest common beginnings -/

/-- The first string is the longest common beginning of the two others. -/
structure LongestCommon (p xs ys : List Symbol) : Prop where
  left : p <+: xs
  right : p <+: ys
  greatest : ∀ q, q <+: xs → q <+: ys → q <+: p

section Strings

variable {p q xs ys zs : List Symbol}

theorem length_le_commonLength (hx : p <+: xs) (hy : p <+: ys) : p.length ≤ commonLength xs ys := by
  induction p generalizing xs ys with
  | nil => exact Nat.zero_le _
  | cons s p ih =>
    obtain ⟨xs, rfl⟩ := hx
    obtain ⟨ys, rfl⟩ := hy
    rw [List.cons_append, List.cons_append, commonLength, if_pos rfl]
    exact Nat.succ_le_succ (ih (List.prefix_append p xs) (List.prefix_append p ys))

/-- Strings have nothing in common exactly if the empty one is their only common beginning. -/
theorem commonLength_eq_zero_iff : commonLength xs ys = 0 ↔ ∀ p, p <+: xs → p <+: ys → p = [] := by
  constructor
  · intro hzero p hx hy
    have := length_le_commonLength hx hy
    exact List.eq_nil_of_length_eq_zero (by omega)
  · intro h
    have hnil := h (xs.take (commonLength xs ys)) (List.take_prefix _ _) (take_commonLength xs ys ▸ List.take_prefix _ _)
    have := congrArg List.length hnil
    rwa [List.length_take, Nat.min_eq_left (commonLength_le_left xs ys)] at this

theorem commonLength_comm (xs ys : List Symbol) : commonLength xs ys = commonLength ys xs := by
  induction xs generalizing ys with
  | nil => cases ys <;> rfl
  | cons x xs ih =>
    cases ys with
    | nil => rfl
    | cons y ys =>
      unfold commonLength
      rw [ih ys]
      simp only [eq_comm]

theorem LongestCommon.symm (h : LongestCommon p xs ys) : LongestCommon p ys xs :=
  ⟨h.right, h.left, fun q hy hx => h.greatest q hx hy⟩

theorem LongestCommon.unique (h : LongestCommon p xs ys) (h' : LongestCommon q xs ys) : p = q :=
  (h'.greatest p h.left h.right).eq_of_length_le (h.greatest q h'.left h'.right).length_le

end Strings

/-! ## Groups -/

/-- No two alternatives begin alike. -/
def PrefixFree (alternatives : List Alternative) : Prop :=
  alternatives.Pairwise fun a b => commonLength a.symbols b.symbols = 0

theorem Grouped.sublist {xs ys : List Alternative} (h : Grouped ys) (hsub : xs.Sublist ys) : Grouped xs :=
  fun a b c habc => h a b c (habc.trans hsub)

/-- In a run of alternatives that are grouped, no two have more in common than neighbours. -/
theorem Grouped.pairwise_of_links {n : Nat} {run : List Alternative} (hgrouped : Grouped run)
    (hlinks : run.IsChain fun a b => commonLength a.symbols b.symbols = n) :
    run.Pairwise fun a b => ∀ p, p <+: a.symbols → p <+: b.symbols → p.length ≤ n := by
  induction run with
  | nil => exact .nil
  | cons a run ih =>
    refine List.pairwise_cons.mpr ⟨?_, ih (hgrouped.sublist (List.sublist_cons_self a run)) hlinks.tail⟩
    cases run with
    | nil => exact nofun
    | cons b rest =>
      have hab : ∀ p, p <+: a.symbols → p <+: b.symbols → p.length ≤ n := fun p ha hb =>
        (length_le_commonLength ha hb).trans_eq (List.isChain_cons_cons.mp hlinks).1
      intro c hc p ha hpc
      rcases List.mem_cons.mp hc with rfl | hc
      · exact hab p ha hpc
      · refine hab p ha (hgrouped a b c ?_ p ha hpc)
        exact .cons_cons a (.cons_cons b (List.singleton_sublist.mpr hc))

/-- Where less is in common, no longer beginning stands on both sides. -/
theorem Grouped.length_lt_of_drop {n : Nat} {xs ys : List Alternative} (hgrouped : Grouped (xs ++ ys))
    (hdrop : ∀ a ∈ xs.getLast?, ∀ b ∈ ys.head?, commonLength a.symbols b.symbols < n) {a b : Alternative} (ha : a ∈ xs)
    (hb : b ∈ ys) {p : List Symbol} (hpa : p <+: a.symbols) (hpb : p <+: b.symbols) : p.length < n := by
  rcases List.eq_nil_or_concat' xs with rfl | ⟨init, last, rfl⟩
  · cases ha
  cases ys with
  | nil => cases hb
  | cons head tail =>
    have hlast : p <+: last.symbols := by
      rcases List.mem_append.mp ha with ha | ha
      · refine hgrouped a last b ?_ p hpa hpb
        rw [List.append_assoc]
        exact (List.singleton_sublist.mpr ha).append (.cons_cons last (List.singleton_sublist.mpr hb))
      · exact List.mem_singleton.mp ha ▸ hpa
    have hhead : p <+: head.symbols := by
      rcases List.mem_cons.mp hb with rfl | hb
      · exact hpb
      · refine hgrouped last head b ?_ p hlast hpb
        rw [List.append_assoc]
        exact .trans (.cons_cons last (.cons_cons head (List.singleton_sublist.mpr hb))) (List.sublist_append_right init _)
    exact (length_le_commonLength hlast hhead).trans_lt (hdrop last List.getLast?_concat head rfl)

namespace Factor

variable {alternatives : List Alternative} {f : Factor} {a b : Alternative}

/-- The run is the group of all alternatives with the stem, and the stem is all that any two of them have in common. -/
structure Groups (f : Factor) (alternatives : List Alternative) : Prop extends f.Splits alternatives where
  longest : ∀ a ∈ f.run, ∀ b ∈ f.run, a ≠ b → LongestCommon f.stem a.symbols b.symbols
  alone : ∀ a ∈ f.before ++ f.after, ¬f.stem <+: a.symbols

/-- **What the scan finds is a group**, although it ends early. -/
theorem groups_of_ofAlternatives (hgrouped : Grouped alternatives) (h : ofAlternatives alternatives = some f) :
    f.Groups alternatives := by
  obtain ⟨hf, hrun⟩ := isRun_of_ofAlternatives h
  refine ⟨hf, fun a ha b hb hne => ?_, fun a ha => ?_⟩
  · have hle : f.run.Pairwise fun x y => ∀ p, p <+: x.symbols → p <+: y.symbols → p.length ≤ f.stem.length :=
      (hgrouped.sublist hf.run_sublist).pairwise_of_links hrun.links
    have : Std.Symm fun x y : Alternative => ∀ p, p <+: x.symbols → p <+: y.symbols → p.length ≤ f.stem.length :=
      ⟨fun x y hxy p hy hx => hxy p hx hy⟩
    refine ⟨hf.begins a ha, hf.begins b hb, fun q hqa hqb => ?_⟩
    exact List.prefix_of_prefix_length_le hqa (hf.begins a ha) (hle.forall ha hb hne q hqa hqb)
  · intro hstem
    rw [← hf.append_eq] at hgrouped
    obtain ⟨b, hb⟩ := hf.exists_mem
    have hlt : f.stem.length < f.stem.length := by
      rcases List.mem_append.mp ha with ha | ha
      · refine (hgrouped.sublist ?_).length_lt_of_drop hrun.before_lt ha hb hstem (hf.begins b hb)
        exact (List.sublist_append_left f.run f.after).append_left f.before
      · refine (hgrouped.sublist ?_).length_lt_of_drop hrun.after_lt hb ha (hf.begins b hb) hstem
        exact List.sublist_append_right f.before _
    exact Nat.lt_irrefl _ hlt

/-- **What the scan finds nothing in is free of common beginnings.** -/
theorem prefixFree_of_none (hgrouped : Grouped alternatives) (h : ofAlternatives alternatives = none) :
    PrefixFree alternatives := by
  refine (hgrouped.pairwise_of_links (links_of_ofAlternatives_eq_none h)).imp fun hle => ?_
  exact commonLength_eq_zero_iff.mpr fun p ha hb => List.eq_nil_of_length_eq_zero (Nat.le_zero.mp (hle p ha hb))

namespace Groups

variable {r : Rule} {helper : Symbol}

/-- The run holds all alternatives that begin with the stem. -/
theorem mem_run_iff (hf : f.Groups r.alternatives) : a ∈ f.run ↔ a ∈ r.alternatives ∧ f.stem <+: a.symbols := by
  rw [hf.mem_iff]
  constructor
  · exact fun ha => ⟨.inl ha, hf.begins a ha⟩
  · rintro ⟨ha | ha, hstem⟩
    · exact ha
    · exact absurd hstem (hf.alone a ha)

/-- What begins the rest of an alternative stands behind the stem, unless it is the empty derivation. -/
theorem isPrefix_of_rest (hf : f.Groups r.alternatives) (ha : a ∈ f.run) {p : List Symbol}
    (hp : p <+: (f.rest a).symbols) (he : Symbol.epsilon ∉ p) : f.stem ++ p <+: a.symbols := by
  rw [← hf.symbols_eq ha]
  refine List.prefix_append_right_inj f.stem |>.mpr ?_
  unfold rest at hp
  dsimp only at hp
  split at hp
  · rcases List.prefix_cons_iff.mp hp with rfl | ⟨rest, rfl, _⟩
    · exact List.nil_prefix
    · exact absurd List.mem_cons_self he
  · exact hp

/-- Only an alternative without anything behind the stem has the empty derivation for its rest. -/
theorem symbols_eq_stem (hf : f.Groups r.alternatives) (hr : r.Proper) (ha : a ∈ f.run)
    (he : Symbol.epsilon ∈ (f.rest a).symbols) : a.symbols = f.stem := by
  unfold rest at he
  dsimp only at he
  split at he
  · rename_i hempty
    rw [← hf.symbols_eq ha, List.isEmpty_iff.mp hempty, List.append_nil]
  · exact absurd he (hf.epsilon_not_mem_suffix hr ha)

/-- **The alternatives of the helper have nothing in common**, since the stem was all that those of the run had. -/
theorem prefixFree_factored (hf : f.Groups r.alternatives) (hr : r.Proper) : PrefixFree (f.factored helper).alternatives := by
  refine (perm_factored.pairwise_iff fun h => (commonLength_comm _ _).trans h).mpr (List.pairwise_map.mpr ?_)
  refine (hr.nodup.sublist hf.run_sublist).imp_of_mem fun {a b} ha hb hne => commonLength_eq_zero_iff.mpr fun p hpa hpb => ?_
  by_contra hp
  obtain ⟨s, p, rfl⟩ := List.exists_cons_of_ne_nil hp
  have hs : [s] <+: s :: p := List.prefix_append [s] p
  by_cases he : s = Symbol.epsilon
  · -- both end with the stem
    have hmem : Symbol.epsilon ∈ s :: p := he ▸ List.mem_cons_self
    have hsame := (hf.symbols_eq_stem hr ha (hpa.subset hmem)).trans (hf.symbols_eq_stem hr hb (hpb.subset hmem)).symm
    exact hne (List.inj_on_of_nodup_map hr.nodup_symbols (hf.run_sublist.subset ha) (hf.run_sublist.subset hb) hsame)
  · have hnot : Symbol.epsilon ∉ [s] := fun hmem => he (List.mem_singleton.mp hmem).symm
    have hlonger := (hf.longest a ha b hb hne).greatest (f.stem ++ [s]) (hf.isPrefix_of_rest ha (hs.trans hpa) hnot)
      (hf.isPrefix_of_rest hb (hs.trans hpb) hnot)
    have := hlonger.length_le
    rw [List.length_append, List.length_singleton] at this
    omega

/-- A round leaves fewer alternatives. -/
theorem length_replaced_lt (hf : f.Groups r.alternatives) (order : Registry) :
    ((f.replaced r.lhs helper).sorted order).alternatives.length < r.alternatives.length := by
  have htwo := hf.two_le
  rw [perm_replaced.length_eq, ← hf.append_eq]
  simp only [List.length_cons, List.length_append]
  omega

end Groups
end Factor

/-! ## All rounds -/

/-- Elements that occur once determine what stands beside them in another list. -/
theorem exists_map_of_forall₂ {α β : Type} [Inhabited β] {R : α → β → Prop} {xs : List α} {ys : List β} (hxs : xs.Nodup)
    (h : List.Forall₂ R xs ys) : ∃ f, ys = xs.map f ∧ ∀ x ∈ xs, R x (f x) := by
  classical
  induction h with
  | nil => exact ⟨fun _ => default, rfl, nofun⟩
  | @cons x y xs ys hxy _ ih =>
    obtain ⟨hx, hxs⟩ := List.nodup_cons.mp hxs
    obtain ⟨f, rfl, hf⟩ := ih hxs
    have hother : ∀ z ∈ xs, Function.update f x y z = f z := by
      intro z hz
      refine Function.update_of_ne ?_ y f
      rintro rfl
      exact hx hz
    refine ⟨Function.update f x y, ?_, List.forall_mem_cons.mpr ⟨?_, fun z hz => ?_⟩⟩
    · rw [List.map_cons, Function.update_self, List.map_congr_left hother]
    · rw [Function.update_self]
      exact hxy
    · rw [hother z hz]
      exact hf z hz

section Rounds

variable {ε : Type} {motive : Rule → Rule → List Rule → Prop}
  (hdone : ∀ {r : Rule}, r.Proper → PrefixFree r.alternatives → motive r r [])
  (hround : ∀ {r r' : Rule} {new : List Rule} {f : Factor} {helper : Symbol} {order : Registry}, r.Proper →
    f.Groups r.alternatives → (∃ n, helper = Transformation.helper r.lhs n) →
    motive ((f.replaced r.lhs helper).sorted order) r' new → motive r r' (new ++ [f.factored helper]))
include hdone hround

/-- **All rounds for a rule**: as long as alternatives begin alike, a round takes a group out; there are fewer alternatives
after each round, so as many rounds as alternatives suffice. -/
theorem Factoring.exists_groups_of_rounds {s s' : Factoring} {fuel : Nat} (hr : s.rule.Proper)
    (hgrouped : Grouped s.rule.alternatives) (htaken : s.rule.Within s.taken)
    (hfuel : s.rule.alternatives.length ≤ fuel) (h : (rounds fuel s : Reported ε Factoring).result = .ok s') :
    ∃ new, s'.helpers = new ++ s.helpers ∧ (∀ x ∈ s.taken, x ∈ s'.taken) ∧ motive s.rule s'.rule new := by
  induction fuel generalizing s with
  | zero =>
    cases h
    have hnil := List.eq_nil_of_length_eq_zero (Nat.le_zero.mp hfuel)
    exact ⟨[], rfl, fun _ hx => hx, hdone hr (by rw [hnil]; exact .nil)⟩
  | succ fuel ih =>
    unfold rounds at h
    split at h
    · rename_i hnone
      cases h
      exact ⟨[], rfl, fun _ hx => hx, hdone hr (Factor.prefixFree_of_none hgrouped hnone)⟩
    · rename_i f hf
      have hf := Factor.groups_of_ofAlternatives hgrouped hf
      obtain ⟨next, hnext, h⟩ := Trail.result_bind_eq_ok_iff.mp h
      obtain ⟨helper, order, hname, hnt, hnot, hrules, htaken', _⟩ := round_cases hnext
      obtain ⟨hrule, hhelpers⟩ := List.cons.inj hrules
      have hnextTaken : next.rule.Within next.taken := by
        rw [hrule, htaken']
        exact Factor.within_replaced hf.toSplits htaken
      obtain ⟨new, hnew, htaken'', hmotive⟩ := ih (hrule ▸ hf.proper_replaced hr hnt (htaken.not_mem hnt hnot))
        (hrule ▸ Rule.grouped_sorted _ order) hnextTaken
        (Nat.le_of_lt_succ (Nat.lt_of_lt_of_le (hrule ▸ hf.length_replaced_lt order) hfuel)) h
      rw [hrule] at hmotive
      rw [hhelpers] at hnew
      refine ⟨new ++ [f.factored helper], by rw [hnew, List.append_assoc]; rfl, fun x hx => htaken'' x ?_,
        hround hr hf ⟨_, hname⟩ hmotive⟩
      rw [htaken']
      exact mem_insertSymbol.mpr (.inl hx)

/-- A rule is sorted before its rounds. -/
theorem Factoring.exists_groups_of_ofRule {r : Rule} {taken : List Symbol} {order : Registry} {s : Factoring}
    (hr : r.Proper) (htaken : r.Within taken)
    (h : (ofRule r taken order : Reported ε Factoring).result = .ok s) :
    (∀ x ∈ taken, x ∈ s.taken) ∧ motive (r.sorted order) s.rule s.helpers := by
  have hperm : (r.sorted order).alternatives.Perm r.alternatives := sortBy_perm _
  obtain ⟨new, hnew, hgrows, hmotive⟩ := exists_groups_of_rounds hdone hround (s := ⟨r.sorted order, [], 2, taken, order⟩)
    (hr.of_perm rfl hperm) (r.grouped_sorted order) (fun a ha => htaken a (hperm.mem_iff.mp ha))
    (Nat.le_of_eq hperm.length_eq) h
  rw [List.append_nil] at hnew
  exact ⟨hgrows, hnew ▸ hmotive⟩

/-- **All rules of a grammar**: each is sorted and makes way for itself, after all rounds, with its helpers behind it. -/
theorem Grammar.exists_groups_of_leftFactor {g : Grammar} {order : Registry} {t : Transformation} (hg : g.WellFormed)
    (h : (g.leftFactor order : Reported ε Transformation).result = .ok t) :
    ∃ segment : Rule → List Rule, t.grammar.rules = g.rules.flatMap segment ∧
      ∀ r ∈ g.rules, ∃ order r' new, segment r = r' :: new ∧ motive (r.sorted order) r' new := by
  unfold leftFactor at h
  obtain ⟨s, hs, h⟩ := Trail.result_bind_eq_ok_iff.mp h
  rw [Trail.result_foldlM] at hs
  cases h
  suffices hall : ∃ segments, s.done = segments.flatten ∧ List.Forall₂ (fun r segment => ∃ order r' new,
      segment = r' :: new ∧ motive (r.sorted order) r' new) g.rules segments by
    obtain ⟨segments, hdone', hall⟩ := hall
    obtain ⟨segment, rfl, hsegment⟩ := exists_map_of_forall₂ (.of_map _ hg.nodup_lhs) hall
    exact ⟨segment, hdone'.trans List.flatMap_def.symm, hsegment⟩
  refine (foldlM_takes (P := fun rules s => (∀ x ∈ g.nonterminals, x ∈ s.taken) ∧ ∃ segments,
    s.done = segments.flatten ∧ List.Forall₂ (fun r segment => ∃ order r' new,
      segment = r' :: new ∧ motive (r.sorted order) r' new) rules segments) hs
    ⟨fun _ hx => hx, [], rfl, .nil⟩ fun r hr rules s s' hall hstep => ?_).2
  obtain ⟨htaken, segments, hdone', hforall⟩ := hall
  unfold GrammarFactoring.step at hstep
  obtain ⟨factoring, hfactoring, hstep⟩ := Trail.result_bind_eq_ok_iff.mp hstep
  cases hstep
  obtain ⟨hgrows, hmotive⟩ := Factoring.exists_groups_of_ofRule hdone hround (hg.proper r hr)
    ((within_nonterminals hr).mono htaken) hfactoring
  refine ⟨fun x hx => hgrows x (htaken x hx), segments ++ [factoring.rules], ?_, ?_⟩
  · show s.done ++ factoring.rules = _
    rw [hdone', List.flatten_append, List.flatten_singleton]
  · exact List.rel_append hforall (.cons ⟨s.order, factoring.rule, factoring.helpers, rfl, hmotive⟩ .nil)

end Rounds

end TableParser
