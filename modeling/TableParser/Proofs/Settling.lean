import TableParser.Proofs.NormalForm

/-!
# Both transformations settle

Transforming a grammar again that both transformations have been applied to reports no change, and changes nothing but,
in a rule that mentions the end marker, the order of two alternatives (`Grammar.settles_of_leftFactor`). Applied once
more, the transformations leave even that as it is.

* **Nothing to do** (`Grammar.removeLeftRecursion_of_direct`, `Grammar.leftFactor_of_prefixFree`): rules without left
  recursion and without common beginnings are at most sorted.
* **Helpers are in order from the start** (`Factor.Splits.ordered_factored`): their alternatives are the rests of sorted
  ones, but the empty derivation, which stands for an empty rest, belongs in front of the end marker.
* **Later helpers do not disturb the order** (`Factoring.Orderly.rounds`): the rules made so far do not mention them.
-/

namespace TableParser

/-! ## Nothing to do -/

theorem Rule.Direct.recursiveAlternatives_eq {r : Rule} (h : r.Direct) : r.recursiveAlternatives = [] := by
  unfold Rule.recursiveAlternatives
  cases hr : r.alternatives with
  | nil => rfl
  | cons a rest => exact List.takeWhile_cons_of_neg (Bool.eq_false_iff.mp (h a (hr ▸ List.mem_cons_self)))

theorem RecursionRemoval.step_of_direct {r : Rule} (h : r.Direct) (s : RecursionRemoval) :
    (s.step r).result = .ok { s with done := s.done ++ [r] } := by
  unfold step
  rw [h.recursiveAlternatives_eq]
  rfl

/-- **Rules without left recursion are kept.** -/
theorem Grammar.removeLeftRecursion_of_direct {g : Grammar} (h : ∀ r ∈ g.rules, r.Direct) (order : Registry) :
    (g.removeLeftRecursion order).result = .ok ⟨g, false, order⟩ := by
  have hfold : (g.rules.foldlM RecursionRemoval.step ⟨[], g.nonterminals, order, false⟩).result =
      .ok ⟨[] ++ g.rules.map id, g.nonterminals, order, false⟩ := by
    rw [Trail.result_foldlM]
    exact foldlM_appends (fun done => RecursionRemoval.mk done g.nonterminals order false)
      (fun r hr done => RecursionRemoval.step_of_direct (h r hr) _) []
  unfold removeLeftRecursion
  rw [Trail.result_bind, hfold, List.map_id]
  rfl

/-- Where no two alternatives begin alike, there is no run to factor out. -/
theorem Factor.ofAlternatives_of_prefixFree {alternatives : List Alternative} (h : PrefixFree alternatives) :
    ofAlternatives alternatives = none := by
  cases hf : ofAlternatives alternatives with
  | none => rfl
  | some f =>
    have hf := splits_of_ofAlternatives hf
    have hfree := h.sublist hf.run_sublist
    have htwo := hf.two_le
    match hrun : f.run, htwo with
    | a :: b :: run, _ =>
      rw [hrun] at hfree
      have hnil := commonLength_eq_zero_iff.mp ((List.pairwise_cons.mp hfree).1 b List.mem_cons_self) f.stem
        (hf.begins a (by simp [hrun])) (hf.begins b (by simp [hrun]))
      exact absurd hnil hf.stem_ne_nil

theorem PrefixFree.sorted {r : Rule} (h : PrefixFree r.alternatives) (order : Registry) :
    PrefixFree (r.sorted order).alternatives :=
  ((sortBy_perm _).pairwise_iff fun hab => (commonLength_comm _ _).trans hab).mpr h

theorem GrammarFactoring.step_of_prefixFree {ε : Type} {r : Rule} (h : PrefixFree r.alternatives) (done : List Rule)
    (taken : List Symbol) (order : Registry) :
    (step ⟨done, taken, order, false⟩ r : Reported ε GrammarFactoring).result =
      .ok ⟨done ++ [r.sorted order], taken, order, false⟩ := by
  have hrounds : ∀ fuel, Factoring.rounds fuel ⟨r.sorted order, [], 2, taken, order⟩ =
      (pure ⟨r.sorted order, [], 2, taken, order⟩ : Reported ε Factoring) := by
    intro fuel
    cases fuel with
    | zero => rfl
    | succ fuel =>
      unfold Factoring.rounds
      rw [Factor.ofAlternatives_of_prefixFree (h.sorted order)]
  unfold step Factoring.ofRule
  rw [hrounds]
  rfl

/-- **Rules without common beginnings are sorted**, and that is all. -/
theorem Grammar.leftFactor_of_prefixFree {ε : Type} {g : Grammar} (h : ∀ r ∈ g.rules, PrefixFree r.alternatives)
    (order : Registry) :
    (g.leftFactor order : Reported ε Transformation).result = .ok ⟨g.sorted order, false, order⟩ := by
  have hfold : (g.rules.foldlM GrammarFactoring.step ⟨[], g.nonterminals, order, false⟩ :
      Reported ε GrammarFactoring).result =
        .ok ⟨[] ++ g.rules.map fun r => r.sorted order, g.nonterminals, order, false⟩ := by
    rw [Trail.result_foldlM]
    exact foldlM_appends (fun done => GrammarFactoring.mk done g.nonterminals order false)
      (fun r hr done => GrammarFactoring.step_of_prefixFree (h r hr) done g.nonterminals order) []
  unfold leftFactor
  rw [Trail.result_bind, hfold]
  rfl

/-! ## Alternatives in order -/

/-- Strings without anything in common begin with different symbols. -/
theorem head?_ne_of_commonLength {xs ys : List Symbol} (h : commonLength xs ys = 0) {s : Symbol}
    (hx : xs.head? = some s) : ys.head? ≠ some s := by
  intro hy
  obtain ⟨xs, rfl⟩ := List.head?_eq_some_iff.mp hx
  obtain ⟨ys, rfl⟩ := List.head?_eq_some_iff.mp hy
  unfold commonLength at h
  rw [if_pos rfl] at h
  cases h

namespace Registry

variable {order : Registry} {s : Symbol}

theorem rank_of_builtins (h : fresh.symbols <+: order.symbols) : order.rank Symbol.endMarker = 0 ∧
    order.rank Symbol.epsilon = 1 ∧ (s ≠ Symbol.endMarker → s ≠ Symbol.epsilon → 1 < order.rank s) := by
  obtain ⟨rest, hrest⟩ := h
  unfold rank
  rw [← hrest]
  refine ⟨rfl, rfl, fun hmarker hempty => ?_⟩
  show 1 < List.idxOf s (Symbol.endMarker :: Symbol.epsilon :: (_ ++ rest))
  rw [List.idxOf_cons_ne _ hmarker.symm, List.idxOf_cons_ne _ hempty.symm]
  omega

theorem compare_of_rank_lt {u : Symbol} (h : order.rank s < order.rank u) : order.compare s u = .lt := by
  unfold compare
  rw [Nat.compare_eq_lt.mpr h]
  rfl

/-- The end marker comes before every other symbol. -/
theorem compare_endMarker (h : fresh.symbols <+: order.symbols) (hs : s ≠ Symbol.endMarker) :
    order.compare Symbol.endMarker s = .lt := by
  obtain ⟨hmarker, hempty, hother⟩ := rank_of_builtins (s := s) h
  refine compare_of_rank_lt ?_
  by_cases heq : s = Symbol.epsilon
  · rw [hmarker, heq, hempty]
    exact Nat.zero_lt_one
  · rw [hmarker]
    exact Nat.zero_lt_of_lt (hother hs heq)

/-- The empty derivation comes before every other symbol but the end marker. -/
theorem compare_epsilon (h : fresh.symbols <+: order.symbols) (hs : s ≠ Symbol.endMarker) (hs' : s ≠ Symbol.epsilon) :
    order.compare Symbol.epsilon s = .lt := by
  obtain ⟨_, hempty, hother⟩ := rank_of_builtins (s := s) h
  exact compare_of_rank_lt (hempty ▸ hother hs hs')

/-- What the end marker begins comes behind everything else. -/
theorem compareStrings_of_endMarker (h : fresh.symbols <+: order.symbols) {xs ys : List Symbol}
    (hx : xs.head? = some Symbol.endMarker) (hy : ys ≠ []) (hfree : commonLength xs ys = 0) :
    order.compareStrings xs ys = .gt := by
  have hne := head?_ne_of_commonLength hfree hx
  obtain ⟨xs, rfl⟩ := List.head?_eq_some_iff.mp hx
  obtain ⟨y, ys, rfl⟩ := List.exists_cons_of_ne_nil hy
  have hne : y ≠ Symbol.endMarker := fun heq => hne (congrArg some heq)
  rw [compareStrings, if_neg hne.symm]
  exact Std.OrientedCmp.gt_of_lt (compare_endMarker h hne)

/-- A common beginning does not decide. -/
theorem compareStrings_append (order : Registry) (p xs ys : List Symbol) :
    order.compareStrings (p ++ xs) (p ++ ys) = order.compareStrings xs ys := by
  induction p with
  | nil => rfl
  | cons s p ih => rw [List.cons_append, List.cons_append, compareStrings, if_pos rfl, ih]

end Registry

/-- The end marker begins the first alternative, and the second one is the empty derivation: sorted, they stand the
other way around. -/
structure Alternative.OutOfOrder (a b : Alternative) : Prop where
  marker : a.symbols.head? = some Symbol.endMarker
  empty : b.symbols = [Symbol.epsilon]

theorem Alternative.OutOfOrder.compareStrings_eq {a b : Alternative} {order : Registry} (h : a.OutOfOrder b)
    (horder : Registry.fresh.symbols <+: order.symbols) : order.compareStrings a.symbols b.symbols = .gt := by
  obtain ⟨xs, hxs⟩ := List.head?_eq_some_iff.mp h.marker
  rw [hxs, h.empty, Registry.compareStrings, if_neg (by decide)]
  exact Std.OrientedCmp.gt_of_lt (Registry.compare_endMarker horder (by decide))

/-- Where the last two elements stand does not matter for a sort that turns them around. -/
theorem sortBy_append_pair {α : Type} {le : α → α → Bool} {a b : α} (hab : le a b = false) (hba : le b a = true)
    (front : List α) : sortBy le (front ++ [a, b]) = sortBy le (front ++ [b, a]) := by
  unfold sortBy
  rw [List.foldr_append, List.foldr_append]
  simp only [List.foldr_cons, List.foldr_nil, insertBy, hab, hba, Bool.false_eq_true, if_true, if_false]

namespace Rule

variable {r r' : Rule} {order : Registry} {a b : Alternative}

/-- The alternatives are in order, but for an empty derivation behind the end marker. -/
def Ordered (r : Rule) (order : Registry) : Prop :=
  r.alternatives.Pairwise fun a b => (order.compareStrings a.symbols b.symbols).isLE = true ∨ a.OutOfOrder b

/-- The last two alternatives are out of order in the first rule, and the other way around in the second one. -/
inductive Swaps : Rule → Rule → Prop
  | swap (lhs : Symbol) (front : List Alternative) {a b : Alternative} (h : a.OutOfOrder b) :
    Swaps ⟨lhs, front ++ [a, b]⟩ ⟨lhs, front ++ [b, a]⟩

/-- Without left recursion, alternatives compare by their symbols. -/
theorem Direct.compareAlternatives_eq (h : r.Direct) (ha : a ∈ r.alternatives) (hb : b ∈ r.alternatives) :
    r.compareAlternatives order a b = order.compareStrings a.symbols b.symbols :=
  compareAlternatives_of_eq ((h a ha).trans (h b hb).symm)

/-- Sorting leaves alternatives that are in order where they are. -/
theorem sorted_eq_self (hdirect : r.Direct)
    (h : r.alternatives.Pairwise fun a b => (order.compareStrings a.symbols b.symbols).isLE = true) :
    r.sorted order = r := by
  have heq : (r.sorted order).alternatives = r.alternatives := sortBy_eq_self <| h.imp_of_mem fun ha hb hab => by
    rwa [hdirect.compareAlternatives_eq ha hb]
  exact congrArg (Rule.mk r.lhs) heq

/-- Sorted without left recursion, alternatives are in the order of their symbols. -/
theorem Direct.pairwise_sorted (h : (r.sorted order).Direct) :
    (r.sorted order).alternatives.Pairwise fun a b => (order.compareStrings a.symbols b.symbols).isLE = true := by
  refine (r.pairwise_sorted order).imp_of_mem fun {a b} ha hb hab => ?_
  rwa [← h.compareAlternatives_eq ha hb]

section Sorted

variable (hfree : PrefixFree r.alternatives) (horder : Registry.fresh.symbols <+: order.symbols) (h : r.Ordered order)
include hfree horder h

/-- Turned around, the last two alternatives are in order with all others. -/
theorem Swaps.inOrder (hs : r.Swaps r') :
    r'.alternatives.Pairwise fun a b => (order.compareStrings a.symbols b.symbols).isLE = true := by
  obtain @⟨lhs, front, a, b, hab⟩ := hs
  obtain ⟨hfront, _, hcross⟩ := List.pairwise_append.mp h
  obtain ⟨_, hpairFree, hcrossFree⟩ := List.pairwise_append.mp hfree
  refine List.pairwise_append.mpr ⟨?_, ?_, ?_⟩
  · refine hfront.imp_of_mem fun {x y} _ hy hxy => hxy.resolve_right fun hout => ?_
    have hfree := hcrossFree y hy b (List.mem_cons_of_mem a List.mem_cons_self)
    rw [hout.empty, hab.empty] at hfree
    cases hfree
  · rw [List.pairwise_pair, Std.OrientedCmp.lt_of_gt (hab.compareStrings_eq horder)]
    rfl
  · intro x hx y hy
    rcases List.mem_cons.mp hy with rfl | hy
    · refine (hcross x hx y (List.mem_cons_of_mem a List.mem_cons_self)).resolve_right fun hout => ?_
      exact head?_ne_of_commonLength (hcrossFree x hx a List.mem_cons_self) hout.marker hab.marker
    · obtain rfl := List.mem_singleton.mp hy
      refine (hcross x hx y List.mem_cons_self).resolve_right fun hout => ?_
      have hhead := hab.marker
      rw [hout.empty] at hhead
      exact absurd (Option.some.inj hhead) (by decide)

/-- Sorting turns the last two alternatives around. -/
theorem Swaps.sorted_eq (hdirect : r.Direct) (hs : r.Swaps r') : r.sorted order = r' := by
  have hinOrder := hs.inOrder hfree horder h
  obtain @⟨lhs, front, a, b, hab⟩ := hs
  have ha : a ∈ front ++ [a, b] := List.mem_append_right front List.mem_cons_self
  have hb : b ∈ front ++ [a, b] := List.mem_append_right front (List.mem_cons_of_mem a List.mem_cons_self)
  have hperm : (front ++ [b, a]).Perm (front ++ [a, b]) := (List.Perm.swap a b []).append_left front
  -- both are sorted by the same order, which looks at nothing of a rule but its left-hand side
  let le : Alternative → Alternative → Bool := fun x y =>
    ((⟨lhs, front ++ [a, b]⟩ : Rule).compareAlternatives order x y).isLE
  have hgt := hab.compareStrings_eq horder
  have hle : le a b = false := by
    show ((⟨lhs, front ++ [a, b]⟩ : Rule).compareAlternatives order a b).isLE = false
    rw [hdirect.compareAlternatives_eq ha hb, hgt]
    rfl
  have hle' : le b a = true := by
    show ((⟨lhs, front ++ [a, b]⟩ : Rule).compareAlternatives order b a).isLE = true
    rw [hdirect.compareAlternatives_eq hb ha, Std.OrientedCmp.lt_of_gt hgt]
    rfl
  calc (⟨lhs, front ++ [a, b]⟩ : Rule).sorted order
      = ⟨lhs, sortBy le (front ++ [a, b])⟩ := rfl
    _ = ⟨lhs, sortBy le (front ++ [b, a])⟩ := by rw [sortBy_append_pair hle hle' front]
    _ = (⟨lhs, front ++ [b, a]⟩ : Rule).sorted order := rfl
    _ = ⟨lhs, front ++ [b, a]⟩ := sorted_eq_self (fun x hx => hdirect x (hperm.mem_iff.mp hx)) hinOrder

/-- Alternatives out of order are the last two. -/
theorem exists_swaps (hr : r.Proper) (hpair : [a, b].Sublist r.alternatives) (hab : a.OutOfOrder b) :
    ∃ r', r.Swaps r' := by
  obtain ⟨front, rest, happend, hb⟩ : ∃ front rest, r.alternatives = front ++ a :: rest ∧ b ∈ rest := by
    obtain ⟨l₁, l₂, happend, ha, hb⟩ := List.cons_sublist_iff.mp hpair
    obtain ⟨front, middle, rfl⟩ := List.append_of_mem ha
    exact ⟨front, middle ++ l₂, by rw [happend, List.append_assoc, List.cons_append],
      List.mem_append_right middle (List.singleton_sublist.mp hb)⟩
  unfold Ordered at h
  unfold PrefixFree at hfree
  rw [happend] at h hfree
  obtain ⟨hbehind, _⟩ := List.pairwise_cons.mp (List.pairwise_append.mp h).2.1
  obtain ⟨hbehindFree, hrestFree⟩ := List.pairwise_cons.mp (List.pairwise_append.mp hfree).2.1
  -- behind the end marker, only the empty derivation is not out of order in earnest
  have hempty : ∀ c ∈ rest, c.symbols = [Symbol.epsilon] := by
    intro c hc
    rcases hbehind c hc with hle | hout
    · rw [Registry.compareStrings_of_endMarker horder hab.marker (hr.symbols_ne_nil c (by simp [happend, hc]))
        (hbehindFree c hc)] at hle
      cases hle
    · exact hout.empty
  have hrest : rest = [b] := by
    match rest, hb, hempty, hrestFree with
    | [c], hb, _, _ => rw [List.mem_singleton.mp hb]
    | c :: d :: rest, _, hempty, hrestFree =>
      have hfree := (List.pairwise_cons.mp hrestFree).1 d List.mem_cons_self
      rw [hempty c List.mem_cons_self, hempty d (List.mem_cons_of_mem c List.mem_cons_self)] at hfree
      cases hfree
  obtain ⟨lhs, alternatives⟩ := r
  dsimp only at happend
  rw [happend, hrest]
  exact ⟨_, .swap lhs front hab⟩

theorem sorted_eq_self_of_not_swaps (hr : r.Proper) (hdirect : r.Direct) (hnone : ∀ r', ¬r.Swaps r') :
    r.sorted order = r := by
  refine sorted_eq_self hdirect (List.pairwise_iff_forall_sublist.mpr fun hpair => ?_)
  refine (List.pairwise_iff_forall_sublist.mp h hpair).resolve_right fun hout => ?_
  obtain ⟨r', hs⟩ := exists_swaps hfree horder h hr hpair hout
  exact hnone r' hs

end Sorted

end Rule

/-! ## Alternatives of helpers -/

/-- Alternatives that are not left-recursive are put behind the others. -/
theorem Rule.alternatives_addAll {r : Rule} {alternatives : List Alternative}
    (h : ∀ a ∈ alternatives, a.symbols.head? ≠ some r.lhs) :
    (r.addAll alternatives).alternatives = r.alternatives ++ alternatives := by
  have hbehind : ∀ a ∈ alternatives, r.isLeftRecursive a = false := fun a ha => isLeftRecursive_eq_false_iff.mpr (h a ha)
  have hfront : alternatives.filter r.isLeftRecursive = [] := by simpa using hbehind
  have hall : (alternatives.filter fun a => !r.isLeftRecursive a) = alternatives := by simpa using hbehind
  rw [alternatives_addAll_eq, hfront, hall, List.reverse_nil, List.nil_append]

namespace Factor.Splits

variable {f : Factor} {r : Rule} {helper : Symbol} {order : Registry}

/-- The alternatives of the helper are the rests of the run, in its order. -/
theorem alternatives_factored (hf : f.Splits r.alternatives) (hnt : helper.isNonterminal = true)
    (hfresh : ∀ a ∈ r.alternatives, helper ∉ a.symbols) : (f.factored helper).alternatives = f.run.map f.rest := by
  refine Rule.alternatives_addAll fun b hb => ?_
  have hhead := Rule.isLeftRecursive_eq_false_iff.mp (direct_factored hf hnt hfresh b (perm_factored.mem_iff.mpr hb))
  rwa [lhs_factored] at hhead

/-- **The alternatives of the helper are in order**, since those of the rule were; only the empty derivation may stand
behind the end marker. -/
theorem ordered_factored (hf : f.Splits r.alternatives) (hr : r.Proper)
    (horder : Registry.fresh.symbols <+: order.symbols)
    (h : r.alternatives.Pairwise fun a b => (order.compareStrings a.symbols b.symbols).isLE = true)
    (hnt : helper.isNonterminal = true) (hfresh : ∀ a ∈ r.alternatives, helper ∉ a.symbols) :
    (f.factored helper).Ordered order := by
  unfold Rule.Ordered
  rw [hf.alternatives_factored hnt hfresh, List.pairwise_map]
  refine ((h.and hr.nodup).sublist hf.run_sublist).imp_of_mem fun {a b} ha hb ⟨hle, hne⟩ => ?_
  rw [← hf.symbols_eq ha, ← hf.symbols_eq hb, Registry.compareStrings_append] at hle
  have hempty := epsilon_not_mem_suffix hr hf ha
  unfold rest
  dsimp only
  generalize hxs : a.symbols.drop f.stem.length = xs at hle hempty
  generalize hys : b.symbols.drop f.stem.length = ys at hle
  cases ys with
  | cons y ys =>
    cases xs with
    | nil => cases hle
    | cons x xs => exact .inl hle
  | nil =>
    cases xs with
    | nil =>
      have hsame : a.symbols = b.symbols := by rw [← hf.symbols_eq ha, ← hf.symbols_eq hb, hxs, hys]
      exact absurd
        (List.inj_on_of_nodup_map hr.nodup_symbols (hf.run_sublist.subset ha) (hf.run_sublist.subset hb) hsame) hne
    | cons x xs =>
      by_cases hmarker : x = Symbol.endMarker
      · exact .inr ⟨congrArg some hmarker, rfl⟩
      · have hne : x ≠ Symbol.epsilon := fun heq => hempty (heq ▸ List.mem_cons_self)
        refine .inl ?_
        show (order.compareStrings (x :: xs) [Symbol.epsilon]).isLE = true
        rw [Registry.compareStrings, if_neg hne, Registry.compare_epsilon horder hmarker hne]
        rfl

end Factor.Splits

/-! ## Later helpers -/

/-- The orders put all symbols the same way but for nonterminals that are not taken. -/
def Registry.Agrees (order order' : Registry) (taken : List Symbol) : Prop :=
  ∀ s u : Symbol, (s.isNonterminal = true → s ∈ taken) → (u.isNonterminal = true → u ∈ taken) →
    order'.compare s u = order.compare s u

namespace Registry

variable {order order' order'' : Registry} {taken taken' : List Symbol} {helper : Symbol}

theorem Agrees.trans (h : order.Agrees order' taken) (h' : order'.Agrees order'' taken') (hsub : taken ⊆ taken') :
    order.Agrees order'' taken := fun s u hs hu =>
  (h' s u (fun hnt => hsub (hs hnt)) fun hnt => hsub (hu hnt)).trans (h s u hs hu)

theorem rank_intern (hh : helper ∉ order.symbols) {s : Symbol} (hs : s ≠ helper) :
    (order.intern helper).rank s = if order.rank s < order.symbols.length then order.rank s else order.rank s + 1 := by
  unfold intern rank
  rw [if_neg fun hknown => hh (knows_iff.mp hknown)]
  dsimp only
  split
  · rename_i hlt
    exact List.idxOf_append_of_mem (List.idxOf_lt_length_iff.mp hlt)
  · rename_i hlt
    have hmem : s ∉ order.symbols := fun hmem => hlt (List.idxOf_lt_length_iff.mpr hmem)
    rw [List.idxOf_append_of_notMem hmem, List.idxOf_cons_ne _ hs.symm, List.idxOf_nil, List.idxOf_eq_length hmem]

theorem rank_lt_iff_of_intern {s u : Symbol} (hs : s ≠ helper) (hu : u ≠ helper) :
    (order.intern helper).rank s < (order.intern helper).rank u ↔ order.rank s < order.rank u := by
  by_cases hh : helper ∈ order.symbols
  · rw [intern_of_mem hh]
  have hsle : order.rank s ≤ order.symbols.length := List.idxOf_le_length
  have hule : order.rank u ≤ order.symbols.length := List.idxOf_le_length
  rw [rank_intern hh hs, rank_intern hh hu]
  split <;> split <;> omega

/-- A symbol made known leaves the order of all others as it is. -/
theorem compare_intern {s u : Symbol} (hs : s ≠ helper) (hu : u ≠ helper) :
    (order.intern helper).compare s u = order.compare s u := by
  have hrank : Ord.compare ((order.intern helper).rank s) ((order.intern helper).rank u) =
      Ord.compare (order.rank s) (order.rank u) := by
    simp only [Nat.compare_eq_ite_lt, rank_lt_iff_of_intern hs hu, rank_lt_iff_of_intern hu hs]
  unfold compare
  rw [hrank]

theorem agrees_intern (hnt : helper.isNonterminal = true) (hh : helper ∉ taken) :
    order.Agrees (order.intern helper) taken := by
  intro s u hs hu
  refine compare_intern ?_ ?_
  · rintro rfl
    exact hh (hs hnt)
  · rintro rfl
    exact hh (hu hnt)

theorem Agrees.compareStrings_eq (h : order.Agrees order' taken) {xs ys : List Symbol}
    (hx : ∀ s ∈ xs, s.isNonterminal = true → s ∈ taken) (hy : ∀ s ∈ ys, s.isNonterminal = true → s ∈ taken) :
    order'.compareStrings xs ys = order.compareStrings xs ys := by
  induction xs generalizing ys with
  | nil => cases ys <;> rfl
  | cons x xs ih =>
    obtain ⟨hx₁, hx⟩ := List.forall_mem_cons.mp hx
    cases ys with
    | nil => rfl
    | cons y ys =>
      obtain ⟨hy₁, hy⟩ := List.forall_mem_cons.mp hy
      rw [compareStrings, compareStrings, ih hx hy, h y x hy₁ hx₁]

end Registry

theorem Rule.Ordered.of_agrees {r : Rule} {order order' : Registry} {taken : List Symbol} (h : r.Ordered order)
    (hin : r.Within taken) (hagrees : order.Agrees order' taken) : r.Ordered order' :=
  h.imp_of_mem fun {a b} ha hb hab => by rwa [hagrees.compareStrings_eq (hin a ha) (hin b hb)]

namespace Factoring

variable {ε : Type} {s s' s'' : Factoring} {f : Factor}

/-- What holds between the rounds for a rule: it is sorted, its helpers are in order, and all nonterminals are taken. -/
structure Orderly (s : Factoring) : Prop where
  proper : s.rule.Proper
  direct : s.rule.Direct
  builtins : Registry.fresh.symbols <+: s.order.symbols
  inOrder : s.rule.alternatives.Pairwise fun a b => (s.order.compareStrings a.symbols b.symbols).isLE = true
  helpers : ∀ x ∈ s.helpers, x.Ordered s.order
  within : ∀ x ∈ s.rules, x.Within s.taken

/-- More nonterminals are taken, and those taken before are in the same order. -/
structure Extends (s s' : Factoring) : Prop where
  taken : s.taken ⊆ s'.taken
  agrees : s.order.Agrees s'.order s.taken

theorem Extends.refl (s : Factoring) : s.Extends s := ⟨fun _ hx => hx, fun _ _ _ _ => rfl⟩

theorem Extends.trans (h : s.Extends s') (h' : s'.Extends s'') : s.Extends s'' :=
  ⟨fun _ hx => h'.taken (h.taken hx), h.agrees.trans h'.agrees h.taken⟩

/-- What one round leads to. -/
theorem exists_round (s : Factoring) (f : Factor) : ∃ helper next, helper.isNonterminal = true ∧ helper ∉ s.taken ∧
    (s.round f : Reported ε Factoring).result = .ok ⟨(f.replaced s.rule.lhs helper).sorted (s.order.intern helper),
      f.factored helper :: s.helpers, next, insertSymbol s.taken helper, s.order.intern helper⟩ :=
  ⟨_, _, rfl, Transformation.helper_freshIndex_not_mem s.rule.lhs s.taken s.next, rfl⟩

/-- **A round keeps rules in order**: the new helper is, and the others do not mention it. -/
theorem Orderly.round (hs : s.Orderly) (hf : f.Splits s.rule.alternatives)
    (h : (s.round f : Reported ε Factoring).result = .ok s') : s'.Orderly ∧ s.Extends s' := by
  obtain ⟨helper, next, hnt, hnot, hround⟩ := exists_round (ε := ε) s f
  obtain rfl := Except.ok.inj (hround.symm.trans h)
  have hin : s.rule.Within s.taken := hs.within s.rule List.mem_cons_self
  have hfresh : ∀ a ∈ s.rule.alternatives, helper ∉ a.symbols := hin.not_mem hnt hnot
  have hsub : s.taken ⊆ insertSymbol s.taken helper := fun x hx => mem_insertSymbol.mpr (.inl hx)
  have hagrees : s.order.Agrees (s.order.intern helper) s.taken := Registry.agrees_intern hnt hnot
  have hfactored := hf.ordered_factored hs.proper hs.builtins hs.inOrder hnt hfresh
  have hdirect : ((f.replaced s.rule.lhs helper).sorted (s.order.intern helper)).Direct :=
    Factor.direct_replaced hf hs.direct (s.order.intern helper)
  refine ⟨⟨hf.proper_replaced hs.proper hnt hfresh, hdirect,
    hs.builtins.trans (s.order.symbols_isPrefix_intern helper), hdirect.pairwise_sorted, ?_, ?_⟩, hsub, hagrees⟩
  · rw [List.forall_mem_cons]
    exact ⟨hfactored.of_agrees (Factor.within_factored hf hin) hagrees, fun x hx =>
      (hs.helpers x hx).of_agrees (hs.within x (List.mem_cons_of_mem _ hx)) hagrees⟩
  · unfold rules
    rw [List.forall_mem_cons, List.forall_mem_cons]
    exact ⟨Factor.within_replaced hf hin, (Factor.within_factored hf hin).mono hsub, fun x hx =>
      (hs.within x (List.mem_cons_of_mem _ hx)).mono hsub⟩

/-- **All rounds keep rules in order.** -/
theorem Orderly.rounds {fuel : Nat} (hs : s.Orderly) (h : (rounds fuel s : Reported ε Factoring).result = .ok s') :
    s'.Orderly ∧ s.Extends s' := by
  induction fuel generalizing s with
  | zero =>
    cases h
    exact ⟨hs, .refl _⟩
  | succ fuel ih =>
    unfold Factoring.rounds at h
    split at h
    · cases h
      exact ⟨hs, .refl _⟩
    · rename_i f hf
      obtain ⟨next, hnext, h⟩ := Trail.result_bind_eq_ok_iff.mp h
      obtain ⟨hnext, hextends⟩ := hs.round (Factor.splits_of_ofAlternatives hf) hnext
      obtain ⟨hlast, hrest⟩ := ih hnext h
      exact ⟨hlast, hextends.trans hrest⟩

/-- A rule is sorted before its rounds. -/
theorem orderly_sorted {r : Rule} {taken : List Symbol} {order : Registry} (hr : r.Proper) (hdirect : r.Direct)
    (horder : Registry.fresh.symbols <+: order.symbols) (hin : r.Within taken) :
    Orderly ⟨r.sorted order, [], 2, taken, order⟩ where
  proper := hr.of_perm rfl (sortBy_perm _)
  direct := hdirect.sorted order
  builtins := horder
  inOrder := (hdirect.sorted order).pairwise_sorted
  helpers := nofun
  within := by
    intro x hx a ha
    obtain rfl := List.mem_singleton.mp hx
    exact hin a ((sortBy_perm _).mem_iff.mp ha)

theorem Orderly.ordered (hs : s.Orderly) : ∀ x ∈ s.rules, x.Ordered s.order :=
  List.forall_mem_cons.mpr ⟨hs.inOrder.imp .inl, hs.helpers⟩

end Factoring

/-- **Factored rules are in order**, but for empty derivations behind the end marker. -/
theorem Grammar.ordered_of_leftFactor {ε : Type} {g : Grammar} {order : Registry} {t : Transformation}
    (hg : g.WellFormed) (hdirect : ∀ r ∈ g.rules, r.Direct) (horder : Registry.fresh.symbols <+: order.symbols)
    (h : (g.leftFactor order : Reported ε Transformation).result = .ok t) :
    Registry.fresh.symbols <+: t.order.symbols ∧ ∀ r ∈ t.grammar.rules, r.Ordered t.order := by
  unfold leftFactor at h
  obtain ⟨s, hs, h⟩ := Trail.result_bind_eq_ok_iff.mp h
  rw [Trail.result_foldlM] at hs
  cases h
  suffices hall : Registry.fresh.symbols <+: s.order.symbols ∧ (∀ x ∈ g.nonterminals, x ∈ s.taken) ∧
      ∀ x ∈ s.done, x.Within s.taken ∧ x.Ordered s.order from ⟨hall.1, fun x hx => (hall.2.2 x hx).2⟩
  refine foldlM_invariant (P := fun s : GrammarFactoring => Registry.fresh.symbols <+: s.order.symbols ∧
    (∀ x ∈ g.nonterminals, x ∈ s.taken) ∧ ∀ x ∈ s.done, x.Within s.taken ∧ x.Ordered s.order) hs
    ⟨horder, fun _ hx => hx, nofun⟩ fun r hr s s' ⟨hbuiltins, htaken, hdone⟩ hstep => ?_
  unfold GrammarFactoring.step Factoring.ofRule at hstep
  obtain ⟨factoring, hfactoring, hstep⟩ := Trail.result_bind_eq_ok_iff.mp hstep
  cases hstep
  have hin : r.Within s.taken := (within_nonterminals hr).mono htaken
  obtain ⟨hlast, hextends⟩ := (Factoring.orderly_sorted (hg.proper r hr) (hdirect r hr) hbuiltins hin).rounds hfactoring
  refine ⟨hlast.builtins, fun x hx => hextends.taken (htaken x hx),
    List.forall_mem_append.mpr ⟨fun x hx => ?_, fun x hx => ?_⟩⟩
  · obtain ⟨hx, hordered⟩ := hdone x hx
    exact ⟨hx.mono hextends.taken, hordered.of_agrees hx hextends.agrees⟩
  · exact ⟨hlast.within x hx, hlast.ordered x hx⟩

/-! ## Applied again -/

/-- Both transformations report no change; the first one keeps the grammar, and the second one makes it another one. -/
structure Grammar.Settles (c : Grammar) (order : Registry) (c' : Grammar) : Prop where
  removal : (c.removeLeftRecursion order).result = .ok ⟨c, false, order⟩
  factoring : (c.leftFactor order : Reported Fault Transformation).result = .ok ⟨c', false, order⟩

section Settled

variable {c : Grammar} {order : Registry} (hdirect : ∀ r ∈ c.rules, r.Direct)
  (hfree : ∀ r ∈ c.rules, PrefixFree r.alternatives)
include hdirect hfree

theorem Grammar.settles_into_sorted : c.Settles order (c.sorted order) :=
  ⟨removeLeftRecursion_of_direct hdirect order, leftFactor_of_prefixFree hfree order⟩

/-- Sorted alternatives are in order already. -/
theorem Grammar.sorted_settles : (c.sorted order).Settles order (c.sorted order) := by
  have hall : ∀ r ∈ (c.sorted order).rules, r.Direct ∧ PrefixFree r.alternatives ∧ r.sorted order = r := by
    rintro _ hmem
    obtain ⟨r, hr, rfl⟩ := List.mem_map.mp hmem
    have hsorted := (hdirect r hr).sorted order
    exact ⟨hsorted, (hfree r hr).sorted order, Rule.sorted_eq_self hsorted hsorted.pairwise_sorted⟩
  have hself : (c.sorted order).sorted order = c.sorted order :=
    congrArg Grammar.mk ((List.map_congr_left fun r hr => (hall r hr).2.2).trans (List.map_id _))
  have hsettles : (c.sorted order).Settles order ((c.sorted order).sorted order) :=
    settles_into_sorted (fun r hr => (hall r hr).1) fun r hr => (hall r hr).2.1
  rwa [hself] at hsettles

end Settled

/-- A rule that does not mention the end marker has no alternatives out of order. -/
theorem Rule.not_swaps {r r' : Rule} (h : ∀ a ∈ r.alternatives, Symbol.endMarker ∉ a.symbols) : ¬r.Swaps r' := by
  rintro @⟨lhs, front, a, b, hab⟩
  exact h a (List.mem_append_right front List.mem_cons_self) (List.mem_of_head? hab.marker)

/-- **Both transformations settle.** Applied again, neither of them reports a change, and the second one only swaps the
last two alternatives where they are out of order, which takes a grammar with the end marker. Applied once more, they
change nothing. -/
theorem Grammar.settles_of_leftFactor {steps : List DefinitionStep} {g : Grammar} {before order : Registry}
    {u : Transformation} (hg : (Grammar.define steps).result = .ok g)
    (hu : (g.removeLeftRecursion before).result = .ok u) (horder : Registry.fresh.symbols <+: order.symbols) :
    ∃ t c, (u.grammar.leftFactor order : Reported Fault Transformation).result = .ok t ∧ t.grammar.Settles t.order c ∧
      c.Settles t.order c ∧ (Symbol.endMarker ∉ g.terminals → c = t.grammar) ∧
      List.Forall₂ (fun r r' => r.Swaps r' ∨ r' = r ∧ ∀ x, ¬r.Swaps x) t.grammar.rules c.rules := by
  have hwell := wellFormed_of_define hg
  have hremoved := addsHelpers_of_removeLeftRecursion hwell hu
  have hdirect := direct_of_removeLeftRecursion hwell (recursionInFront_of_define hg) hu
  obtain ⟨t, ht⟩ := exists_leftFactor (ε := Fault) u.grammar order
  have hfactored := addsHelpers_of_leftFactor hremoved.wellFormed ht
  obtain ⟨hbuiltins, hordered⟩ := ordered_of_leftFactor hremoved.wellFormed hdirect horder ht
  have hdirect := direct_of_leftFactor hremoved.wellFormed hdirect ht
  have hfree := prefixFree_of_leftFactor hremoved.wellFormed ht
  have hsorted : ∀ r ∈ t.grammar.rules, r.Swaps (r.sorted t.order) ∨ r.sorted t.order = r ∧ ∀ x, ¬r.Swaps x := by
    intro r hr
    have hproper := hfactored.wellFormed.proper r hr
    by_cases hnone : ∀ x, ¬r.Swaps x
    · have hself := Rule.sorted_eq_self_of_not_swaps (hfree r hr) hbuiltins (hordered r hr) hproper (hdirect r hr) hnone
      exact .inr ⟨hself, hnone⟩
    · obtain ⟨x, hx⟩ := not_forall_not.mp hnone
      refine .inl ?_
      rwa [hx.sorted_eq (hfree r hr) hbuiltins (hordered r hr) (hdirect r hr)]
  refine ⟨t, t.grammar.sorted t.order, ht, settles_into_sorted hdirect hfree, sorted_settles hdirect hfree,
    fun hmarker => ?_, ?_⟩
  · have hmarker : Symbol.endMarker ∉ t.grammar.terminals := fun hmem =>
      hmarker (((hremoved.trans hfactored).terminals_iff _ (by decide)).mp hmem)
    refine congrArg Grammar.mk ((List.map_congr_left fun r hr => ?_).trans (List.map_id _))
    refine ((hsorted r hr).resolve_left (Rule.not_swaps fun a ha hmem => hmarker ?_)).1
    exact mem_terminals.mpr ⟨rfl, r.lhs, a, ⟨r, hr, rfl, ha⟩, hmem⟩
  · exact List.forall₂_map_right_iff.mpr (List.forall₂_same.mpr hsorted)

section Applied

open TableParser.Symbol

/-- Sums with a sign behind them, factored once, stay as they are. -/
theorem Grammar.settles_of_leftFactor_postfix : Registry.fresh.symbols <+: Registry.fresh.symbols ∧
    ∃ g u t, (Grammar.define postfixSteps).result = .ok g ∧ (g.removeLeftRecursion .fresh).result = .ok u ∧
      (u.grammar.leftFactor .fresh : Reported Fault Transformation).result = .ok t ∧ t.grammar = factoredPostfix ∧
      t.grammar.Settles t.order t.grammar := by
  have heval : ((Grammar.define postfixSteps).result.toOption.any fun g =>
      (g.removeLeftRecursion .fresh).result.toOption.any fun u =>
        (u.grammar.leftFactor .fresh : Reported Fault Transformation).result.toOption.any fun t =>
          t.grammar = factoredPostfix ∧ endMarker ∉ g.terminals) = true := by rfl
  obtain ⟨g, hg, hrest⟩ := exists_ok_of_any heval
  obtain ⟨u, hu, hrest⟩ := exists_ok_of_any hrest
  obtain ⟨t', ht', hrules⟩ := exists_ok_of_any hrest
  obtain ⟨hrules, hmarker⟩ := of_decide_eq_true hrules
  have hbuiltins : Registry.fresh.symbols <+: Registry.fresh.symbols := List.prefix_rfl
  obtain ⟨t, c, ht, hsettles, _, hsame, _⟩ := Grammar.settles_of_leftFactor hg hu hbuiltins
  obtain rfl := Except.ok.inj (ht.symm.trans ht')
  rw [hsame hmarker] at hsettles
  exact ⟨hbuiltins, g, u, t, hg, hu, ht, hrules, hsettles⟩

/-- One alternative goes on with the end marker where the other one ends. -/
def markedSteps : List DefinitionStep := [
  .rule (nonterminal "S") [terminal "a", endMarker] none,
  .rule (nonterminal "S") [terminal "a"] none]

/-- The helper with the empty derivation behind the end marker. -/
def factoredMarked : Grammar := ⟨[
  ⟨nonterminal "S", [⟨[terminal "a", nonterminal "S_2"], none⟩]⟩,
  ⟨nonterminal "S_2", [⟨[endMarker], none⟩, ⟨[epsilon], none⟩]⟩]⟩

/-- The helper with the empty derivation in front of the end marker. -/
def settledMarked : Grammar := ⟨[
  ⟨nonterminal "S", [⟨[terminal "a", nonterminal "S_2"], none⟩]⟩,
  ⟨nonterminal "S_2", [⟨[epsilon], none⟩, ⟨[endMarker], none⟩]⟩]⟩

/-- Both transformations, applied again, report no change, but they turn the alternatives of the helper around. -/
theorem Grammar.not_settled_marked : ∃ g u t, (Grammar.define markedSteps).result = .ok g ∧
    (g.removeLeftRecursion .fresh).result = .ok u ∧
    (u.grammar.leftFactor u.order : Reported Fault Transformation).result = .ok t ∧ t.grammar = factoredMarked ∧
    factoredMarked.Settles t.order settledMarked ∧ settledMarked ≠ factoredMarked :=
  ⟨_, _, _, rfl, rfl, rfl, rfl, ⟨rfl, rfl⟩, by decide⟩

end Applied

end TableParser
