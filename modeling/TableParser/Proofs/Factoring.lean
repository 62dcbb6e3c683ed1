import Mathlib.Data.List.Chain
import TableParser.LL.Factoring
import TableParser.Proofs.Expansion
import TableParser.Proofs.LeftRecursion

/-!
# Left factoring keeps translations

Factoring common beginnings out changes neither what a nonterminal derives nor the actions on the way, and keeps the
shape of the grammar (`Grammar.retranslates_of_leftFactor`). The scan for the run to factor out is right in that all
alternatives of the run begin with the stem (`Factor.splits_of_ofAlternatives`), and the helper stands for what the
alternatives of the run have behind it.
-/

namespace TableParser

/-! ## Common beginnings -/

theorem take_commonLength (xs ys : List Symbol) : xs.take (commonLength xs ys) = ys.take (commonLength xs ys) := by
  induction xs generalizing ys with
  | nil =>
    unfold commonLength
    rw [List.take_zero, List.take_zero]
  | cons x xs ih =>
    cases ys with
    | nil =>
      unfold commonLength
      rw [List.take_zero, List.take_zero]
    | cons y ys =>
      unfold commonLength
      split
      · rename_i hxy
        rw [hxy, List.take_succ_cons, List.take_succ_cons, ih]
      · rw [List.take_zero, List.take_zero]

theorem commonLength_le_left (xs ys : List Symbol) : commonLength xs ys ≤ xs.length := by
  induction xs generalizing ys with
  | nil => exact Nat.le_refl 0
  | cons x xs ih =>
    cases ys with
    | nil => exact Nat.zero_le _
    | cons y ys =>
      unfold commonLength
      split
      · exact Nat.succ_le_succ (ih ys)
      · exact Nat.zero_le _

namespace Factor

/-- The alternatives begin with the same symbols, and these are so many. -/
def Shares (n : Nat) (alternatives : List Alternative) : Prop :=
  ∃ stem : List Symbol, stem.length = n ∧ ∀ a ∈ alternatives, stem <+: a.symbols

theorem shares_pair (a b : Alternative) : Shares (commonLength a.symbols b.symbols) [a, b] := by
  refine ⟨a.symbols.take (commonLength a.symbols b.symbols), ?_, ?_⟩
  · rw [List.length_take, Nat.min_eq_left (commonLength_le_left _ _)]
  · intro c hc
    rcases List.mem_cons.mp hc with rfl | hc
    · exact List.take_prefix _ _
    · rw [List.mem_singleton.mp hc, take_commonLength]
      exact List.take_prefix _ _

/-- A run goes on as long as the next alternative has as much in common with its last one. -/
theorem Shares.snoc {n : Nat} {run : List Alternative} {a b : Alternative} (h : Shares n run) (ha : a ∈ run)
    (hab : commonLength a.symbols b.symbols = n) : Shares n (run ++ [b]) := by
  obtain ⟨stem, hlen, hstem⟩ := h
  refine ⟨stem, hlen, fun c hc => ?_⟩
  rcases List.mem_append.mp hc with hc | hc
  · exact hstem c hc
  · have heq := List.prefix_iff_eq_take.mp (hstem a ha)
    rw [hlen, ← hab, take_commonLength] at heq
    rw [List.mem_singleton.mp hc, heq]
    exact List.take_prefix _ _

/-- A run of alternatives each of which has as much in common with the next one, and less is in common at both of its
ends. -/
structure IsRun (n : Nat) (before run after : List Alternative) : Prop where
  ne_nil : run ≠ []
  links : run.IsChain fun a b => commonLength a.symbols b.symbols = n
  shares : Shares n run
  two_le : n ≠ 0 → 2 ≤ run.length
  before_lt : ∀ a ∈ before.getLast?, ∀ b ∈ run.head?, commonLength a.symbols b.symbols < n
  after_lt : ∀ a ∈ run.getLast?, ∀ b ∈ after.head?, commonLength a.symbols b.symbols < n

namespace IsRun

variable {n : Nat} {before run after : List Alternative} {a b : Alternative}

theorem singleton (a : Alternative) : IsRun 0 [] [a] [] :=
  ⟨List.cons_ne_nil a [], List.isChain_singleton a, ⟨[], rfl, fun _ _ => List.nil_prefix⟩, fun h => absurd rfl h, nofun, nofun⟩

/-- A run ends where less is in common. -/
theorem stop (h : IsRun n before (run ++ [a]) []) (hab : commonLength a.symbols b.symbols < n) (after : List Alternative) :
    IsRun n before (run ++ [a]) (b :: after) := by
  refine ⟨h.ne_nil, h.links, h.shares, h.two_le, h.before_lt, fun x hx y hy => ?_⟩
  rw [List.getLast?_concat] at hx
  cases hx
  cases hy
  exact hab

/-- Where more is in common, a new run begins. -/
theorem restart (h : IsRun n before (run ++ [a]) []) (hfirst : run = [] → before = [])
    (hab : n < commonLength a.symbols b.symbols) :
    IsRun (commonLength a.symbols b.symbols) (before ++ run) [a, b] [] := by
  refine ⟨List.cons_ne_nil a [b], List.isChain_pair.mpr rfl, shares_pair a b, fun _ => Nat.le_refl 2, fun x hx y hy => ?_, nofun⟩
  cases hy
  rcases List.eq_nil_or_concat run with rfl | ⟨init, _, rfl⟩
  · rw [hfirst rfl] at hx
    cases hx
  · -- the last link of the run so far
    rw [List.concat_eq_append, ← List.append_assoc, List.getLast?_concat] at hx
    cases hx
    have hlink := (List.isChain_append.mp h.links).2.2 x (by simp) a rfl
    rw [hlink]
    exact hab

/-- Where as much is in common, the run goes on. -/
theorem snoc (h : IsRun n before (run ++ [a]) []) (hab : commonLength a.symbols b.symbols = n) :
    IsRun n before (run ++ [a] ++ [b]) [] := by
  refine ⟨List.append_ne_nil_of_right_ne_nil _ (List.cons_ne_nil b []),
    List.isChain_append.mpr ⟨h.links, List.isChain_singleton b, fun x hx y hy => ?_⟩,
    h.shares.snoc (List.mem_append_right _ List.mem_cons_self) hab, fun _ => ?_, fun x hx y hy => ?_, nofun⟩
  · rw [List.getLast?_concat] at hx
    cases hx
    cases hy
    exact hab
  · simp
  · refine h.before_lt x hx y ?_
    rwa [List.head?_append_of_ne_nil _ h.ne_nil] at hy

/-- Nothing stands beside a run of alternatives that have nothing in common. -/
theorem eq_nil_of_zero (h : IsRun 0 before run after) : before = [] ∧ after = [] := by
  have ha := List.head?_eq_some_head h.ne_nil
  have hb := List.getLast?_eq_some_getLast h.ne_nil
  constructor
  · refine List.getLast?_eq_none_iff.mp (Option.eq_none_iff_forall_not_mem.mpr fun x hx => ?_)
    exact Nat.not_lt_zero _ (h.before_lt x hx _ ha)
  · refine List.head?_eq_none_iff.mp (Option.eq_none_iff_forall_not_mem.mpr fun x hx => ?_)
    exact Nat.not_lt_zero _ (h.after_lt _ hb x hx)

end IsRun

/-- **The scan finds a run**: what it has passed is a run up to its end, and what stands before it. -/
theorem isRun_of_scan {before run rest : List Alternative} {a : Alternative} {n start stop length : Nat}
    (h : scan before.length n (before.length + run.length + 1) a rest = (start, stop, length))
    (hfirst : run = [] → before = []) (hrun : IsRun n before (run ++ [a]) []) :
    ∃ before' run' after', before' ++ (run' ++ after') = before ++ (run ++ a :: rest) ∧ start = before'.length ∧
      stop = before'.length + run'.length ∧ IsRun length before' run' after' := by
  induction rest generalizing before run a n with
  | nil =>
    cases h
    exact ⟨before, run ++ [a], [], by rw [List.append_nil], rfl,
      by rw [List.length_append, List.length_singleton, Nat.add_assoc], hrun⟩
  | cons b rest ih =>
    unfold scan at h
    dsimp only at h
    split at h
    · rename_i hless
      cases h
      exact ⟨before, run ++ [a], b :: rest, by rw [List.append_assoc, List.singleton_append], rfl,
        by rw [List.length_append, List.length_singleton, Nat.add_assoc], hrun.stop hless rest⟩
    · split at h
      · rename_i hmore
        have h' : scan (before ++ run).length (commonLength a.symbols b.symbols) ((before ++ run).length + [a].length + 1) b
            rest = (start, stop, length) := by
          rw [List.length_append]
          exact h
        obtain ⟨before', run', after', happend, hrest⟩ := ih h' nofun (hrun.restart hfirst hmore)
        exact ⟨before', run', after', happend.trans (List.append_assoc _ _ _), hrest⟩
      · rename_i hnot hnot'
        have hsame := Nat.le_antisymm (Nat.le_of_not_lt hnot') (Nat.le_of_not_lt hnot)
        have h' : scan before.length n (before.length + (run ++ [a]).length + 1) b rest = (start, stop, length) := by
          rw [List.length_append]
          exact h
        obtain ⟨before', run', after', happend, hrest⟩ := ih h' (fun hnil => by simp at hnil) (hrun.snoc hsame)
        refine ⟨before', run', after', happend.trans ?_, hrest⟩
        rw [List.append_assoc, List.singleton_append]

/-- What a factor has to be: a run of two alternatives at least that begin with the stem, and what is around it. -/
structure Splits (f : Factor) (alternatives : List Alternative) : Prop where
  append_eq : f.before ++ (f.run ++ f.after) = alternatives
  two_le : 2 ≤ f.run.length
  stem_ne_nil : f.stem ≠ []
  begins : ∀ a ∈ f.run, f.stem <+: a.symbols

/-- The alternatives are those of the run that the scan finds, and those around it. -/
theorem exists_isRun_of_scan {a : Alternative} {rest : List Alternative} {start stop length : Nat}
    (h : scan 0 0 1 a rest = (start, stop, length)) : ∃ before run after, before ++ (run ++ after) = a :: rest ∧
      (a :: rest).take start = before ∧ ((a :: rest).take stop).drop start = run ∧ (a :: rest).drop stop = after ∧
      IsRun length before run after := by
  obtain ⟨before, run, after, happend, rfl, rfl, hrun⟩ :=
    @isRun_of_scan [] [] rest a 0 start stop length h (fun _ => rfl) (IsRun.singleton a)
  have happend : before ++ (run ++ after) = a :: rest := happend
  have htake : (a :: rest).take (before.length + run.length) = before ++ run := by
    rw [← happend, ← List.append_assoc, ← List.length_append, List.take_left]
  refine ⟨before, run, after, happend, ?_, ?_, ?_, hrun⟩
  · rw [← happend, List.take_left]
  · rw [htake, List.drop_left]
  · rw [← happend, ← List.append_assoc, ← List.length_append, List.drop_left]

/-- **The run to factor out** begins with the stem throughout, and less is in common at its ends. -/
theorem isRun_of_ofAlternatives {alternatives : List Alternative} {f : Factor}
    (h : ofAlternatives alternatives = some f) : f.Splits alternatives ∧ IsRun f.stem.length f.before f.run f.after := by
  cases alternatives with
  | nil => cases h
  | cons a rest =>
    unfold ofAlternatives at h
    dsimp only at h
    generalize hscan : scan 0 0 1 a rest = result at h
    obtain ⟨start, stop, length⟩ := result
    obtain ⟨before, run, after, happend, hbefore, hmiddle, hafter, hrun⟩ := exists_isRun_of_scan hscan
    dsimp only at h
    rw [hbefore, hmiddle, hafter] at h
    split at h
    · cases h
    rename_i hne
    cases h
    obtain ⟨stem, hstem, hall⟩ := hrun.shares
    have hstem' : (run.head?.map fun b => b.symbols.take length).getD [] = stem := by
      cases run with
      | nil => exact absurd (hrun.two_le hne) (by decide)
      | cons b run =>
        have hb := List.prefix_iff_eq_take.mp (hall b List.mem_cons_self)
        rw [hstem] at hb
        exact hb.symm
    dsimp only
    rw [hstem', hstem]
    exact ⟨⟨happend, hrun.two_le hne, List.ne_nil_of_length_pos (hstem ▸ Nat.pos_of_ne_zero hne), hall⟩, hrun⟩

theorem splits_of_ofAlternatives {alternatives : List Alternative} {f : Factor}
    (h : ofAlternatives alternatives = some f) : f.Splits alternatives :=
  (isRun_of_ofAlternatives h).1

/-- Without a factor, no two neighbours have anything in common. -/
theorem links_of_ofAlternatives_eq_none {alternatives : List Alternative} (h : ofAlternatives alternatives = none) :
    alternatives.IsChain fun a b => commonLength a.symbols b.symbols = 0 := by
  cases alternatives with
  | nil => exact List.isChain_nil
  | cons a rest =>
    unfold ofAlternatives at h
    dsimp only at h
    generalize hscan : scan 0 0 1 a rest = result at h
    obtain ⟨start, stop, length⟩ := result
    dsimp only at h
    split at h
    · rename_i hzero
      subst hzero
      obtain ⟨before, run, after, happend, _, _, _, hrun⟩ := exists_isRun_of_scan hscan
      obtain ⟨rfl, rfl⟩ := hrun.eq_nil_of_zero
      rw [← happend, List.nil_append, List.append_nil]
      exact hrun.links
    · cases h

/-! ## Alternatives of both rules -/

variable {f : Factor} {r : Rule} {helper lhs : Symbol} {order : Registry} {a b : Alternative}

theorem perm_replaced : ((f.replaced lhs helper).sorted order).alternatives.Perm
    (⟨f.stem ++ [helper], none⟩ :: (f.before ++ f.after)) := by
  refine (sortBy_perm _).trans (Rule.perm_alternatives_addAll.trans ?_)
  rw [List.append_nil]

theorem perm_factored : (f.factored helper).alternatives.Perm (f.run.map f.rest) := by
  refine Rule.perm_alternatives_addAll.trans ?_
  rw [List.append_nil]

@[simp] theorem lhs_factored : (f.factored helper).lhs = helper := Rule.lhs_addAll _ _

theorem mem_replaced : b ∈ ((f.replaced lhs helper).sorted order).alternatives ↔
    b = ⟨f.stem ++ [helper], none⟩ ∨ b ∈ f.before ++ f.after :=
  perm_replaced.mem_iff.trans List.mem_cons

theorem mem_factored : b ∈ (f.factored helper).alternatives ↔ ∃ a ∈ f.run, f.rest a = b :=
  perm_factored.mem_iff.trans List.mem_map

/-- What is left of an alternative is read like what it has behind the stem. -/
theorem interprets_rest {S : Interpretation} {w : List Symbol} {acts : List String} :
    Interprets S (f.rest a).symbols w acts ↔ Interprets S (a.symbols.drop f.stem.length) w acts := by
  unfold rest
  dsimp only
  split
  · rename_i hempty
    rw [List.isEmpty_iff.mp hempty]
    exact interprets_epsilon
  · exact Iff.rfl

namespace Splits

theorem mem_iff (hf : f.Splits r.alternatives) : a ∈ r.alternatives ↔ a ∈ f.run ∨ a ∈ f.before ++ f.after := by
  rw [← hf.append_eq, List.mem_append, List.mem_append, List.mem_append, or_left_comm]

theorem run_sublist {alternatives : List Alternative} (hf : f.Splits alternatives) : f.run.Sublist alternatives := by
  rw [← hf.append_eq]
  exact (List.sublist_append_left f.run f.after).trans (List.sublist_append_right f.before _)

theorem exists_mem {alternatives : List Alternative} (hf : f.Splits alternatives) : ∃ a, a ∈ f.run :=
  List.exists_mem_of_length_pos (Nat.lt_of_lt_of_le Nat.two_pos hf.two_le)

theorem symbols_eq {alternatives : List Alternative} (hf : f.Splits alternatives) (ha : a ∈ f.run) :
    f.stem ++ a.symbols.drop f.stem.length = a.symbols := by
  conv_lhs => lhs; rw [List.prefix_iff_eq_take.mp (hf.begins a ha)]
  exact List.take_append_drop _ _

section Proper

variable (hr : r.Proper) (hf : f.Splits r.alternatives)
include hr hf

/-- No alternative of the run is among the others. -/
theorem not_mem_others (ha : a ∈ f.run) : a ∉ f.before ++ f.after := by
  have hnodup : (f.before ++ (f.run ++ f.after)).Nodup := hf.append_eq ▸ hr.nodup
  obtain ⟨_, hrun, hbefore⟩ := List.nodup_append.mp hnodup
  intro hmem
  rcases List.mem_append.mp hmem with hmem | hmem
  · exact hbefore a hmem a (List.mem_append_left _ ha) rfl
  · exact (List.nodup_append.mp hrun).2.2 a ha a hmem rfl

/-- The run has two alternatives with different symbols. -/
theorem exists_symbols_ne : ∃ a ∈ f.run, ∃ b ∈ f.run, a.symbols ≠ b.symbols := by
  have hnodup := hr.nodup_symbols.sublist (hf.run_sublist.map Alternative.symbols)
  have htwo := hf.two_le
  match hrun : f.run, htwo with
  | a :: b :: run, _ =>
    rw [hrun] at hnodup
    refine ⟨a, List.mem_cons_self, b, List.mem_cons_of_mem a List.mem_cons_self, fun heq => ?_⟩
    exact (List.nodup_cons.mp hnodup).1 (List.mem_cons.mpr (.inl heq))

/-- The stem holds no empty derivation, since no two alternatives are the same. -/
theorem epsilon_not_mem_stem : Symbol.epsilon ∉ f.stem := by
  intro he
  have hall : ∀ a ∈ f.run, a.symbols = [Symbol.epsilon] := fun a ha =>
    hr.epsilonAlone a (hf.mem_iff.mpr (.inl ha)) ((hf.begins a ha).subset he)
  obtain ⟨a, ha, b, hb, hne⟩ := hf.exists_symbols_ne hr
  exact hne ((hall a ha).trans (hall b hb).symm)

theorem epsilon_not_mem_suffix (ha : a ∈ f.run) : Symbol.epsilon ∉ a.symbols.drop f.stem.length := by
  intro he
  have heq := hr.epsilonAlone a (hf.mem_iff.mpr (.inl ha)) (List.mem_of_mem_drop he)
  have hmem : ∀ s ∈ f.stem, s = Symbol.epsilon := fun s hs =>
    List.mem_singleton.mp (heq ▸ (hf.begins a ha).subset hs)
  obtain ⟨s, rest, hstem⟩ := List.exists_cons_of_ne_nil hf.stem_ne_nil
  have hs : s ∈ f.stem := hstem ▸ List.mem_cons_self
  exact epsilon_not_mem_stem hr hf (hmem s hs ▸ hs)

theorem proper_replaced (hhelper : helper.isNonterminal = true)
    (hnot : ∀ a ∈ r.alternatives, helper ∉ a.symbols) : ((f.replaced r.lhs helper).sorted order).Proper := by
  have hothers : ∀ {a}, a ∈ f.before ++ f.after → a ∈ r.alternatives := fun ha => hf.mem_iff.mpr (.inr ha)
  refine Rule.Proper.of_perm (r := ⟨r.lhs, ⟨f.stem ++ [helper], none⟩ :: (f.before ++ f.after)⟩)
    ⟨hr.nonterminal_lhs, ?_, ?_, ?_⟩ (Rule.lhs_addAll _ _) perm_replaced
  · intro b hb
    rcases List.mem_cons.mp hb with rfl | hb
    · exact List.append_ne_nil_of_right_ne_nil _ (List.cons_ne_nil helper [])
    · exact hr.symbols_ne_nil b (hothers hb)
  · intro b hb he
    rcases List.mem_cons.mp hb with rfl | hb
    · rcases List.mem_append.mp he with he | he
      · exact absurd he (epsilon_not_mem_stem hr hf)
      · exact absurd (List.mem_singleton.mp he).symm (Symbol.ne_epsilon_of_isNonterminal hhelper)
    · exact hr.epsilonAlone b (hothers hb) he
  · refine List.nodup_cons.mpr ⟨?_, ?_⟩
    · intro hmem
      obtain ⟨b, hb, heq⟩ := List.mem_map.mp hmem
      exact hnot b (hothers hb) (heq ▸ List.mem_append_right _ List.mem_cons_self)
    · refine hr.nodup_symbols.sublist (List.Sublist.map _ ?_)
      rw [← hf.append_eq]
      exact (List.sublist_append_right f.run f.after).append_left f.before

theorem proper_factored (hhelper : helper.isNonterminal = true) : (f.factored helper).Proper := by
  refine Rule.Proper.addAll ⟨hhelper, ?_, ?_, ?_⟩
  · intro b hb
    obtain ⟨a, _, rfl⟩ := List.mem_map.mp hb
    unfold rest
    dsimp only
    split
    · exact List.cons_ne_nil _ _
    · rename_i hne
      exact fun hnil => hne (List.isEmpty_iff.mpr hnil)
  · intro b hb
    obtain ⟨a, ha, rfl⟩ := List.mem_map.mp hb
    unfold rest
    dsimp only
    split
    · exact fun _ => rfl
    · exact fun he => absurd he (epsilon_not_mem_suffix hr hf ha)
  · refine Rule.nodup_map_symbols (hr.nodup_symbols.sublist (hf.run_sublist.map _)) fun a ha b hb heq => ?_
    have hdrop : a.symbols.drop f.stem.length = b.symbols.drop f.stem.length := by
      unfold rest at heq
      dsimp only at heq
      split at heq <;> rename_i hea <;> split at heq <;> rename_i heb
      · rw [List.isEmpty_iff.mp hea, List.isEmpty_iff.mp heb]
      · exact absurd (heq ▸ List.mem_singleton.mpr rfl) (epsilon_not_mem_suffix hr hf hb)
      · exact absurd (heq ▸ List.mem_singleton.mpr rfl) (epsilon_not_mem_suffix hr hf ha)
      · exact heq
    rw [← hf.symbols_eq ha, ← hf.symbols_eq hb, hdrop]

/-- **A rule is replaced** by one that has the run factored out and the rule of the helper. -/
theorem replaces (order : Registry) (hhelper : helper.isNonterminal = true) (hnot : ∀ a ∈ r.alternatives, helper ∉ a.symbols) :
    r.Replaces ((f.replaced r.lhs helper).sorted order) (f.factored helper) := by
  refine ⟨Rule.lhs_addAll _ _, proper_replaced hr hf hhelper hnot, proper_factored hr hf hhelper, fun s hs _ hsh => ?_⟩
  have hsh' : s ≠ helper := fun heq => hsh (heq.trans lhs_factored.symm)
  constructor
  · rintro ⟨b, hb, hsb⟩
    rcases List.mem_append.mp hb with hb | hb
    · rcases mem_replaced.mp hb with rfl | hb
      · have hstem := (List.mem_append.mp hsb).resolve_right fun hh => hsh' (List.mem_singleton.mp hh)
        obtain ⟨a, ha⟩ := hf.exists_mem
        exact ⟨a, hf.mem_iff.mpr (.inl ha), (hf.begins a ha).subset hstem⟩
      · exact ⟨b, hf.mem_iff.mpr (.inr hb), hsb⟩
    · obtain ⟨a, ha, rfl⟩ := mem_factored.mp hb
      refine ⟨a, hf.mem_iff.mpr (.inl ha), ?_⟩
      unfold rest at hsb
      dsimp only at hsb
      split at hsb
      · exact absurd (List.mem_singleton.mp hsb) hs
      · exact List.mem_of_mem_drop hsb
  · rintro ⟨a, ha, hsa⟩
    rcases hf.mem_iff.mp ha with ha | ha
    · rw [← hf.symbols_eq ha] at hsa
      rcases List.mem_append.mp hsa with hsa | hsa
      · exact ⟨_, List.mem_append_left _ (mem_replaced.mpr (.inl rfl)), List.mem_append_left _ hsa⟩
      · refine ⟨f.rest a, List.mem_append_right _ (mem_factored.mpr ⟨a, ha, rfl⟩), ?_⟩
        unfold rest
        dsimp only
        split
        · rename_i hempty
          rw [List.isEmpty_iff.mp hempty] at hsa
          cases hsa
        · exact hsa
    · exact ⟨a, List.mem_append_left _ (mem_replaced.mpr (.inr ha)), hsa⟩

end Proper
end Splits
end Factor

/-! ## What is translated -/

section Language

variable {P Q : Productions} {r : Rule} {f : Factor} {helper lhs : Symbol} {order : Registry} {w : List Symbol}
  {acts : List String} {a b : Alternative}

/-- The productions after a run was factored out of a rule. -/
abbrev Factored (P Q : Productions) (r : Rule) (f : Factor) (helper : Symbol) (order : Registry) : Prop :=
  Helped P Q r ((f.replaced r.lhs helper).sorted order) (f.factored helper) helper

namespace Factored

theorem tail_iff (h : Factored P Q r f helper order) : Q helper b ↔ ∃ a ∈ f.run, f.rest a = b :=
  (h.tail b).trans Factor.mem_factored

/-- **The new productions translate** what the old ones do. -/
theorem translates_of_old (h : Factored P Q r f helper order) (hf : f.Splits r.alternatives)
    (hl : lhs.isNonterminal = true) (hw : Translates P [lhs] w acts) : Translates Q [lhs] w acts := by
  have hread := hw.interprets (S := fun lhs w acts => Translates Q [lhs] w acts) fun lhs a v acts hl hp ha => by
    have hgen : Translates Q a.symbols v acts := Translates.iff_interprets.mpr ha
    by_cases hlhs : lhs = r.lhs
    · subst hlhs
      rcases hf.mem_iff.mp ((h.old a).mp hp) with hrun | hother
      · rw [← hf.symbols_eq hrun] at hgen
        obtain ⟨x, y, acts₁, acts₂, rfl, rfl, hx, hy⟩ := hgen.of_append
        have hrest : Translates Q (f.rest a).symbols y acts₂ :=
          Translates.iff_interprets.mpr (Factor.interprets_rest.mpr (Translates.iff_interprets.mp hy))
        have hhelper := Translates.of_alternative h.nonterminal (h.tail_iff.mpr ⟨a, hrun, rfl⟩) hrest
        have := Translates.of_alternative hl ((h.head _).mpr (Factor.mem_replaced.mpr (.inl rfl))) (hx.append hhelper)
        rw [Option.toList_none, List.append_nil, ← List.append_assoc] at this
        exact this
      · exact .of_alternative hl ((h.head a).mpr (Factor.mem_replaced.mpr (.inr hother))) hgen
    · exact .of_alternative hl ((h.other _ a hlhs (h.ne_helper hp)).mpr hp) hgen
  exact (interprets_singleton hl).mp hread

/-- **The old productions translate** what the new ones do: a helper stands for what an alternative of the run has behind
the stem, and for its action. -/
theorem translates_of_new (h : Factored P Q r f helper order) (hf : f.Splits r.alternatives)
    (hl : lhs.isNonterminal = true) (hne : lhs ≠ helper) (hw : Translates Q [lhs] w acts) :
    Translates P [lhs] w acts := by
  have hread := hw.interprets (S := fun lhs w acts => (lhs ≠ helper → Translates P [lhs] w acts) ∧
    (lhs = helper → ∃ a ∈ f.run, ∃ acts', Translates P (a.symbols.drop f.stem.length) w acts' ∧
      acts = acts' ++ a.action.toList)) fun lhs b v acts hl hp hb => by
      have hold : ∀ {α v acts}, helper ∉ α → Interprets (fun lhs w acts => (lhs ≠ helper → Translates P [lhs] w acts) ∧
          (lhs = helper → ∃ a ∈ f.run, ∃ acts', Translates P (a.symbols.drop f.stem.length) w acts' ∧
            acts = acts' ++ a.action.toList)) α v acts → Translates P α v acts := by
        intro α v acts hα hread
        refine .of_interprets hread fun lhs hmem u _ hu => hu.1 ?_
        rintro rfl
        exact hα hmem
      have hrun : ∀ {a}, a ∈ f.run → P r.lhs a := fun ha => (h.old _).mpr (hf.mem_iff.mpr (.inl ha))
      constructor
      · intro hne
        by_cases hlhs : lhs = r.lhs
        · subst hlhs
          rcases Factor.mem_replaced.mp ((h.head b).mp hp) with rfl | hother
          · obtain ⟨x, y, acts₁, acts₂, rfl, rfl, hx, hy⟩ := interprets_append.mp hb
            obtain ⟨a, ha, acts', hy', rfl⟩ := ((interprets_singleton h.nonterminal).mp hy).2 rfl
            have hsymbols := hf.symbols_eq ha
            have hx' : Translates P f.stem x acts₁ := hold (fun hmem =>
              h.not_mem _ a (hrun ha) (hsymbols ▸ List.mem_append_left _ hmem)) hx
            rw [Option.toList_none, List.append_nil, ← List.append_assoc]
            refine .of_alternative hl (hrun ha) ?_
            rw [← hsymbols]
            exact hx'.append hy'
          · have hpb : P r.lhs b := (h.old b).mpr (hf.mem_iff.mpr (.inr hother))
            exact .of_alternative hl hpb (hold (h.not_mem _ b hpb) hb)
        · have hpb := (h.other _ b hlhs hne).mp hp
          exact .of_alternative hl hpb (hold (h.not_mem _ b hpb) hb)
      · rintro rfl
        obtain ⟨a, ha, rfl⟩ := h.tail_iff.mp hp
        refine ⟨a, ha, acts, hold (fun hmem => ?_) (Factor.interprets_rest.mp hb), rfl⟩
        exact h.not_mem _ a (hrun ha) (List.mem_of_mem_drop hmem)
  exact ((interprets_singleton hl).mp hread).1 hne

end Factored
end Language

/-! ## Whole grammars -/

section Sorted

variable {r : Rule} {order : Registry} {pre post : List Rule}

theorem produces_sorted : (⟨pre ++ r.sorted order :: post⟩ : Grammar).Produces = (⟨pre ++ r :: post⟩ : Grammar).Produces := by
  have hperm : (r.sorted order).alternatives.Perm r.alternatives := sortBy_perm _
  funext lhs a
  refine propext ((produces_append [r.sorted order]).trans (Iff.trans ?_ (produces_append [r]).symm))
  rw [produces_singleton, produces_singleton, hperm.mem_iff]
  rfl

theorem mem_nonterminals_sorted {s : Symbol} : s ∈ (⟨pre ++ r.sorted order :: post⟩ : Grammar).nonterminals ↔
    s ∈ (⟨pre ++ r :: post⟩ : Grammar).nonterminals := by
  have hlhs : (⟨pre ++ r.sorted order :: post⟩ : Grammar).lhsSymbols = (⟨pre ++ r :: post⟩ : Grammar).lhsSymbols := by
    unfold Grammar.lhsSymbols
    rw [List.map_append, List.map_append]
    rfl
  rw [Grammar.mem_nonterminals, Grammar.mem_nonterminals, hlhs, produces_sorted]

/-- Sorting the alternatives of a rule changes nothing. -/
theorem retranslates_sorted (order : Registry) (hg : (⟨pre ++ r :: post⟩ : Grammar).WellFormed) :
    Grammar.Retranslates ⟨pre ++ r :: post⟩ ⟨pre ++ r.sorted order :: post⟩ := by
  refine ⟨⟨⟨?_, ?_, ?_⟩, ?_, ?_, ?_⟩, ?_⟩
  · exact List.append_ne_nil_of_right_ne_nil pre (List.cons_ne_nil _ _)
  · have hnodup := hg.nodup_lhs
    dsimp only at hnodup ⊢
    rw [List.map_append, List.map_cons] at hnodup ⊢
    exact hnodup
  · intro x hx
    rcases List.mem_append.mp hx with hx | hx
    · exact hg.proper x (List.mem_append_left _ hx)
    · rcases List.mem_cons.mp hx with rfl | hx
      · exact (hg.proper r (List.mem_append_right pre List.mem_cons_self)).of_perm rfl (sortBy_perm _)
      · exact hg.proper x (List.mem_append_right pre (List.mem_cons_of_mem r hx))
  · unfold Grammar.start
    cases pre with
    | nil => rfl
    | cons x pre => rfl
  · exact fun s hs => mem_nonterminals_sorted.mpr hs
  · intro s _
    rw [Grammar.mem_terminals, Grammar.mem_terminals, produces_sorted]
  · intro lhs _ w acts
    rw [produces_sorted]

end Sorted

section FactorOut

variable {pre post : List Rule} {r : Rule} {f : Factor} {helper : Symbol} (hg : (⟨pre ++ r :: post⟩ : Grammar).WellFormed)
  (hf : f.Splits r.alternatives) (hnt : helper.isNonterminal = true)
  (hfresh : helper ∉ (⟨pre ++ r :: post⟩ : Grammar).nonterminals) (order : Registry)
include hg hf hnt hfresh

/-- A run of alternatives of a proper rule makes way for a helper. -/
theorem Grammar.factor_replaces :
    r.Replaces ((f.replaced r.lhs helper).sorted order) (f.factored helper) := by
  have hmem : r ∈ pre ++ r :: post := List.mem_append_right pre List.mem_cons_self
  exact hf.replaces (hg.proper r hmem) order hnt ((within_nonterminals hmem).not_mem hnt hfresh)

theorem Grammar.factored_of_fresh : Factored (⟨pre ++ r :: post⟩ : Grammar).Produces
    (⟨pre ++ (f.replaced r.lhs helper).sorted order :: f.factored helper :: post⟩ : Grammar).Produces r f helper order := by
  have hH := helped_of_replaces hg (factor_replaces hg hf hnt hfresh order) (by rwa [Factor.lhs_factored])
  rwa [Factor.lhs_factored] at hH

/-- **Factoring one run out** retranslates the grammar. -/
theorem Grammar.retranslates_of_factor : Grammar.Retranslates ⟨pre ++ r :: post⟩
    ⟨pre ++ (f.replaced r.lhs helper).sorted order :: f.factored helper :: post⟩ := by
  refine ⟨reshapes_of_replaces hg (factor_replaces hg hf hnt hfresh order) (by rwa [Factor.lhs_factored]), ?_⟩
  intro lhs hlhs w acts
  have hH := factored_of_fresh hg hf hnt hfresh order
  have hl := hg.isNonterminal_of_mem hlhs
  refine ⟨hH.translates_of_old hf hl, hH.translates_of_new hf hl ?_⟩
  rintro rfl
  exact hfresh hlhs

end FactorOut

section Taken

variable {r : Rule} {f : Factor} {helper : Symbol} {taken : List Symbol}

/-- The helper takes no nonterminals but those of its rule. -/
theorem Factor.within_factored (hf : f.Splits r.alternatives)
    (hin : r.Within taken) : (f.factored helper).Within taken := by
  intro b hb x hx hnt
  obtain ⟨a, ha, rfl⟩ := mem_factored.mp hb
  unfold rest at hx
  dsimp only at hx
  split at hx
  · rw [List.mem_singleton.mp hx] at hnt
    cases hnt
  · exact hin a (hf.mem_iff.mpr (.inl ha)) x (List.mem_of_mem_drop hx) hnt

theorem Factor.within_replaced {order : Registry} (hf : f.Splits r.alternatives) (hin : r.Within taken) :
    ((f.replaced r.lhs helper).sorted order).Within (insertSymbol taken helper) := by
  intro b hb x hx hnt
  rw [mem_insertSymbol]
  rcases mem_replaced.mp hb with rfl | hb
  · rcases List.mem_append.mp hx with hx | hx
    · obtain ⟨a, ha⟩ := hf.exists_mem
      exact .inl (hin a (hf.mem_iff.mpr (.inl ha)) x ((hf.begins a ha).subset hx) hnt)
    · exact .inr (List.mem_singleton.mp hx)
  · exact .inl (hin b (hf.mem_iff.mpr (.inr hb)) x hx hnt)

end Taken

/-- One round factors a run out, with a helper that is not taken. -/
theorem Factoring.round_cases {ε : Type} {s s' : Factoring} {f : Factor}
    (h : (s.round f : Reported ε Factoring).result = .ok s') : ∃ helper order,
      helper = Transformation.helper s.rule.lhs (Transformation.freshIndex s.rule.lhs s.taken s.next) ∧
      helper.isNonterminal = true ∧ helper ∉ s.taken ∧
      s'.rules = (f.replaced s.rule.lhs helper).sorted order :: f.factored helper :: s.helpers ∧
      s'.taken = insertSymbol s.taken helper ∧
      s'.next = Transformation.freshIndex s.rule.lhs s.taken s.next + 1 := by
  unfold round at h
  dsimp only at h
  obtain ⟨_, _, h⟩ := Trail.result_bind_eq_ok_iff.mp h
  obtain ⟨_, _, h⟩ := Trail.result_bind_eq_ok_iff.mp h
  cases h
  exact ⟨_, _, rfl, rfl, Transformation.helper_freshIndex_not_mem s.rule.lhs s.taken s.next, rfl, rfl, rfl⟩

section Rounds

variable {ε : Type} {R : Grammar → Grammar → Prop} (hrefl : ∀ g, g.WellFormed → R g g)
  (htrans : ∀ {g g' g''}, R g g' → R g' g'' → R g g'')
  (hfactor : ∀ {pre post r helper} {f : Factor}, (⟨pre ++ r :: post⟩ : Grammar).WellFormed →
    f.Splits r.alternatives → helper.isNonterminal = true → helper ∉ (⟨pre ++ r :: post⟩ : Grammar).nonterminals → ∀ order,
    R ⟨pre ++ r :: post⟩ ⟨pre ++ (f.replaced r.lhs helper).sorted order :: f.factored helper :: post⟩)
include hrefl htrans hfactor

/-- All rounds for a rule, by induction on their number: what one round does to a grammar, they do. -/
theorem Factoring.rounds_induction (pre post : List Rule) {s s' : Factoring} {fuel : Nat}
    (hg : (⟨pre ++ (s.rules ++ post)⟩ : Grammar).WellFormed)
    (htaken : ∀ x ∈ (⟨pre ++ (s.rules ++ post)⟩ : Grammar).nonterminals, x ∈ s.taken)
    (h : (rounds fuel s : Reported ε Factoring).result = .ok s') :
    ((⟨pre ++ (s'.rules ++ post)⟩ : Grammar).WellFormed ∧
      R ⟨pre ++ (s.rules ++ post)⟩ ⟨pre ++ (s'.rules ++ post)⟩) ∧
      ∀ x ∈ (⟨pre ++ (s'.rules ++ post)⟩ : Grammar).nonterminals, x ∈ s'.taken := by
  induction fuel generalizing s with
  | zero =>
    cases h
    exact ⟨⟨hg, hrefl _ hg⟩, htaken⟩
  | succ fuel ih =>
    unfold rounds at h
    split at h
    · cases h
      exact ⟨⟨hg, hrefl _ hg⟩, htaken⟩
    · rename_i f hf
      have hf := Factor.splits_of_ofAlternatives hf
      obtain ⟨next, hnext, h⟩ := Trail.result_bind_eq_ok_iff.mp h
      obtain ⟨helper, order, _, hnt, hnot, hrules, htaken', _⟩ := round_cases hnext
      -- the rule in front of its helpers
      have hg : (⟨pre ++ s.rule :: (s.helpers ++ post)⟩ : Grammar).WellFormed := hg
      have hfresh : helper ∉ (⟨pre ++ s.rule :: (s.helpers ++ post)⟩ : Grammar).nonterminals := fun hmem =>
        hnot (htaken helper hmem)
      have hnextTaken : ∀ x ∈ (⟨pre ++ (next.rules ++ post)⟩ : Grammar).nonterminals, x ∈ next.taken := by
        intro x hx
        rw [hrules] at hx
        have hx := (mem_nonterminals_of_replaces hg (Grammar.factor_replaces hg hf hnt hfresh order)
          (by rwa [Factor.lhs_factored])).mp hx
        rw [Factor.lhs_factored] at hx
        rw [htaken']
        exact mem_insertSymbol.mpr (hx.imp_left (htaken x))
      have hround := hfactor hg hf hnt hfresh order
      have hwell := (Grammar.retranslates_of_factor hg hf hnt hfresh order).wellFormed
      have hnextRules : pre ++ (next.rules ++ post) =
          pre ++ (f.replaced s.rule.lhs helper).sorted order :: f.factored helper :: (s.helpers ++ post) := by
        rw [hrules]
        rfl
      rw [← hnextRules] at hround hwell
      obtain ⟨⟨hwell', hrest⟩, hlast⟩ := ih hwell hnextTaken h
      exact ⟨⟨hwell', htrans hround hrest⟩, hlast⟩

variable (hsort : ∀ {pre post r}, (⟨pre ++ r :: post⟩ : Grammar).WellFormed → ∀ order,
  R ⟨pre ++ r :: post⟩ ⟨pre ++ r.sorted order :: post⟩)
include hsort

/-- **A grammar is factored round by round**: what sorting a rule and factoring a run out do to a grammar, the whole
factoring does. -/
theorem Grammar.leftFactor_induction {g : Grammar} {order : Registry} {t : Transformation} (hg : g.WellFormed)
    (h : (g.leftFactor order : Reported ε Transformation).result = .ok t) : R g t.grammar := by
  unfold leftFactor at h
  obtain ⟨s, hs, h⟩ := Trail.result_bind_eq_ok_iff.mp h
  rw [Trail.result_foldlM] at hs
  cases h
  refine (rewrites_of_foldlM (R := fun g g' => g'.WellFormed ∧ R g g') GrammarFactoring.done GrammarFactoring.taken
    (s := ⟨[], g.nonterminals, order, false⟩) (fun g hg => ⟨hg, hrefl g hg⟩) (fun h₁ h₂ => ⟨h₂.1, htrans h₁.2 h₂.2⟩)
    (fun h => h.1) ?_ hg (fun _ hx => hx) hs).2
  intro s s' r post hg htaken h
  unfold GrammarFactoring.step at h
  obtain ⟨factoring, hfactoring, h⟩ := Trail.result_bind_eq_ok_iff.mp h
  cases h
  obtain ⟨⟨hwell, hrounds⟩, htaken'⟩ := Factoring.rounds_induction hrefl htrans hfactor s.done post
    (s := ⟨r.sorted s.order, [], 2, s.taken, s.order⟩) (retranslates_sorted s.order hg).wellFormed
    (fun x hx => htaken x (mem_nonterminals_sorted.mp hx)) hfactoring
  rw [List.append_assoc]
  exact ⟨⟨hwell, htrans (hsort hg s.order) hrounds⟩, htaken'⟩

end Rounds

/-- **Left factoring of a grammar** keeps what every nonterminal translates, and the shape of the grammar. -/
theorem Grammar.retranslates_of_leftFactor {ε : Type} {g : Grammar} {order : Registry} {t : Transformation}
    (hg : g.WellFormed) (h : (g.leftFactor order : Reported ε Transformation).result = .ok t) :
    Grammar.Retranslates g t.grammar :=
  leftFactor_induction (fun _ => .refl) .trans retranslates_of_factor (fun hg order => retranslates_sorted order hg) hg h

/-! ## Whole grammars -/

/-- Factoring a rule never fails. -/
theorem Factoring.exists_rounds {ε : Type} (fuel : Nat) (s : Factoring) :
    ∃ s', (rounds fuel s : Reported ε Factoring).result = .ok s' := by
  induction fuel generalizing s with
  | zero => exact ⟨s, rfl⟩
  | succ fuel ih =>
    unfold rounds
    split
    · exact ⟨s, rfl⟩
    · rename_i f _
      obtain ⟨next, hnext⟩ : ∃ next, (s.round f : Reported ε Factoring).result = .ok next := ⟨_, rfl⟩
      obtain ⟨s', hs'⟩ := ih next
      exact ⟨s', by rw [Trail.result_bind, bind_eq_ok_iff]; exact ⟨next, hnext, hs'⟩⟩

/-- **Left factoring never fails.** -/
theorem Grammar.exists_leftFactor {ε : Type} (g : Grammar) (order : Registry) :
    ∃ t, (g.leftFactor order : Reported ε Transformation).result = .ok t := by
  have hstep : ∀ (s : GrammarFactoring) (r : Rule),
      (∃ s', (s.step r : Reported ε GrammarFactoring).result = .ok s') ↔ True := by
    intro s r
    obtain ⟨factoring, hf⟩ := Factoring.exists_rounds (ε := ε) r.alternatives.length ⟨r.sorted s.order, [], 2, s.taken, s.order⟩
    refine iff_true_intro ?_
    unfold GrammarFactoring.step
    simp only [Trail.result_bind, bind_eq_ok_iff]
    exact ⟨_, factoring, hf, rfl⟩
  obtain ⟨s, hs⟩ := (exists_foldlM_iff hstep g.rules ⟨[], g.nonterminals, order, false⟩).mpr fun _ _ => trivial
  unfold leftFactor
  simp only [Trail.result_bind, Trail.result_foldlM, bind_eq_ok_iff]
  exact ⟨_, s, hs, rfl⟩

/-- **Left factoring keeps derivations and their actions**, whether left recursion was removed before or not: a
nonterminal has trees that spell the same strings with the same actions in post-order before and after it. -/
theorem Grammar.expansions_iff_of_leftFactor {ε : Type} {steps : List DefinitionStep} {g c : Grammar} {order : Registry}
    (hg : (Grammar.define steps).result = .ok g)
    (hc : c = g ∨ ∃ before t, (g.removeLeftRecursion before).result = .ok t ∧ c = t.grammar) :
    ∃ t, (c.leftFactor order : Reported ε Transformation).result = .ok t ∧ ∀ lhs ∈ c.nonterminals, ∀ w acts,
      (∃ d : Expansion, d.Valid c.Produces ∧ d.symbol = lhs ∧ d.yield = w ∧ d.actions = acts) ↔
        ∃ d : Expansion, d.Valid t.grammar.Produces ∧ d.symbol = lhs ∧ d.yield = w ∧ d.actions = acts := by
  have hwell : c.WellFormed := by
    rcases hc with rfl | ⟨before, t, ht, rfl⟩
    · exact wellFormed_of_define hg
    · exact (rewrites_of_removeLeftRecursion (wellFormed_of_define hg) ht).wellFormed
  obtain ⟨t, ht⟩ := exists_leftFactor (ε := ε) c order
  refine ⟨t, ht, fun lhs hlhs w acts => ?_⟩
  have hl := hwell.isNonterminal_of_mem hlhs
  rw [← translates_iff_exists_expansion hl, ← translates_iff_exists_expansion hl]
  exact (retranslates_of_leftFactor hwell ht).translates_iff lhs hlhs w acts

section Postfix

open TableParser.Symbol

/-- Numbers with sums and a sign behind them, where one alternative begins like another and stops earlier. -/
def postfixSteps : List DefinitionStep := [
  .rule (nonterminal "E") [nonterminal "E", terminal "+", nonterminal "T"] (some "add"),
  .rule (nonterminal "E") [nonterminal "E", terminal "+"] (some "post"),
  .rule (nonterminal "E") [nonterminal "T"] none,
  .rule (nonterminal "T") [number, terminal "!"] (some "bang"),
  .rule (nonterminal "T") [number] (some "num")]

/-- The rules without left recursion. -/
def unrolledPostfix : Grammar := ⟨[
  ⟨nonterminal "E", [⟨[nonterminal "T", nonterminal "E_2"], none⟩]⟩,
  ⟨nonterminal "E_2", [⟨[terminal "+", nonterminal "E_2"], some "post"⟩,
    ⟨[terminal "+", nonterminal "T", nonterminal "E_2"], some "add"⟩, ⟨[epsilon], none⟩]⟩,
  ⟨nonterminal "T", [⟨[number, terminal "!"], some "bang"⟩, ⟨[number], some "num"⟩]⟩]⟩

/-- The rules with the common beginnings factored out; the action of the shorter alternative goes to an empty one. -/
def factoredPostfix : Grammar := ⟨[
  ⟨nonterminal "E", [⟨[nonterminal "T", nonterminal "E_2"], none⟩]⟩,
  ⟨nonterminal "E_2", [⟨[terminal "+", nonterminal "E_2_2"], none⟩, ⟨[epsilon], none⟩]⟩,
  ⟨nonterminal "E_2_2", [⟨[nonterminal "T", nonterminal "E_2"], some "add"⟩,
    ⟨[nonterminal "E_2"], some "post"⟩]⟩,
  ⟨nonterminal "T", [⟨[number, nonterminal "T_2"], none⟩]⟩,
  ⟨nonterminal "T_2", [⟨[terminal "!"], some "bang"⟩, ⟨[epsilon], some "num"⟩]⟩]⟩

/-- The factored rules give sums and signs the actions that they have in the rules without left recursion. -/
theorem expansions_iff_of_leftFactor_postfix : ∃ g, (Grammar.define postfixSteps).result = .ok g ∧
    (∃ u, (g.removeLeftRecursion .fresh).result = .ok u ∧ u.grammar = unrolledPostfix) ∧
    ∃ t, (unrolledPostfix.leftFactor .fresh : Reported Fault Transformation).result = .ok t ∧
      t.grammar = factoredPostfix ∧ ∀ w acts,
        (∃ d : Expansion, d.Valid unrolledPostfix.Produces ∧ d.symbol = nonterminal "E" ∧ d.yield = w ∧ d.actions = acts) ↔
          ∃ d : Expansion, d.Valid factoredPostfix.Produces ∧ d.symbol = nonterminal "E" ∧ d.yield = w ∧
            d.actions = acts := by
  have heval : ((Grammar.define postfixSteps).result.toOption.any fun g =>
      (g.removeLeftRecursion .fresh).result.toOption.any fun u => u.grammar = unrolledPostfix) = true := by rfl
  obtain ⟨g, hg, hrest⟩ := exists_ok_of_any heval
  obtain ⟨u, hu, hunrolled⟩ := exists_ok_of_any hrest
  have hunrolled : u.grammar = unrolledPostfix := of_decide_eq_true hunrolled
  have hfactored : ((unrolledPostfix.leftFactor .fresh : Reported Fault Transformation).result.toOption.any fun t =>
      t.grammar = factoredPostfix) = true := by rfl
  obtain ⟨t', ht', hrules⟩ := exists_ok_of_any hfactored
  have hkept : ∃ t, (unrolledPostfix.leftFactor .fresh : Reported Fault Transformation).result = .ok t ∧ _ :=
    Grammar.expansions_iff_of_leftFactor hg (.inr ⟨.fresh, u, hu, hunrolled.symm⟩)
  obtain ⟨t, ht, hiff⟩ := hkept
  have heq : t = t' := Except.ok.inj (ht.symm.trans ht')
  have hrules : t.grammar = factoredPostfix := heq ▸ of_decide_eq_true hrules
  refine ⟨g, hg, ⟨u, hu, hunrolled⟩, t, ht, hrules, fun w acts => ?_⟩
  rw [← hrules]
  exact hiff _ (by decide) w acts

end Postfix

end TableParser
