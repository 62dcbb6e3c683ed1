import TableParser.Proofs.NormalForm

/-!
# Factored rules are prefix trees

The stems of a rule are the strings that are the longest common beginning of two of its alternatives (`IsStem`). Factoring
leaves the rule and one helper for each stem; the alternatives of a helper are what goes on behind its stem, up to the next
stems, and those of the rule what goes on from the empty string (`Branch`, `Rule.PrefixTree`).

* **One round** (`Factor.Groups.prefixTree`): no stem goes on from the stem of the run, so the other stems are those of the
  rule that is left, and nothing changes for them but that the helper stands for the stem.
* **The whole grammar** (`Grammar.PrefixTrees`, `Grammar.exists_prefixTrees_of_leftFactor`): factoring leaves the nodes of
  the prefix trees of all rules, whatever the order of the symbols.
-/

namespace TableParser

open Transformation (helper)

/-! ## Stems and branches -/

/-- The string is not empty, and two different alternatives have it for their longest common beginning. -/
def IsStem (alternatives : List Alternative) (p : List Symbol) : Prop :=
  p ≠ [] ∧ ∃ a ∈ alternatives, ∃ b ∈ alternatives, a ≠ b ∧ LongestCommon p a.symbols b.symbols

/-- What is left of an alternative behind a beginning; nothing left derives the empty string. -/
def Alternative.behind (a : Alternative) (p : List Symbol) : Alternative :=
  let suffix := a.symbols.drop p.length
  ⟨if suffix.isEmpty then [Symbol.epsilon] else suffix, a.action⟩

/-- What goes on behind a string: the next stems, each with its helper, and the alternatives without a further stem. -/
inductive Branch (alternatives : List Alternative) (helper : List Symbol → Symbol) (p : List Symbol) : Alternative → Prop
  | stem {q : List Symbol} (hq : IsStem alternatives q) (hpq : p <+: q) (hne : p ≠ q)
      (hnext : ∀ q', IsStem alternatives q' → p <+: q' → q' <+: q → q' = p ∨ q' = q) :
      Branch alternatives helper p ⟨q.drop p.length ++ [helper q], none⟩
  | alternative {a : Alternative} (ha : a ∈ alternatives) (hpa : p <+: a.symbols)
      (hlast : ∀ q, IsStem alternatives q → q <+: a.symbols → q.length ≤ p.length) :
      Branch alternatives helper p (a.behind p)

/-- The rules at the nodes of the prefix tree of a rule, that at the empty string in the place of the rule and those of
helpers at the stems. -/
structure Rule.PrefixTree (r : Rule) (stems : List (List Symbol)) (node : List Symbol → Rule) : Prop where
  root_lhs : (node []).lhs = r.lhs
  nodup_stems : stems.Nodup
  mem_stems_iff : ∀ p, p ∈ stems ↔ IsStem r.alternatives p
  named : ∀ p ∈ stems, ∃ n, (node p).lhs = helper r.lhs n
  nodup : ∀ p ∈ [] :: stems, (node p).alternatives.Nodup
  mem_iff : ∀ p ∈ [] :: stems, ∀ b, b ∈ (node p).alternatives ↔ Branch r.alternatives (fun q => (node q).lhs) p b

section Stems

variable {alternatives alternatives' : List Alternative} {name name' : List Symbol → Symbol} {p q xs xs' ys : List Symbol}
  {a b : Alternative}

theorem Alternative.behind_nil (h : a.symbols ≠ []) : a.behind [] = a := by
  unfold behind
  dsimp only
  rw [if_neg]
  · rfl
  · exact fun hempty => h (List.isEmpty_iff.mp hempty)

theorem Alternative.behind_append_singleton {stem : List Symbol} {x : Symbol} {action : Option String} (h : p <+: stem) :
    (⟨stem ++ [x], action⟩ : Alternative).behind p = ⟨stem.drop p.length ++ [x], action⟩ := by
  unfold behind
  dsimp only
  rw [List.drop_append_of_le_length h.length_le, if_neg]
  simp

/-- Stems do not depend on the order of the alternatives. -/
theorem isStem_congr (h : ∀ a, a ∈ alternatives ↔ a ∈ alternatives') : IsStem alternatives p ↔ IsStem alternatives' p := by
  simp only [IsStem, h]

/-- Nor do branches. -/
theorem Branch.congr (h : ∀ a, a ∈ alternatives ↔ a ∈ alternatives') (hb : Branch alternatives name p b) :
    Branch alternatives' name p b := by
  cases hb with
  | stem hq hpq hne hnext =>
    exact .stem ((isStem_congr h).mp hq) hpq hne fun q' hq' => hnext q' ((isStem_congr h).mpr hq')
  | alternative ha hpa hlast =>
    exact .alternative ((h _).mp ha) hpa fun q hq => hlast q ((isStem_congr h).mpr hq)

theorem branch_congr (h : ∀ a, a ∈ alternatives ↔ a ∈ alternatives') :
    Branch alternatives name p b ↔ Branch alternatives' name p b :=
  ⟨.congr h, .congr fun a => (h a).symm⟩

/-- Alternatives without common beginnings have no stems. -/
theorem not_isStem_of_prefixFree (h : PrefixFree alternatives) : ¬IsStem alternatives p := by
  rintro ⟨hp, a, ha, b, hb, hne, hlongest⟩
  have : Std.Symm fun a b : Alternative => commonLength a.symbols b.symbols = 0 :=
    ⟨fun a b hab => (commonLength_comm _ _).trans hab⟩
  exact hp (commonLength_eq_zero_iff.mp (h.forall ha hb hne) p hlongest.left hlongest.right)

/-- What a string has in common with others that begin with a stem does not depend on how they go on, unless the string
begins with the stem as well. -/
theorem LongestCommon.of_not_isPrefix (h : LongestCommon p xs ys) (hys : ¬q <+: ys) (hxs : q <+: xs) (hxs' : q <+: xs') :
    LongestCommon p xs' ys := by
  have hshort : ∀ {u zs}, q <+: zs → u <+: zs → u <+: ys → u <+: q := fun hz hu huy =>
    (List.prefix_or_prefix_of_prefix hu hz).resolve_right fun hqu => hys (hqu.trans huy)
  refine ⟨(hshort hxs h.left h.right).trans hxs', h.right, fun u hu huy => ?_⟩
  exact h.greatest u ((hshort hxs' hu huy).trans hxs) huy

end Stems

/-! ## One round -/

namespace Factor.Groups

variable {r : Rule} {f : Factor} {new : Symbol} {order : Registry} {name : List Symbol → Symbol} {p q : List Symbol}
  {a b : Alternative}

/-- A stem that begins with the stem of the run is that. -/
theorem eq_of_isStem (hf : f.Groups r.alternatives) (hq : IsStem r.alternatives q) (hstem : f.stem <+: q) : q = f.stem := by
  obtain ⟨_, a, ha, b, hb, hne, hlongest⟩ := hq
  have hrun : ∀ {c}, c ∈ r.alternatives → q <+: c.symbols → c ∈ f.run := fun hc hqc =>
    hf.mem_run_iff.mpr ⟨hc, hstem.trans hqc⟩
  exact hlongest.unique (hf.longest a (hrun ha hlongest.left) b (hrun hb hlongest.right) hne)

section Replaced

variable (hf : f.Groups r.alternatives) (hr : r.Proper)
include hf

include hr in
theorem isStem_stem : IsStem r.alternatives f.stem := by
  obtain ⟨a, ha, b, hb, hne⟩ := hf.exists_symbols_ne hr
  have hab : a ≠ b := fun heq => hne (congrArg Alternative.symbols heq)
  exact ⟨hf.stem_ne_nil, a, hf.mem_iff.mpr (.inl ha), b, hf.mem_iff.mpr (.inl hb), hab, hf.longest a ha b hb hab⟩

/-- Of the alternatives that are left only the one of the helper begins with the stem, so no stem of theirs does. -/
theorem not_isPrefix_of_isStem (hq : IsStem ((f.replaced r.lhs new).sorted order).alternatives q) : ¬f.stem <+: q := by
  obtain ⟨_, a, ha, b, hb, hne, hlongest⟩ := hq
  intro hstem
  have honly : ∀ {c}, c ∈ ((f.replaced r.lhs new).sorted order).alternatives → q <+: c.symbols →
      c = ⟨f.stem ++ [new], none⟩ := by
    intro c hc hqc
    exact (mem_replaced.mp hc).resolve_right fun hc => hf.alone c hc (hstem.trans hqc)
  exact hne ((honly ha hlongest.left).trans (honly hb hlongest.right).symm)

include hr in
/-- **The stems** are those of the alternatives that are left, and the stem of the run. -/
theorem isStem_iff : IsStem r.alternatives p ↔
    IsStem ((f.replaced r.lhs new).sorted order).alternatives p ∨ p = f.stem := by
  have hnew : f.stem <+: f.stem ++ [new] := List.prefix_append _ _
  have hmem : (⟨f.stem ++ [new], none⟩ : Alternative) ∈ ((f.replaced r.lhs new).sorted order).alternatives :=
    mem_replaced.mpr (.inl rfl)
  have hothers : ∀ {c}, c ∈ f.before ++ f.after → c ∈ ((f.replaced r.lhs new).sorted order).alternatives := fun hc =>
    mem_replaced.mpr (.inr hc)
  -- one of the run and one of the others have in common what the alternative of the helper has with the latter
  have hmixed : ∀ {a b}, a ∈ f.run → b ∈ f.before ++ f.after → p ≠ [] → LongestCommon p a.symbols b.symbols →
      IsStem ((f.replaced r.lhs new).sorted order).alternatives p := by
    intro a b ha hb hp hlongest
    refine ⟨hp, _, hmem, b, hothers hb, ?_, hlongest.of_not_isPrefix (hf.alone b hb) (hf.begins a ha) hnew⟩
    rintro rfl
    exact hf.alone _ hb hnew
  constructor
  · rintro ⟨hp, a, ha, b, hb, hne, hlongest⟩
    rcases hf.mem_iff.mp ha with ha | ha <;> rcases hf.mem_iff.mp hb with hb | hb
    · exact .inr (hlongest.unique (hf.longest a ha b hb hne))
    · exact .inl (hmixed ha hb hp hlongest)
    · exact .inl (hmixed hb ha hp hlongest.symm)
    · exact .inl ⟨hp, a, hothers ha, b, hothers hb, hne, hlongest⟩
  · rintro (⟨hp, a, ha, b, hb, hne, hlongest⟩ | rfl)
    · obtain ⟨c, hc⟩ := hf.exists_mem
      have hback : ∀ {b}, b ∈ f.before ++ f.after → LongestCommon p (f.stem ++ [new]) b.symbols →
          IsStem r.alternatives p := by
        intro b hb hlongest
        refine ⟨hp, c, hf.mem_iff.mpr (.inl hc), b, hf.mem_iff.mpr (.inr hb), ?_,
          hlongest.of_not_isPrefix (hf.alone b hb) hnew (hf.begins c hc)⟩
        rintro rfl
        exact hf.alone _ hb (hf.begins _ hc)
      rcases mem_replaced.mp ha with rfl | ha <;> rcases mem_replaced.mp hb with rfl | hb
      · exact absurd rfl hne
      · exact hback hb hlongest
      · exact hback ha hlongest.symm
      · exact ⟨hp, a, hf.mem_iff.mpr (.inr ha), b, hf.mem_iff.mpr (.inr hb), hne, hlongest⟩
    · exact hf.isStem_stem hr

theorem ne_stem_of_isStem (hq : IsStem ((f.replaced r.lhs new).sorted order).alternatives q) : q ≠ f.stem := by
  rintro rfl
  exact hf.not_isPrefix_of_isStem hq (List.prefix_refl _)

include hr in
/-- The alternative of the helper has no longer stem behind a string exactly if the stem of the run is the next one. -/
theorem last_iff_next (hp : p <+: f.stem) :
    (∀ q, IsStem ((f.replaced r.lhs new).sorted order).alternatives q → q <+: f.stem ++ [new] → q.length ≤ p.length) ↔
      ∀ q, IsStem r.alternatives q → p <+: q → q <+: f.stem → q = p ∨ q = f.stem := by
  have hnew : f.stem <+: f.stem ++ [new] := List.prefix_append _ _
  constructor
  · intro hlast q hq hpq hqstem
    rcases (hf.isStem_iff hr).mp hq with hq | rfl
    · exact .inl (hpq.eq_of_length_le (hlast q hq (hqstem.trans hnew))).symm
    · exact .inr rfl
  · intro hnext q hq hqstem
    have hqstem : q <+: f.stem := (List.prefix_or_prefix_of_prefix hqstem hnew).resolve_right (hf.not_isPrefix_of_isStem hq)
    rcases List.prefix_or_prefix_of_prefix hqstem hp with hqp | hpq
    · exact hqp.length_le
    · rcases hnext q ((hf.isStem_iff hr).mpr (.inl hq)) hpq hqstem with rfl | heq
      · exact Nat.le_refl _
      · exact absurd heq (hf.ne_stem_of_isStem hq)

include hr in
/-- Behind another string than the stem, the helper of the stem is what the alternative of the helper goes on with. -/
theorem branch_iff {name' : List Symbol → Symbol} (hnew : name f.stem = new) (hname : ∀ q, q ≠ f.stem → name q = name' q)
    (hp : ¬f.stem <+: p) :
    Branch r.alternatives name p b ↔ Branch ((f.replaced r.lhs new).sorted order).alternatives name' p b := by
  constructor
  · intro hb
    cases hb with
    | @stem q hq hpq hne hnext =>
      rcases (hf.isStem_iff hr).mp hq with hq | rfl
      · rw [hname q (hf.ne_stem_of_isStem hq)]
        exact .stem hq hpq hne fun q' hq' => hnext q' ((hf.isStem_iff hr).mpr (.inl hq'))
      · rw [hnew, ← Alternative.behind_append_singleton hpq]
        exact .alternative (mem_replaced.mpr (.inl rfl)) (hpq.trans (List.prefix_append _ _)) ((hf.last_iff_next hr hpq).mpr hnext)
    | @alternative a ha hpa hlast =>
      have ha : a ∈ f.before ++ f.after := (hf.mem_iff.mp ha).resolve_left fun ha => by
        have hle := hlast f.stem (hf.isStem_stem hr) (hf.begins a ha)
        exact hp (List.prefix_of_prefix_length_le (hf.begins a ha) hpa hle)
      exact .alternative (mem_replaced.mpr (.inr ha)) hpa fun q hq => hlast q ((hf.isStem_iff hr).mpr (.inl hq))
  · intro hb
    cases hb with
    | @stem q hq hpq hne hnext =>
      rw [← hname q (hf.ne_stem_of_isStem hq)]
      refine .stem ((hf.isStem_iff hr).mpr (.inl hq)) hpq hne fun q' hq' hpq' hqq' => ?_
      rcases (hf.isStem_iff hr).mp hq' with hq' | rfl
      · exact hnext q' hq' hpq' hqq'
      · exact absurd hqq' (hf.not_isPrefix_of_isStem hq)
    | @alternative a ha hpa hlast =>
      rcases mem_replaced.mp ha with rfl | ha
      · have hpstem : p <+: f.stem := (List.prefix_or_prefix_of_prefix hpa (List.prefix_append _ _)).resolve_right hp
        rw [Alternative.behind_append_singleton hpstem, ← hnew]
        refine .stem (hf.isStem_stem hr) hpstem ?_ ((hf.last_iff_next hr hpstem).mp hlast)
        rintro rfl
        exact hp (List.prefix_refl _)
      · refine .alternative (hf.mem_iff.mpr (.inr ha)) hpa fun q hq hqa => ?_
        rcases (hf.isStem_iff hr).mp hq with hq | rfl
        · exact hlast q hq hqa
        · exact absurd hqa (hf.alone a ha)

/-- Behind the stem stands what its helper derives. -/
theorem branch_stem_iff : Branch r.alternatives name f.stem b ↔ b ∈ (f.factored new).alternatives := by
  rw [mem_factored]
  constructor
  · intro hb
    cases hb with
    | stem hq hpq hne => exact absurd (hf.eq_of_isStem hq hpq).symm hne
    | @alternative a ha hpa => exact ⟨a, hf.mem_run_iff.mpr ⟨ha, hpa⟩, rfl⟩
  · rintro ⟨a, ha, rfl⟩
    refine .alternative (hf.mem_iff.mpr (.inl ha)) (hf.begins a ha) fun q hq hqa => ?_
    rcases List.prefix_or_prefix_of_prefix hqa (hf.begins a ha) with hle | hle
    · exact hle.length_le
    · exact (hf.eq_of_isStem hq hle).symm ▸ Nat.le_refl _

section Tree

variable {stems : List (List Symbol)} {node : List Symbol → Rule}
  (h : ((f.replaced r.lhs new).sorted order).PrefixTree stems node)
include h

/-- The stem of the run is at no node yet. -/
theorem not_isPrefix_of_mem : ∀ p ∈ [] :: stems, ¬f.stem <+: p := by
  intro p hp
  rcases List.mem_cons.mp hp with rfl | hp
  · exact fun hnil => hf.stem_ne_nil (List.prefix_nil.mp hnil)
  · exact hf.not_isPrefix_of_isStem ((h.mem_stems_iff p).mp hp)

theorem ne_stem_of_mem : ∀ p ∈ [] :: stems, p ≠ f.stem := fun p hp heq =>
  hf.not_isPrefix_of_mem h p hp (heq ▸ List.prefix_refl _)

include hr in
/-- **One round**: the helper takes the place of the stem in the prefix tree of what is left. -/
theorem prefixTree (hnt : new.isNonterminal = true) (hname : ∃ n, new = helper r.lhs n) :
    r.PrefixTree (stems ++ [f.stem]) (Function.update node f.stem (f.factored new)) := by
  have hlhs : ((f.replaced r.lhs new).sorted order).lhs = r.lhs := Rule.lhs_addAll _ _
  have hne := hf.ne_stem_of_mem h
  have hupdate : ∀ p, p ≠ f.stem → Function.update node f.stem (f.factored new) p = node p := fun p hp =>
    Function.update_of_ne hp _ node
  have hself : Function.update node f.stem (f.factored new) f.stem = f.factored new := Function.update_self _ _ node
  refine ⟨?_, ?_, fun p => ?_, ?_, ?_, ?_⟩
  · rw [hupdate [] (hne [] List.mem_cons_self), h.root_lhs, hlhs]
  · refine List.nodup_append'.mpr ⟨h.nodup_stems, List.nodup_singleton _, List.disjoint_singleton.mpr fun hmem => ?_⟩
    exact hne _ (List.mem_cons_of_mem [] hmem) rfl
  · rw [List.mem_append, List.mem_singleton, h.mem_stems_iff, hf.isStem_iff hr]
  · rw [List.forall_mem_append, List.forall_mem_singleton, hself, lhs_factored]
    refine ⟨fun p hp => ?_, hname⟩
    rw [hupdate p (hne p (List.mem_cons_of_mem [] hp)), ← hlhs]
    exact h.named p hp
  · rw [← List.cons_append, List.forall_mem_append, List.forall_mem_singleton, hself]
    refine ⟨fun p hp => ?_, (Splits.proper_factored hr hf.toSplits hnt).nodup⟩
    rw [hupdate p (hne p hp)]
    exact h.nodup p hp
  · rw [← List.cons_append, List.forall_mem_append, List.forall_mem_singleton]
    refine ⟨fun p hp b => ?_, fun b => ?_⟩
    · rw [hupdate p (hne p hp), h.mem_iff p hp, hf.branch_iff hr ?_ ?_ (hf.not_isPrefix_of_mem h p hp)]
      · rw [hself, lhs_factored]
      · exact fun q hq => congrArg Rule.lhs (hupdate q hq)
    · rw [hself, hf.branch_stem_iff]

end Tree
end Replaced
end Factor.Groups

/-! ## Whole rules and grammars -/

namespace Rule

variable {r : Rule} {stems : List (List Symbol)} {node : List Symbol → Rule}

/-- A rule without common beginnings is its prefix tree. -/
theorem prefixTree_of_prefixFree (hr : r.Proper) (h : PrefixFree r.alternatives) : r.PrefixTree [] fun _ => r := by
  refine ⟨rfl, List.nodup_nil, fun p => ?_, nofun, fun _ _ => hr.nodup, fun p hp b => ?_⟩
  · exact iff_of_false List.not_mem_nil (not_isStem_of_prefixFree h)
  · rw [List.mem_singleton.mp hp]
    constructor
    · intro hb
      rw [← b.behind_nil (hr.symbols_ne_nil b hb)]
      exact .alternative hb List.nil_prefix fun q hq => absurd hq (not_isStem_of_prefixFree h)
    · intro hb
      cases hb with
      | stem hq => exact absurd hq (not_isStem_of_prefixFree h)
      | @alternative a ha => rwa [a.behind_nil (hr.symbols_ne_nil a ha)]

/-- The order of the alternatives has no say in the prefix tree. -/
theorem PrefixTree.of_sorted {order : Registry} (h : (r.sorted order).PrefixTree stems node) : r.PrefixTree stems node := by
  have hmem : ∀ a, a ∈ (r.sorted order).alternatives ↔ a ∈ r.alternatives := fun _ => (sortBy_perm _).mem_iff
  refine ⟨h.root_lhs, h.nodup_stems, fun p => ?_, h.named, h.nodup, fun p hp b => ?_⟩
  · rw [h.mem_stems_iff, isStem_congr hmem]
  · rw [h.mem_iff p hp, branch_congr hmem]

/-- The rule and the helpers are the nodes of its prefix tree. -/
def GrowsInto (r r' : Rule) (new : List Rule) : Prop :=
  ∃ stems node, r.PrefixTree stems node ∧ r' :: new = ([] :: stems).map node

theorem growsInto_self (hr : r.Proper) (h : PrefixFree r.alternatives) : r.GrowsInto r [] :=
  ⟨[], fun _ => r, prefixTree_of_prefixFree hr h, rfl⟩

/-- **A round adds a node.** -/
theorem GrowsInto.round {r' : Rule} {new : List Rule} {f : Factor} {helper : Symbol} {order : Registry} (hr : r.Proper)
    (hf : f.Groups r.alternatives) (hname : ∃ n, helper = Transformation.helper r.lhs n)
    (h : ((f.replaced r.lhs helper).sorted order).GrowsInto r' new) : r.GrowsInto r' (new ++ [f.factored helper]) := by
  obtain ⟨stems, node, htree, hnodes⟩ := h
  have hnt : helper.isNonterminal = true := by
    obtain ⟨n, rfl⟩ := hname
    rfl
  refine ⟨stems ++ [f.stem], _, hf.prefixTree hr htree hnt hname, ?_⟩
  have hother : ∀ p ∈ [] :: stems, Function.update node f.stem (f.factored helper) p = node p := fun p hp =>
    Function.update_of_ne (hf.ne_stem_of_mem htree p hp) _ node
  show r' :: new ++ [f.factored helper] = ([] :: stems ++ [f.stem]).map _
  rw [List.map_append, List.map_singleton, Function.update_self, List.map_congr_left hother, ← hnodes]

end Rule

/-- **The rounds for a rule** leave the nodes of its prefix tree. -/
theorem Factoring.exists_prefixTree_of_ofRule {ε : Type} {r : Rule} {taken : List Symbol} {order : Registry} {s : Factoring}
    (hr : r.Proper) (htaken : r.Within taken)
    (h : (ofRule r taken order : Reported ε Factoring).result = .ok s) :
    (∀ x ∈ taken, x ∈ s.taken) ∧ ∃ stems node, r.PrefixTree stems node ∧ s.rules = ([] :: stems).map node := by
  obtain ⟨hgrows, stems, node, htree, hnodes⟩ := exists_groups_of_ofRule Rule.growsInto_self Rule.GrowsInto.round hr htaken h
  exact ⟨hgrows, stems, node, htree.of_sorted, hnodes⟩

/-- The rules of the second grammar are the nodes of the prefix trees of those of the first one, each rule in front of its
helpers; helpers have names of their own. -/
structure Grammar.PrefixTrees (g c : Grammar) (stems : Rule → List (List Symbol)) (node : Rule → List Symbol → Rule) :
    Prop where
  rules_eq : c.rules = g.rules.flatMap fun r => ([] :: stems r).map (node r)
  trees : ∀ r ∈ g.rules, r.PrefixTree (stems r) (node r)
  nodup_lhs : c.lhsSymbols.Nodup
  fresh : ∀ r ∈ g.rules, ∀ p ∈ stems r, (node r p).lhs ∉ g.nonterminals

namespace Grammar

/-- A rule of the grammar with the empty string or one of its stems. -/
def IsNode (g : Grammar) (x : Rule × List Symbol) : Prop := x.1 ∈ g.rules ∧ (x.2 = [] ∨ IsStem x.1.alternatives x.2)

variable {g c : Grammar} {stems : Rule → List (List Symbol)} {node : Rule → List Symbol → Rule}

section Nodes

variable (hrules : c.rules = g.rules.flatMap fun r => ([] :: stems r).map (node r))
  (htrees : ∀ r ∈ g.rules, r.PrefixTree (stems r) (node r))
include hrules htrees

theorem mem_rules_iff_node {x : Rule} : x ∈ c.rules ↔ ∃ y, g.IsNode y ∧ node y.1 y.2 = x := by
  rw [hrules, List.mem_flatMap]
  constructor
  · rintro ⟨r, hr, hx⟩
    obtain ⟨p, hp, rfl⟩ := List.mem_map.mp hx
    exact ⟨(r, p), ⟨hr, (List.mem_cons.mp hp).imp_right ((htrees r hr).mem_stems_iff p).mp⟩, rfl⟩
  · rintro ⟨⟨r, p⟩, ⟨hr, hp⟩, rfl⟩
    exact ⟨r, hr, List.mem_map_of_mem (List.mem_cons.mpr (hp.imp_right ((htrees r hr).mem_stems_iff p).mpr))⟩

/-- Nodes with the same name are the same. -/
theorem node_inj (hnodup : c.lhsSymbols.Nodup) {x y : Rule × List Symbol} (hx : g.IsNode x) (hy : g.IsNode y)
    (h : (node x.1 x.2).lhs = (node y.1 y.2).lhs) : x = y := by
  have hnames : c.lhsSymbols = (g.rules.flatMap fun r => ([] :: stems r).map fun p => (r, p)).map fun x =>
      (node x.1 x.2).lhs := by
    rw [lhsSymbols, hrules, List.map_flatMap, List.map_flatMap]
    simp only [List.map_map, Function.comp_def]
  have hmem : ∀ {x}, g.IsNode x → x ∈ g.rules.flatMap fun r => ([] :: stems r).map fun p => (r, p) := fun {x} hx =>
    List.mem_flatMap.mpr ⟨x.1, hx.1, List.mem_map_of_mem
      (List.mem_cons.mpr (hx.2.imp_right ((htrees x.1 hx.1).mem_stems_iff x.2).mpr))⟩
  exact List.inj_on_of_nodup_map (hnames ▸ hnodup) (hmem hx) (hmem hy) h

end Nodes

/-- **Factoring leaves prefix trees**, whatever the order of the symbols. -/
theorem exists_prefixTrees_of_leftFactor {ε : Type} {order : Registry} {t : Transformation} (hg : g.WellFormed)
    (h : (g.leftFactor order : Reported ε Transformation).result = .ok t) :
    ∃ stems node, g.PrefixTrees t.grammar stems node := by
  obtain ⟨segment, hrules, hsegment⟩ := exists_groups_of_leftFactor Rule.growsInto_self Rule.GrowsInto.round hg h
  have htrees : ∀ r ∈ g.rules, ∃ stems node, r.PrefixTree stems node ∧ segment r = ([] :: stems).map node := by
    intro r hr
    obtain ⟨order, r', new, heq, stems, node, htree, hnodes⟩ := hsegment r hr
    exact ⟨stems, node, htree.of_sorted, heq.trans hnodes⟩
  have : Nonempty Rule := ⟨⟨Symbol.epsilon, []⟩⟩
  choose! stems node htree hnodes using htrees
  have hrules : t.grammar.rules = g.rules.flatMap fun r => ([] :: stems r).map (node r) := by
    rw [hrules]
    exact List.flatMap_congr hnodes
  have hadds := addsHelpers_of_leftFactor hg h
  refine ⟨stems, node, hrules, htree, hadds.wellFormed.nodup_lhs, fun r hr p hp hmem => ?_⟩
  have hstem := ((htree r hr).mem_stems_iff p).mp hp
  have hnode : g.IsNode (r, p) := ⟨hr, .inr hstem⟩
  -- a nonterminal of the grammar would be the left-hand side of a rule at its root
  obtain ⟨helpers, hperm, hnew⟩ := hadds.helpers
  have hlhs : (node r p).lhs ∈ g.lhsSymbols := by
    have hin : (node r p).lhs ∈ t.grammar.lhsSymbols :=
      List.mem_map_of_mem ((mem_rules_iff_node hrules htree).mpr ⟨(r, p), hnode, rfl⟩)
    exact (List.mem_append.mp (hperm.mem_iff.mp hin)).resolve_right fun hhelper => hnew _ hhelper hmem
  obtain ⟨r₀, hr₀, heq⟩ := List.mem_map.mp hlhs
  rw [← (htree r₀ hr₀).root_lhs] at heq
  have := node_inj hrules htree hadds.wellFormed.nodup_lhs (x := (r₀, [])) ⟨hr₀, .inl rfl⟩ hnode heq
  exact hstem.1 (congrArg Prod.snd this).symm

end Grammar
end TableParser
