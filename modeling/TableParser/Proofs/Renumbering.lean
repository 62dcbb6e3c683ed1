import Mathlib.Algebra.Group.End
import Mathlib.Logic.Equiv.Set
import TableParser.Proofs.PrefixTrees

/-!
# The order of the symbols only renumbers helpers

Factoring looks for the next run in sorted alternatives, and what comes first depends on the order of the symbols. The nodes
of the prefix trees do not, so two orders lead to the same rules but for the numbers of the helpers and the order of the
alternatives (`Grammar.Renumbers`, `Grammar.prefixTrees_of_leftFactor`).

* **Names** (`Factoring.names_of_rounds`): the helpers of a rule get the next free numbers, one after the other, so that
  their names depend on how many there are, and on nothing else.
* **Renaming** (`branch_rename_iff`): with helpers renamed, the branches of a prefix tree are the branches with renamed
  helpers.
-/

namespace TableParser

open Transformation (helper)

/-! ## Names of helpers -/

/-- The helpers of a rule, the most recent first, the names taken, and the number for the next helper. -/
structure HelperNames where
  helpers : List Symbol
  taken : List Symbol
  next : Nat

/-- One helper more, with the next free number. -/
def HelperNames.add (lhs : Symbol) (names : HelperNames) : HelperNames :=
  let n := Transformation.freshIndex lhs names.taken names.next
  ⟨helper lhs n :: names.helpers, insertSymbol names.taken (helper lhs n), n + 1⟩

namespace Factoring

variable {ε : Type} {s s' : Factoring}

/-- The names that the helpers have so far. -/
def names (s : Factoring) : HelperNames := ⟨s.helpers.map Rule.lhs, s.taken, s.next⟩

theorem names_of_round {f : Factor} (h : (s.round f : Reported ε Factoring).result = .ok s') :
    s'.rule.lhs = s.rule.lhs ∧ s'.names = s.names.add s.rule.lhs := by
  obtain ⟨_, _, rfl, _, _, hrules, htaken, hnext⟩ := round_cases h
  obtain ⟨hrule, hhelpers⟩ := List.cons.inj hrules
  refine ⟨hrule ▸ Rule.lhs_addAll _ _, ?_⟩
  rw [names, hhelpers, htaken, hnext, List.map_cons, Factor.lhs_factored]
  rfl

/-- **Helpers get the next free numbers**, round by round. -/
theorem names_of_rounds {fuel : Nat} (h : (rounds fuel s : Reported ε Factoring).result = .ok s') :
    s'.rule.lhs = s.rule.lhs ∧ ∃ k, s'.helpers.length = k + s.helpers.length ∧
      s'.names = (HelperNames.add s.rule.lhs)^[k] s.names := by
  induction fuel generalizing s with
  | zero =>
    cases h
    exact ⟨rfl, 0, (Nat.zero_add _).symm, rfl⟩
  | succ fuel ih =>
    unfold rounds at h
    split at h
    · cases h
      exact ⟨rfl, 0, (Nat.zero_add _).symm, rfl⟩
    · obtain ⟨next, hnext, h⟩ := Trail.result_bind_eq_ok_iff.mp h
      obtain ⟨hlhs, hnames⟩ := names_of_round hnext
      obtain ⟨hlhs', k, hlength, hnames'⟩ := ih h
      have hone : next.helpers.length = s.helpers.length + 1 := by
        have := congrArg (fun names => names.helpers.length) hnames
        rwa [names, List.length_map, HelperNames.add, List.length_cons, names, List.length_map] at this
      refine ⟨hlhs'.trans hlhs, k + 1, ?_, ?_⟩
      · omega
      · rw [hnames', hnames, hlhs, Function.iterate_succ_apply]

/-- **As many helpers have the same names**, whatever the order of the symbols. -/
theorem names_eq_of_ofRule {r : Rule} {taken : List Symbol} {order order' : Registry}
    (h : (ofRule r taken order : Reported ε Factoring).result = .ok s)
    (h' : (ofRule r taken order' : Reported ε Factoring).result = .ok s') (hlength : s.rules.length = s'.rules.length) :
    s.rules.map Rule.lhs = s'.rules.map Rule.lhs ∧ s.taken = s'.taken := by
  obtain ⟨hlhs, k, hk, hnames⟩ := names_of_rounds h
  obtain ⟨hlhs', k', hk', hnames'⟩ := names_of_rounds h'
  have hsame : k = k' := by
    rw [rules, List.length_cons, hk, rules, List.length_cons, hk'] at hlength
    simpa using hlength
  have heq : s.names = s'.names := by
    rw [hnames, hnames', hsame]
    rfl
  refine ⟨?_, congrArg HelperNames.taken heq⟩
  rw [rules, List.map_cons, hlhs, rules, List.map_cons, hlhs']
  exact congrArg (r.lhs :: ·) (congrArg HelperNames.helpers heq)

end Factoring

/-- A rule has as many stems in each of its prefix trees. -/
theorem Rule.PrefixTree.perm_stems {r : Rule} {stems stems' : List (List Symbol)} {node node' : List Symbol → Rule}
    (h : r.PrefixTree stems node) (h' : r.PrefixTree stems' node') : stems.Perm stems' :=
  (List.perm_ext_iff_of_nodup h.nodup_stems h'.nodup_stems).mpr fun p =>
    (h.mem_stems_iff p).trans (h'.mem_stems_iff p).symm

/-- **The left-hand sides do not depend on the order of the symbols**, nor whether anything changed. -/
theorem Grammar.lhsSymbols_eq_of_leftFactor {ε : Type} {g : Grammar} {order order' : Registry} {t t' : Transformation}
    (hg : g.WellFormed) (h : (g.leftFactor order : Reported ε Transformation).result = .ok t)
    (h' : (g.leftFactor order' : Reported ε Transformation).result = .ok t') :
    t.grammar.lhsSymbols = t'.grammar.lhsSymbols ∧ t.changed = t'.changed := by
  unfold leftFactor at h h'
  rw [Trail.result_bind, bind_eq_ok_iff, Trail.result_foldlM] at h h'
  obtain ⟨s, hs, h⟩ := h
  obtain ⟨s', hs', h'⟩ := h'
  cases h
  cases h'
  refine (foldlM_related (R := fun s s' : GrammarFactoring => (s.done.map Rule.lhs = s'.done.map Rule.lhs ∧
    s.changed = s'.changed) ∧ s.taken = s'.taken ∧ ∀ x ∈ g.nonterminals, x ∈ s.taken) hs hs'
    ⟨⟨rfl, rfl⟩, rfl, fun _ hx => hx⟩ ?_).1
  rintro r hr s u s' u' ⟨⟨hdone, hchanged⟩, htaken, hsub⟩ hstep hstep'
  unfold GrammarFactoring.step at hstep hstep'
  rw [Trail.result_bind, bind_eq_ok_iff] at hstep hstep'
  obtain ⟨f, hf, hstep⟩ := hstep
  obtain ⟨f', hf', hstep'⟩ := hstep'
  cases hstep
  cases hstep'
  have hin : r.Within s.taken := (within_nonterminals hr).mono hsub
  rw [← htaken] at hf'
  obtain ⟨hgrows, stems, node, htree, hrules⟩ := Factoring.exists_prefixTree_of_ofRule (hg.proper r hr) hin hf
  obtain ⟨_, stems', node', htree', hrules'⟩ := Factoring.exists_prefixTree_of_ofRule (hg.proper r hr) hin hf'
  have hlength : f.rules.length = f'.rules.length := by
    rw [hrules, hrules', List.length_map, List.length_map, List.length_cons, List.length_cons,
      (htree.perm_stems htree').length_eq]
  obtain ⟨hnames, htaken'⟩ := Factoring.names_eq_of_ofRule hf hf' hlength
  refine ⟨⟨?_, ?_⟩, htaken', fun x hx => hgrows x (hsub x hx)⟩
  · dsimp only
    rw [List.map_append, List.map_append, hdone, hnames]
  · have hempty : f.helpers.isEmpty = f'.helpers.isEmpty := by
      rw [Factoring.rules, List.length_cons, Factoring.rules, List.length_cons] at hlength
      rw [Bool.eq_iff_iff, List.isEmpty_iff_length_eq_zero, List.isEmpty_iff_length_eq_zero, Nat.succ.inj hlength]
    dsimp only
    rw [hchanged, hempty]

/-! ## Renaming -/

/-- The alternative with other symbols. -/
def Alternative.rename (σ : Symbol → Symbol) (a : Alternative) : Alternative := ⟨a.symbols.map σ, a.action⟩

theorem Alternative.rename_injective {σ : Symbol → Symbol} (h : Function.Injective σ) :
    Function.Injective (Alternative.rename σ) := by
  rintro ⟨xs, action⟩ ⟨ys, action'⟩ heq
  obtain ⟨hsymbols, haction⟩ := Alternative.mk.inj heq
  exact congrArg₂ Alternative.mk (List.map_injective_iff.mpr h hsymbols) haction

section Branches

variable {alternatives : List Alternative} {name name' : List Symbol → Symbol} {p : List Symbol} {b : Alternative}
  {σ : Symbol → Symbol} (hfix : ∀ a ∈ alternatives, ∀ s ∈ a.symbols, σ s = s) (hε : σ .epsilon = .epsilon)
  (hname : ∀ q, IsStem alternatives q → σ (name q) = name' q)
include hfix

theorem map_drop_eq_self {q : List Symbol} {a : Alternative} (ha : a ∈ alternatives) (hq : q <+: a.symbols) :
    (q.drop p.length).map σ = q.drop p.length :=
  (List.map_congr_left fun s hs => hfix a ha s (hq.subset (List.mem_of_mem_drop hs))).trans (List.map_id _)

include hε in
theorem Alternative.rename_behind {a : Alternative} (ha : a ∈ alternatives) : (a.behind p).rename σ = a.behind p := by
  unfold behind rename
  dsimp only
  split
  · rw [List.map_singleton, hε]
  · rw [map_drop_eq_self hfix ha (List.prefix_refl _)]

include hname in
theorem rename_stem {q : List Symbol} (hq : IsStem alternatives q) :
    (⟨q.drop p.length ++ [name q], none⟩ : Alternative).rename σ = ⟨q.drop p.length ++ [name' q], none⟩ := by
  have ⟨_, a, ha, _, _, _, hlongest⟩ := hq
  unfold Alternative.rename
  dsimp only
  rw [List.map_append, map_drop_eq_self hfix ha hlongest.left, List.map_singleton, hname q hq]

include hε hname in
/-- **Branches with renamed helpers** are the renamed branches. -/
theorem branch_rename_iff : Branch alternatives name' p b ↔ ∃ b₀, Branch alternatives name p b₀ ∧ b₀.rename σ = b := by
  constructor
  · intro hb
    cases hb with
    | stem hq hpq hne hnext => exact ⟨_, .stem hq hpq hne hnext, rename_stem hfix hname hq⟩
    | alternative ha hpa hlast => exact ⟨_, .alternative ha hpa hlast, Alternative.rename_behind hfix hε ha⟩
  · rintro ⟨b₀, hb₀, rfl⟩
    cases hb₀ with
    | stem hq hpq hne hnext =>
      rw [rename_stem hfix hname hq]
      exact .stem hq hpq hne hnext
    | alternative ha hpa hlast =>
      rw [Alternative.rename_behind hfix hε ha]
      exact .alternative ha hpa hlast

end Branches

/-! ## Renumbering -/

/-- The second grammar is the first one with helpers renumbered and alternatives in another order: its left-hand sides are
the same, and what a renumbered left-hand side derives is renumbered. -/
structure Grammar.Renumbers (g : Grammar) (σ : Equiv.Perm Symbol) (c c' : Grammar) : Prop where
  lhsSymbols_eq : c.lhsSymbols = c'.lhsSymbols
  /-- Nonterminals of the grammar that was factored stay. -/
  fixes : ∀ s ∈ g.nonterminals, σ s = s
  /-- Only helpers get another number, each as a helper of the same rule. -/
  moves : ∀ s, σ s = s ∨ ∃ r ∈ g.rules, ∃ m n, s = helper r.lhs m ∧ σ s = helper r.lhs n
  rules : ∀ r ∈ c.rules, ∃ r' ∈ c'.rules, r'.lhs = σ r.lhs ∧ r'.alternatives.Perm (r.alternatives.map (Alternative.rename σ))

/-- Two ways to name the same things with the same names differ by a permutation of the names. -/
theorem exists_perm_of_range_eq {κ α : Type} {f f' : κ → α} (hf : Function.Injective f) (hf' : Function.Injective f')
    (hrange : Set.range f = Set.range f') :
    ∃ σ : Equiv.Perm α, (∀ k, σ (f k) = f' k) ∧ ∀ s, s ∉ Set.range f → σ s = s := by
  classical
  let names : Equiv.Perm {s // s ∈ Set.range f} :=
    (Equiv.ofInjective f hf).symm.trans ((Equiv.ofInjective f' hf').trans (Equiv.setCongr hrange.symm))
  refine ⟨Equiv.Perm.ofSubtype names, fun k => ?_, fun s hs => Equiv.Perm.ofSubtype_apply_of_not_mem names hs⟩
  have hmem : f k ∈ Set.range f := Set.mem_range_self k
  have hback : (Equiv.ofInjective f hf).symm ⟨f k, hmem⟩ = k := Equiv.ofInjective_symm_apply hf k
  rw [Equiv.Perm.ofSubtype_apply_of_mem names hmem]
  show ((Equiv.ofInjective f' hf') ((Equiv.ofInjective f hf).symm ⟨f k, hmem⟩) : α) = f' k
  rw [hback]
  rfl

namespace Grammar

variable {g c c' : Grammar} {stems stems' : Rule → List (List Symbol)} {node node' : Rule → List Symbol → Rule}

namespace PrefixTrees

/-- The left-hand sides are the names of the nodes. -/
theorem mem_lhsSymbols_iff (h : g.PrefixTrees c stems node) {s : Symbol} :
    s ∈ c.lhsSymbols ↔ ∃ x, g.IsNode x ∧ (node x.1 x.2).lhs = s := by
  constructor
  · intro hs
    obtain ⟨r, hr, rfl⟩ := List.mem_map.mp hs
    obtain ⟨x, hx, rfl⟩ := (mem_rules_iff_node h.rules_eq h.trees).mp hr
    exact ⟨x, hx, rfl⟩
  · rintro ⟨x, hx, rfl⟩
    exact List.mem_map_of_mem ((mem_rules_iff_node h.rules_eq h.trees).mpr ⟨x, hx, rfl⟩)

/-- Names can be permuted so that the nodes have the names that they have in the other trees. -/
theorem exists_perm (h : g.PrefixTrees c stems node) (h' : g.PrefixTrees c' stems' node')
    (hlhs : c.lhsSymbols = c'.lhsSymbols) : ∃ σ : Equiv.Perm Symbol,
      (∀ r p, g.IsNode (r, p) → σ (node r p).lhs = (node' r p).lhs) ∧ ∀ s, s ∉ c.lhsSymbols → σ s = s := by
  have hrange : ∀ {c stems node}, g.PrefixTrees c stems node →
      Set.range (fun x : {x // g.IsNode x} => (node x.1.1 x.1.2).lhs) = {s | s ∈ c.lhsSymbols} := by
    intro c stems node h
    ext s
    rw [Set.mem_ofPred_eq, h.mem_lhsSymbols_iff]
    exact ⟨fun ⟨⟨x, hx⟩, heq⟩ => ⟨x, hx, heq⟩, fun ⟨x, hx, heq⟩ => ⟨⟨x, hx⟩, heq⟩⟩
  have hinj : ∀ {c stems node}, g.PrefixTrees c stems node →
      Function.Injective (fun x : {x // g.IsNode x} => (node x.1.1 x.1.2).lhs) := fun h x y heq =>
    Subtype.ext (node_inj h.rules_eq h.trees h.nodup_lhs x.2 y.2 heq)
  obtain ⟨σ, hσ, hσ'⟩ := exists_perm_of_range_eq (hinj h) (hinj h') (by rw [hrange h, hrange h', hlhs])
  refine ⟨σ, fun r p hx => hσ ⟨(r, p), hx⟩, fun s hs => hσ' s ?_⟩
  rwa [hrange h]

section Permuted

variable {σ : Equiv.Perm Symbol} (h : g.PrefixTrees c stems node) (h' : g.PrefixTrees c' stems' node')
  (hσ : ∀ r p, g.IsNode (r, p) → σ (node r p).lhs = (node' r p).lhs)
include h h' hσ

/-- Only names of helpers are permuted, since rules keep theirs. -/
theorem fixes_or_moves (hσ' : ∀ s, s ∉ c.lhsSymbols → σ s = s) (s : Symbol) :
    σ s = s ∨ s ∉ g.nonterminals ∧ ∃ r ∈ g.rules, ∃ m n, s = helper r.lhs m ∧ σ s = helper r.lhs n := by
  by_cases hs : s ∈ c.lhsSymbols
  · obtain ⟨⟨r, p⟩, hx, rfl⟩ := h.mem_lhsSymbols_iff.mp hs
    dsimp only
    rw [hσ r p hx]
    obtain ⟨hr, rfl | hp⟩ := hx
    · left
      rw [(h.trees r hr).root_lhs, (h'.trees r hr).root_lhs]
    · have hmem := ((h.trees r hr).mem_stems_iff p).mpr hp
      obtain ⟨m, hm⟩ := (h.trees r hr).named p hmem
      obtain ⟨n, hn⟩ := (h'.trees r hr).named p (((h'.trees r hr).mem_stems_iff p).mpr hp)
      exact .inr ⟨h.fresh r hr p hmem, r, hr, m, n, hm, hn⟩
  · exact .inl (hσ' s hs)

/-- With names permuted, nodes have the alternatives that they have in the other trees. -/
theorem perm_alternatives {r : Rule} {p : List Symbol} (hx : g.IsNode (r, p)) (hfixes : ∀ s ∈ g.nonterminals, σ s = s)
    (hothers : ∀ s, s.isNonterminal = false → σ s = s) :
    (node' r p).alternatives.Perm ((node r p).alternatives.map (Alternative.rename σ)) := by
  obtain ⟨hr, hp⟩ := hx
  have hmem : p ∈ [] :: stems r := List.mem_cons.mpr (hp.imp_right ((h.trees r hr).mem_stems_iff p).mpr)
  have hmem' : p ∈ [] :: stems' r := List.mem_cons.mpr (hp.imp_right ((h'.trees r hr).mem_stems_iff p).mpr)
  have hfix : ∀ a ∈ r.alternatives, ∀ s ∈ a.symbols, σ s = s := by
    intro a ha s hs
    cases hnt : s.isNonterminal with
    | false => exact hothers s hnt
    | true => exact hfixes s (within_nonterminals hr a ha s hs hnt)
  have hnames : ∀ q, IsStem r.alternatives q → σ (node r q).lhs = (node' r q).lhs := fun q hq => hσ r q ⟨hr, .inr hq⟩
  refine (List.perm_ext_iff_of_nodup ((h'.trees r hr).nodup p hmem')
    (((h.trees r hr).nodup p hmem).map (Alternative.rename_injective σ.injective))).mpr fun b => ?_
  rw [(h'.trees r hr).mem_iff p hmem', branch_rename_iff hfix (hothers _ rfl) hnames, List.mem_map]
  exact exists_congr fun b₀ => and_congr_left fun _ => ((h.trees r hr).mem_iff p hmem b₀).symm

end Permuted

/-- **Prefix trees with the same left-hand sides** are renumbered. -/
theorem exists_renumbers (h : g.PrefixTrees c stems node) (h' : g.PrefixTrees c' stems' node')
    (hlhs : c.lhsSymbols = c'.lhsSymbols) : ∃ σ, g.Renumbers σ c c' := by
  obtain ⟨σ, hσ, hσ'⟩ := h.exists_perm h' hlhs
  have hmoves := h.fixes_or_moves h' hσ hσ'
  have hfixes : ∀ s ∈ g.nonterminals, σ s = s := fun s hs => (hmoves s).resolve_right fun hnew => hnew.1 hs
  have hothers : ∀ s, s.isNonterminal = false → σ s = s := by
    refine fun s hs => (hmoves s).resolve_right ?_
    rintro ⟨_, _, _, _, _, rfl, _⟩
    cases hs
  refine ⟨σ, hlhs, hfixes, fun s => (hmoves s).imp_right And.right, fun x hx => ?_⟩
  obtain ⟨⟨r, p⟩, hnode, rfl⟩ := (mem_rules_iff_node h.rules_eq h.trees).mp hx
  exact ⟨node' r p, (mem_rules_iff_node h'.rules_eq h'.trees).mpr ⟨(r, p), hnode, rfl⟩, (hσ r p hnode).symm,
    h.perm_alternatives h' hσ hnode hfixes hothers⟩

end PrefixTrees

/-- **Factoring gives the prefix trees of the rules** with whatever order of the symbols, although the scan ends early, and
the order has a say in the numbers of the helpers and the order of the alternatives only. -/
theorem prefixTrees_of_leftFactor {ε : Type} {steps : List DefinitionStep} (hg : (Grammar.define steps).result = .ok g) :
    (∀ order, ∃ t, (g.leftFactor order : Reported ε Transformation).result = .ok t ∧
      ∃ stems node, g.PrefixTrees t.grammar stems node) ∧
    ∀ order order' t t', (g.leftFactor order : Reported ε Transformation).result = .ok t →
      (g.leftFactor order' : Reported ε Transformation).result = .ok t' →
      t.changed = t'.changed ∧ ∃ σ, g.Renumbers σ t.grammar t'.grammar := by
  have hwell := wellFormed_of_define hg
  constructor
  · intro order
    obtain ⟨t, ht⟩ := exists_leftFactor (ε := ε) g order
    exact ⟨t, ht, exists_prefixTrees_of_leftFactor hwell ht⟩
  · intro order order' t t' ht ht'
    obtain ⟨hlhs, hchanged⟩ := lhsSymbols_eq_of_leftFactor hwell ht ht'
    obtain ⟨stems, node, h⟩ := exists_prefixTrees_of_leftFactor hwell ht
    obtain ⟨stems', node', h'⟩ := exists_prefixTrees_of_leftFactor hwell ht'
    exact ⟨hchanged, h.exists_renumbers h' hlhs⟩

end Grammar

section Crossing

open TableParser.Symbol

/-- A rule with two common beginnings, the shorter of which ends the scan where it comes first. -/
def crossingSteps : List DefinitionStep := [
  .rule (nonterminal "S") [terminal "a", terminal "b"] (some "ab"),
  .rule (nonterminal "S") [terminal "a"] (some "a"),
  .rule (nonterminal "S") [terminal "d", terminal "e", terminal "f"] none,
  .rule (nonterminal "S") [terminal "d", terminal "e", terminal "g"] none]

/-- The rules where `d` is known before `a`, so that the alternatives with `a` come first. -/
def shorterFirst : Grammar := ⟨[
  ⟨nonterminal "S", [⟨[terminal "a", nonterminal "S_2"], none⟩, ⟨[terminal "d", terminal "e", nonterminal "S_3"], none⟩]⟩,
  ⟨nonterminal "S_3", [⟨[terminal "g"], none⟩, ⟨[terminal "f"], none⟩]⟩,
  ⟨nonterminal "S_2", [⟨[terminal "b"], some "ab"⟩, ⟨[epsilon], some "a"⟩]⟩]⟩

/-- The rules where `a` is known before `d`. -/
def longerFirst : Grammar := ⟨[
  ⟨nonterminal "S", [⟨[terminal "d", terminal "e", nonterminal "S_2"], none⟩, ⟨[terminal "a", nonterminal "S_3"], none⟩]⟩,
  ⟨nonterminal "S_3", [⟨[terminal "b"], some "ab"⟩, ⟨[epsilon], some "a"⟩]⟩,
  ⟨nonterminal "S_2", [⟨[terminal "g"], none⟩, ⟨[terminal "f"], none⟩]⟩]⟩

/-- Both orders give the prefix tree; they number its helpers in turn. -/
theorem Grammar.prefixTrees_of_leftFactor_crossing : ∃ g, (Grammar.define crossingSteps).result = .ok g ∧
    (∃ stems node, g.PrefixTrees shorterFirst stems node) ∧ (∃ stems node, g.PrefixTrees longerFirst stems node) ∧
    ∃ σ, g.Renumbers σ shorterFirst longerFirst := by
  have heval : ((Grammar.define crossingSteps).result.toOption.any fun g =>
      ((g.leftFactor (Registry.fresh.internAll [terminal "d", terminal "a"]) :
        Reported Fault Transformation).result.toOption.any fun t => t.grammar = shorterFirst) &&
      ((g.leftFactor (Registry.fresh.internAll [terminal "a", terminal "d"]) :
        Reported Fault Transformation).result.toOption.any fun t => t.grammar = longerFirst)) = true := by
    rfl
  obtain ⟨g, hg, hrest⟩ := exists_ok_of_any heval
  obtain ⟨hshorter, hlonger⟩ := Bool.and_eq_true_iff.mp hrest
  obtain ⟨t, ht, hrules⟩ := exists_ok_of_any hshorter
  obtain ⟨t', ht', hrules'⟩ := exists_ok_of_any hlonger
  obtain ⟨htrees, hrenumbers⟩ := @Grammar.prefixTrees_of_leftFactor g Fault crossingSteps hg
  obtain ⟨u, hu, htree⟩ := htrees (Registry.fresh.internAll [terminal "d", terminal "a"])
  obtain ⟨u', hu', htree'⟩ := htrees (Registry.fresh.internAll [terminal "a", terminal "d"])
  obtain rfl := Except.ok.inj (ht.symm.trans hu)
  obtain rfl := Except.ok.inj (ht'.symm.trans hu')
  have hrenumbers := (hrenumbers _ _ t t' ht ht').2
  rw [of_decide_eq_true hrules] at htree hrenumbers
  rw [of_decide_eq_true hrules'] at htree' hrenumbers
  exact ⟨g, hg, htree, htree', hrenumbers⟩

end Crossing

end TableParser
