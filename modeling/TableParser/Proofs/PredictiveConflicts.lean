import Mathlib.Order.WellFounded
import TableParser.Proofs.ItemOrder
import TableParser.Proofs.PredictiveCompleteness

/-!
# Conflicts of LL(1) tables

Alternatives are entered in order, each under all terminals that predict it, so a slot goes to the first of its
candidates, and each of the others is recorded as a conflict (`LL.Filling.Resolves`). Entering one candidate keeps that
(`LL.Filling.Resolves.insert`), as long as candidates come in order. An alternative that can vanish may be a candidate
for one slot twice, since the same terminal may begin it and follow its left-hand side: against itself it does not lose.
-/

namespace TableParser
namespace LL

/-- The terminal is in the predict set of the alternative: its symbols can begin with the terminal, or they can vanish
and the terminal follows the nonterminal. -/
def Predicts (g : Grammar) (first : FirstSets) (follow : FollowSets) (lhs t : Symbol) (id : AlternativeId) : Prop :=
  ∃ r a, g.target? id = some (r, a) ∧ r.lhs = lhs ∧
    (t ∈ first.ofSequence a.symbols ∧ t ≠ Symbol.epsilon ∨
      Symbol.epsilon ∈ first.ofSequence a.symbols ∧ t ∈ SymbolSets.members follow lhs)

theorem predicts_iff {g : Grammar} {first : FirstSets} {follow : FollowSets} {lhs t : Symbol} {id : AlternativeId}
    {r : Rule} {a : Alternative} (h : g.target? id = some (r, a)) : Predicts g first follow lhs t id ↔
      r.lhs = lhs ∧ t ∈ predictSet first follow r.lhs a.symbols := by
  unfold Predicts
  simp only [h, Parser.mem_predictSet, FirstSets.mem_ofSequence]
  constructor
  · rintro ⟨_, _, heq, rfl, ht⟩
    cases heq
    exact ⟨rfl, ht⟩
  · rintro ⟨rfl, ht⟩
    exact ⟨r, a, rfl, rfl, ht⟩

/-! ## Alternatives in order -/

section Numbers

variable {g : Grammar} {ids : List AlternativeId} {id : AlternativeId} {r : Rule} {a : Alternative}

/-- Every alternative has its number among them. -/
theorem mem_alternativeIds (h : g.alternativeIds = .ok ids) (ht : g.target? id = some (r, a)) : id ∈ ids := by
  obtain ⟨hr, ha⟩ := Grammar.target?_eq_some.mp ht
  obtain ⟨id', hid', hplace⟩ := exists_mem_of_mapM h (Filling.mem_alternativePlaces.mpr ⟨r, a, hr, ha⟩)
  obtain ⟨hrule, hindex⟩ := AlternativeId.ofIndices_eq_ok.mp hplace
  have heq : id' = id := AlternativeId.toRaw_inj (by simp only [AlternativeId.toRaw, hrule, hindex])
  exact heq ▸ hid'

/-- The places of the alternatives go up, by rule and then within it. -/
theorem pairwise_alternativePlaces (g : Grammar) :
    g.alternativePlaces.Pairwise fun x y => x.1 < y.1 ∨ x.1 = y.1 ∧ x.2 < y.2 := by
  have hrules : g.rules.zipIdx.Pairwise fun x y => x.2 < y.2 := by
    rw [← List.pairwise_map, List.zipIdx_map_snd]
    exact List.pairwise_lt_range'
  refine List.pairwise_flatMap.mpr ⟨fun x _ => ?_, hrules.imp fun hlt p hp q hq => ?_⟩
  · exact List.pairwise_map.mpr (List.pairwise_lt_range.imp fun hlt => .inr ⟨rfl, hlt⟩)
  · obtain ⟨_, _, rfl⟩ := List.mem_map.mp hp
    obtain ⟨_, _, rfl⟩ := List.mem_map.mp hq
    exact .inl hlt

/-- The numbers of the alternatives go up. -/
theorem pairwise_alternativeIds (h : g.alternativeIds = .ok ids) : ids.Pairwise fun i j => i.toRaw < j.toRaw := by
  have hplaces : ids.map (fun id => (id.rule.toNat, id.index.toNat)) = g.alternativePlaces.map id :=
    map_eq_map_of_mapM h fun x _ id hid => Prod.ext_iff.mpr (AlternativeId.ofIndices_eq_ok.mp hid)
  have horder := pairwise_alternativePlaces g
  rw [List.map_id] at hplaces
  rw [← hplaces, List.pairwise_map] at horder
  refine horder.imp fun {i j} hlt => ?_
  have := i.index.toNat_lt
  unfold AlternativeId.toRaw wordLimit
  omega

end Numbers

/-! ## Entering candidates -/

namespace Filling

variable {g : Grammar} {first : FirstSets} {follow : FollowSets} {f f' : Filling} {lhs t : Symbol}
  {id : AlternativeId} {C C' : Symbol → Symbol → AlternativeId → Prop}

/-- Each slot goes to the first of the candidates for it, and the conflicts are those of what is entered with each of the
other candidates. -/
structure Resolves (C : Symbol → Symbol → AlternativeId → Prop) (f : Filling) : Prop where
  entry_iff : ∀ lhs t id, f.table.get? lhs t = some id ↔ C lhs t id ∧ ∀ id', C lhs t id' → id.toRaw ≤ id'.toRaw
  mem_conflicts_iff : ∀ c, c ∈ f.conflicts ↔
    f.table.get? c.nonterminal c.terminal = some c.kept ∧ C c.nonterminal c.terminal c.dropped ∧ c.dropped ≠ c.kept

/-- The candidates with one more for a slot. -/
def oneMore (C : Symbol → Symbol → AlternativeId → Prop) (lhs t : Symbol) (id : AlternativeId) (lhs' t' : Symbol)
    (id' : AlternativeId) : Prop :=
  C lhs' t' id' ∨ lhs' = lhs ∧ t' = t ∧ id' = id

@[simp] theorem oneMore_same {id' : AlternativeId} : oneMore C lhs t id lhs t id' ↔ C lhs t id' ∨ id' = id := by
  simp [oneMore]

theorem oneMore_of_ne {lhs' t' : Symbol} (h : (lhs', t') ≠ (lhs, t)) (id' : AlternativeId) :
    oneMore C lhs t id lhs' t' id' ↔ C lhs' t' id' :=
  or_iff_left fun hsame => h (Prod.ext hsame.1 hsame.2.1)

namespace Resolves

/-- Without candidates nothing is entered. -/
theorem empty : Resolves (fun _ _ _ => False) .empty :=
  ⟨fun _ _ _ => ⟨fun h => (nomatch h), fun h => h.1.elim⟩, fun _ => ⟨fun h => (nomatch h), fun h => h.2.1.elim⟩⟩

theorem congr (hf : Resolves C f) (h : ∀ lhs t id, C lhs t id ↔ C' lhs t id) : Resolves C' f := by
  have heq : C = C' := funext fun lhs => funext fun t => funext fun id => propext (h lhs t id)
  exact heq ▸ hf

/-- A slot with a candidate is filled. -/
theorem exists_entry (hf : Resolves C f) (h : C lhs t id) : ∃ kept, f.table.get? lhs t = some kept := by
  obtain ⟨kept, hkept, hleast⟩ := (measure AlternativeId.toRaw).wf.has_min { id | C lhs t id } ⟨id, h⟩
  exact ⟨kept, (hf.entry_iff lhs t kept).mpr ⟨hkept, fun id' hid' => Nat.le_of_not_lt (hleast id' hid')⟩⟩

/-- There are no conflicts exactly if no slot has two candidates. -/
theorem conflicts_eq_nil_iff (hf : Resolves C f) : f.conflicts = [] ↔
    ∀ lhs id id', id ≠ id' → ∀ t, C lhs t id → ¬C lhs t id' := by
  rw [List.eq_nil_iff_forall_not_mem]
  constructor
  · intro hnil lhs id id' hne t hid hid'
    have hentry : ∀ id, C lhs t id → f.table.get? lhs t = some id := by
      intro id hid
      obtain ⟨kept, hkept⟩ := hf.exists_entry hid
      by_contra hother
      refine hnil ⟨lhs, t, kept, id⟩ ((hf.mem_conflicts_iff _).mpr ⟨hkept, hid, fun heq => hother ?_⟩)
      exact hkept.trans (congrArg some heq.symm)
    exact hne (Option.some.inj ((hentry id hid).symm.trans (hentry id' hid')))
  · intro hdisjoint c hc
    obtain ⟨hkept, hdropped, hne⟩ := (hf.mem_conflicts_iff c).mp hc
    exact hdisjoint _ _ _ hne _ hdropped ((hf.entry_iff _ _ _).mp hkept).1

/-- The first candidate for a slot is granted. -/
theorem grant (hf : Resolves C f) (hfree : f.table.get? lhs t = none) (hconflicts : f'.conflicts = f.conflicts)
    (hget : ∀ lhs' t', f'.table.get? lhs' t' = if (lhs', t') = (lhs, t) then some id else f.table.get? lhs' t') :
    Resolves (oneMore C lhs t id) f' := by
  have hnone : ∀ id', ¬C lhs t id' := by
    intro id' hid'
    obtain ⟨kept, hkept⟩ := hf.exists_entry hid'
    rw [hfree] at hkept
    cases hkept
  refine ⟨fun lhs' t' id' => ?_, fun ⟨lhs', t', kept, dropped⟩ => ?_⟩
  · rw [hget]
    by_cases hslot : (lhs', t') = (lhs, t)
    · cases hslot
      simp only [if_pos, oneMore_same, hnone, false_or, forall_eq, Option.some.injEq]
      exact ⟨fun heq => ⟨heq.symm, heq ▸ Nat.le_refl _⟩, fun h => h.1.symm⟩
    · simp only [if_neg hslot, oneMore_of_ne hslot]
      exact hf.entry_iff lhs' t' id'
  · rw [hconflicts, hf.mem_conflicts_iff, hget]
    dsimp only
    by_cases hslot : (lhs', t') = (lhs, t)
    · cases hslot
      simp only [hfree, if_pos, oneMore_same, hnone, false_or, reduceCtorEq, false_and, false_iff, not_and, not_not]
      rintro hkept rfl
      exact Option.some.inj hkept
    · simp only [if_neg hslot, oneMore_of_ne hslot]

/-- A later candidate for a slot loses, unless it is the one that is there. -/
theorem refuse {kept : AlternativeId} (hf : Resolves C f) (hkept : f.table.get? lhs t = some kept)
    (hlater : kept.toRaw ≤ id.toRaw) (htable : f'.table = f.table)
    (hconflicts : f'.conflicts = f.conflicts ++ if kept = id then [] else [⟨lhs, t, kept, id⟩]) :
    Resolves (oneMore C lhs t id) f' := by
  obtain ⟨hfirst, hleast⟩ := (hf.entry_iff lhs t kept).mp hkept
  refine ⟨fun lhs' t' id' => ?_, fun ⟨lhs', t', kept', dropped⟩ => ?_⟩
  · rw [htable, hf.entry_iff]
    constructor
    · rintro ⟨hid', hle⟩
      refine ⟨.inl hid', fun id'' hid'' => ?_⟩
      rcases hid'' with hid'' | ⟨rfl, rfl, rfl⟩
      · exact hle id'' hid''
      · exact (hle kept hfirst).trans hlater
    · rintro ⟨hid' | ⟨rfl, rfl, rfl⟩, hle⟩
      · exact ⟨hid', fun id'' hid'' => hle id'' (.inl hid'')⟩
      · -- it comes no later than the one that is there, so it is that one
        have heq : kept = id' := AlternativeId.toRaw_inj (Nat.le_antisymm hlater (hle kept (.inl hfirst)))
        exact ⟨heq ▸ hfirst, fun id'' hid'' => hle id'' (.inl hid'')⟩
  · rw [hconflicts, htable, List.mem_append, hf.mem_conflicts_iff]
    dsimp only
    constructor
    · rintro (⟨hget, hdropped, hne⟩ | hnew)
      · exact ⟨hget, .inl hdropped, hne⟩
      · by_cases heq : kept = id
        · simp [heq] at hnew
        · rw [if_neg heq] at hnew
          cases List.mem_singleton.mp hnew
          exact ⟨hkept, .inr ⟨rfl, rfl, rfl⟩, Ne.symm heq⟩
    · rintro ⟨hget, hdropped | ⟨rfl, rfl, rfl⟩, hne⟩
      · exact .inl ⟨hget, hdropped, hne⟩
      · obtain rfl : kept = kept' := Option.some.inj (hkept.symm.trans hget)
        rw [if_neg (Ne.symm hne)]
        exact .inr (List.mem_singleton.mpr rfl)

/-- **Entering one more candidate**, which is none of those before another candidate for its slot. -/
theorem insert (hf : Resolves C f) (hlast : ∀ id', C lhs t id' → id'.toRaw ≤ id.toRaw)
    (h : (Filling.insert g lhs id f t).result = .ok f') : Resolves (oneMore C lhs t id) f' := by
  rcases insert_cases h with ⟨hfree, hconflicts, hget⟩ | ⟨kept, hkept, htable, hconflicts⟩
  · exact hf.grant hfree hconflicts hget
  · exact hf.refuse hkept (hlast kept ((hf.entry_iff lhs t kept).mp hkept).1) htable hconflicts

/-- Entering an alternative enters it as a candidate for all slots where it is predicted. -/
theorem insertAlternative (hf : Resolves C f) (hlast : ∀ lhs t id', C lhs t id' → id'.toRaw ≤ id.toRaw)
    (h : (Filling.insertAlternative g first follow f id).result = .ok f') :
    Resolves (fun lhs t id' => C lhs t id' ∨ id' = id ∧ Predicts g first follow lhs t id) f' := by
  unfold Filling.insertAlternative at h
  obtain ⟨⟨r, a⟩, htarget, h⟩ := Trail.result_bind_eq_ok_iff.mp h
  have htarget' : g.target? id = some (r, a) := Grammar.target_eq_ok.mp htarget
  rw [Trail.result_foldlM] at h
  have hstart : Resolves (fun lhs t id' => C lhs t id' ∨ lhs = r.lhs ∧ t ∈ [] ∧ id' = id) f :=
    hf.congr fun lhs t id' => by simp
  have hall := foldlM_takes (P := fun taken => Resolves fun lhs t id' => C lhs t id' ∨ lhs = r.lhs ∧ t ∈ taken ∧ id' = id)
    h hstart fun t _ taken b c hb hbc => by
      refine (hb.insert ?_ hbc).congr fun lhs' t' id' => ?_
      · rintro id' (hid' | ⟨_, _, rfl⟩)
        · exact hlast _ _ id' hid'
        · exact Nat.le_refl _
      · rw [oneMore, List.mem_append, List.mem_singleton]
        tauto
  refine hall.congr fun lhs t id' => or_congr_right ?_
  rw [predicts_iff htarget', eq_comm (a := lhs)]
  tauto

/-- **A filled table resolves what the predict sets ask for**: alternatives are entered in the order of their numbers. -/
theorem of_alternativeIds {ids : List AlternativeId} (hids : g.alternativeIds = .ok ids)
    (h : ids.foldlM (fun f id => (Filling.insertAlternative g first follow f id).result) .empty = .ok f) :
    Resolves (Predicts g first follow) f := by
  have hstart : Resolves (fun lhs t id => id ∈ [] ∧ Predicts g first follow lhs t id) .empty :=
    Resolves.empty.congr fun lhs t id => by simp
  have hall := foldlM_takes (P := fun taken f => taken.Pairwise (fun i j => i.toRaw < j.toRaw) →
    Resolves (fun lhs t id => id ∈ taken ∧ Predicts g first follow lhs t id) f) h (fun _ => hstart)
    fun id _ taken b c hb hbc horder => by
      obtain ⟨htaken, _, hlast⟩ := List.pairwise_append.mp horder
      refine ((hb htaken).insertAlternative ?_ hbc).congr fun lhs t id' => ?_
      · rintro _ _ id' ⟨hid', _⟩
        exact Nat.le_of_lt (hlast id' hid' id List.mem_cons_self)
      · rw [List.mem_append, List.mem_singleton, or_and_right]
        refine or_congr_right (and_congr_right fun heq => ?_)
        rw [heq]
  refine (hall (pairwise_alternativeIds hids)).congr fun lhs t id => and_iff_right_of_imp ?_
  rintro ⟨r, a, ht, _⟩
  exact mem_alternativeIds hids ht

end Resolves
end Filling

/-! ## Parsers -/

/-- The table of the parser is exact: its sets are those of its grammar, each slot holds the first alternative whose
predict set holds the terminal, and its conflicts are with all the other such alternatives. -/
structure Parser.IsPredictive (p : Parser) : Prop where
  first_eq : p.first = FirstSets.ofGrammar p.grammar
  follow_eq : FollowSets.ofGrammar p.grammar p.first = .ok p.follow
  /-- The order of the alternatives is that of their numbers. -/
  ascending : ∃ ids, p.grammar.alternativeIds = .ok ids ∧ ids.Pairwise fun i j => i.toRaw < j.toRaw
  entry_iff : ∀ lhs t id, p.entries.get? lhs t = some id ↔ Predicts p.grammar p.first p.follow lhs t id ∧
    ∀ id', Predicts p.grammar p.first p.follow lhs t id' → id.toRaw ≤ id'.toRaw
  mem_conflicts_iff : ∀ c, c ∈ p.conflicts ↔ p.entries.get? c.nonterminal c.terminal = some c.kept ∧
    Predicts p.grammar p.first p.follow c.nonterminal c.terminal c.dropped ∧ c.dropped ≠ c.kept
  /-- There are no conflicts exactly if the predict sets of a nonterminal are disjoint. -/
  conflicts_eq_nil_iff : p.conflicts = [] ↔ ∀ lhs id id', id ≠ id' →
    ∀ t, Predicts p.grammar p.first p.follow lhs t id → ¬Predicts p.grammar p.first p.follow lhs t id'

/-- **LL(1) tables and their conflicts are exact**, whether there are conflicts or not. -/
theorem Parser.isPredictive_of_build {steps : List DefinitionStep} {order : Registry} {g : Grammar} {p : Parser}
    (hg : (Grammar.define steps).result = .ok g) (h : (Parser.build order g).result = .ok p) : p.IsPredictive := by
  have hx := Parser.exact_of_build (wellFormed_of_define hg) h
  obtain ⟨_, factored, follow, filling, hbuilt⟩ := Parser.exists_built h
  obtain ⟨ids, hids, hfilling⟩ := hbuilt.ids_eq
  have hresolves := Filling.Resolves.of_alternativeIds hids hfilling
  obtain rfl := hbuilt.parser_eq
  exact ⟨hx.first_eq, hx.follow_eq, ⟨ids, hids, pairwise_alternativeIds hids⟩, hresolves.entry_iff,
    hresolves.mem_conflicts_iff, hresolves.conflicts_eq_nil_iff⟩

section Overlapping

open TableParser.Symbol

/-- A letter behind two alternatives that can both vanish and can both begin with that letter. -/
def overlappingSteps : List DefinitionStep := [
  .rule (nonterminal "S") [nonterminal "A", terminal "a"] none,
  .rule (nonterminal "A") [nonterminal "B"] none,
  .rule (nonterminal "A") [nonterminal "C"] none,
  .rule (nonterminal "B") [terminal "a"] none,
  .rule (nonterminal "B") [epsilon] none,
  .rule (nonterminal "C") [terminal "c"] none,
  .rule (nonterminal "C") [terminal "a"] none,
  .rule (nonterminal "C") [epsilon] none]

/-- Three nonterminals have conflicts. The second alternative of the first one loses its slot twice, since it can begin
with the letter and can vanish before it. -/
theorem Parser.isPredictive_of_build_overlapping : ∃ g p, (Grammar.define overlappingSteps).result = .ok g ∧
    (Parser.build .fresh g).result = .ok p ∧ p.IsPredictive ∧ p.conflicts =
      [⟨nonterminal "A", terminal "a", ⟨1, 0⟩, ⟨1, 1⟩⟩, ⟨nonterminal "A", terminal "a", ⟨1, 0⟩, ⟨1, 1⟩⟩,
        ⟨nonterminal "B", terminal "a", ⟨2, 0⟩, ⟨2, 1⟩⟩, ⟨nonterminal "C", terminal "a", ⟨3, 1⟩, ⟨3, 2⟩⟩] := by
  have heval : ((Grammar.define overlappingSteps).result.toOption.any fun g =>
      (Parser.build .fresh g).result.toOption.any fun p => p.conflicts =
        [⟨nonterminal "A", terminal "a", ⟨1, 0⟩, ⟨1, 1⟩⟩, ⟨nonterminal "A", terminal "a", ⟨1, 0⟩, ⟨1, 1⟩⟩,
          ⟨nonterminal "B", terminal "a", ⟨2, 0⟩, ⟨2, 1⟩⟩, ⟨nonterminal "C", terminal "a", ⟨3, 1⟩, ⟨3, 2⟩⟩]) = true := by
    rfl
  obtain ⟨g, hg, hrest⟩ := exists_ok_of_any heval
  obtain ⟨p, hp, hconflicts⟩ := exists_ok_of_any hrest
  exact ⟨g, p, hg, hp, Parser.isPredictive_of_build hg hp, of_decide_eq_true hconflicts⟩

end Overlapping

end LL
end TableParser
