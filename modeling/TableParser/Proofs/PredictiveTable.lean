import TableParser.LL.Parser
import TableParser.Proofs.Automaton
import TableParser.Proofs.Factoring
import TableParser.Proofs.Follow
import TableParser.Proofs.LeftRecursion
import TableParser.Proofs.Terminals

/-!
# Predictive tables

What a built LL(1) parser says about its grammar (`LL.Parser.Exact`, `LL.Parser.exact_of_build`): it is a rewriting of
the grammar that it was built from, every entry is an alternative that its terminal predicts, and without conflicts
every alternative is entered under all terminals that predict it.
-/

namespace TableParser
namespace LL

/-! ## Filling -/

namespace Filling

variable {g : Grammar} {first : FirstSets} {follow : FollowSets} {f f' : Filling} {lhs t : Symbol} {id : AlternativeId}
  {r : Rule} {a : Alternative}

/-- What was entered stays entered, and conflicts stay conflicts. -/
structure Keeps (f f' : Filling) : Prop where
  table : ∀ lhs t id, f.table.get? lhs t = some id → f'.table.get? lhs t = some id
  conflicts : f'.conflicts = [] → f.conflicts = []

theorem Keeps.refl (f : Filling) : Keeps f f := ⟨fun _ _ _ h => h, fun h => h⟩

theorem Keeps.trans {f₁ f₂ f₃ : Filling} (h₁ : Keeps f₁ f₂) (h₂ : Keeps f₂ f₃) : Keeps f₁ f₃ :=
  ⟨fun lhs t id h => h₂.table lhs t id (h₁.table lhs t id h), fun h => h₁.conflicts (h₂.conflicts h)⟩

/-- Entering an alternative fills its slot if that is free, and else records the loss to the one that is there. -/
theorem insert_cases (h : (insert g lhs id f t).result = .ok f') :
    (f.table.get? lhs t = none ∧ f'.conflicts = f.conflicts ∧
      ∀ lhs' t', f'.table.get? lhs' t' = if (lhs', t') = (lhs, t) then some id else f.table.get? lhs' t') ∨
    ∃ kept, f.table.get? lhs t = some kept ∧ f'.table = f.table ∧
      f'.conflicts = f.conflicts ++ if kept = id then [] else [⟨lhs, t, kept, id⟩] := by
  unfold insert at h
  split at h
  · rename_i table hins
    cases h
    exact .inl ⟨Matrix.get?_eq_none_of_insert hins, rfl, Matrix.get?_of_insert hins⟩
  · rename_i kept hins
    refine .inr ⟨kept, Matrix.insert_eq_error_iff.mp hins, ?_⟩
    split at h
    · rename_i heq
      cases h
      rw [if_pos heq, List.append_nil]
      exact ⟨rfl, rfl⟩
    · rename_i hne
      obtain ⟨_, _, h⟩ := Trail.result_bind_eq_ok_iff.mp h
      obtain ⟨_, _, h⟩ := Trail.result_bind_eq_ok_iff.mp h
      cases h
      rw [if_neg hne]
      exact ⟨rfl, rfl⟩

/-- What happens when an alternative is entered: it is there afterwards unless there is a conflict. -/
theorem insert_spec (h : (insert g lhs id f t).result = .ok f') :
    Keeps f f' ∧ (f'.conflicts = [] → f'.table.get? lhs t = some id) ∧
      ∀ lhs' t' id', f'.table.get? lhs' t' = some id' →
        f.table.get? lhs' t' = some id' ∨ lhs' = lhs ∧ t' = t ∧ id' = id := by
  rcases insert_cases h with ⟨hfree, hconflicts, hget⟩ | ⟨kept, hkept, htable, hconflicts⟩
  · refine ⟨⟨fun lhs' t' id' hold => ?_, fun hnil => hconflicts ▸ hnil⟩, fun _ => ?_, fun lhs' t' id' hnew => ?_⟩
    · rw [hget, if_neg]
      · exact hold
      · intro hk
        cases hk
        rw [hfree] at hold
        cases hold
    · rw [hget, if_pos rfl]
    · rw [hget] at hnew
      split at hnew
      · rename_i hk
        cases hk
        cases hnew
        exact .inr ⟨rfl, rfl, rfl⟩
      · exact .inl hnew
  · refine ⟨⟨fun _ _ _ hold => htable ▸ hold, fun hnil => ?_⟩, fun hnil => ?_, fun _ _ _ hnew => .inl (htable ▸ hnew)⟩
    all_goals
      rw [hconflicts] at hnil
      obtain ⟨hold, hnew⟩ := List.append_eq_nil_iff.mp hnil
    · exact hold
    · by_cases heq : kept = id
      · rw [htable, hkept, heq]
      · rw [if_neg heq] at hnew
        cases hnew

/-- Every entry is an alternative of its nonterminal that its terminal predicts. -/
def Justified (g : Grammar) (first : FirstSets) (follow : FollowSets) (f : Filling) : Prop :=
  ∀ lhs t id, f.table.get? lhs t = some id →
    ∃ r a, g.target? id = some (r, a) ∧ r.lhs = lhs ∧ t ∈ predictSet first follow lhs a.symbols

theorem Justified.empty (g : Grammar) (first : FirstSets) (follow : FollowSets) : Justified g first follow .empty := by
  intro lhs t id h
  cases h

/-- Entering an alternative enters it under all terminals that predict it. -/
theorem insertAlternative_spec (hf : Justified g first follow f) (h : (insertAlternative g first follow f id).result = .ok f') :
    Keeps f f' ∧ Justified g first follow f' ∧ ∀ r a, g.target? id = some (r, a) → f'.conflicts = [] →
      ∀ t ∈ predictSet first follow r.lhs a.symbols, f'.table.get? r.lhs t = some id := by
  unfold insertAlternative at h
  obtain ⟨⟨r, a⟩, htarget, h⟩ := Trail.result_bind_eq_ok_iff.mp h
  have htarget' : g.target? id = some (r, a) := Grammar.target_eq_ok.mp htarget
  rw [Trail.result_foldlM] at h
  obtain ⟨hkeeps, hjust, hpass⟩ := foldlM_passes (R := Keeps) h hf Keeps.refl (fun _ _ _ => .trans)
    fun t ht d e hd hins => by
      obtain ⟨hk, _, hnew⟩ := insert_spec hins
      refine ⟨hk, fun lhs' t' id' hget => ?_⟩
      rcases hnew lhs' t' id' hget with hold | ⟨rfl, rfl, rfl⟩
      · exact hd lhs' t' id' hold
      · exact ⟨r, a, htarget', rfl, ht⟩
  refine ⟨hkeeps, hjust, fun r' a' htarget'' hnil t ht => ?_⟩
  rw [htarget'] at htarget''
  cases htarget''
  obtain ⟨d, e, _, hins, hlast⟩ := hpass t ht
  exact hlast.table _ _ _ ((insert_spec hins).2.1 (hlast.conflicts hnil))

/-- The places of the alternatives are those where there is one. -/
theorem mem_alternativePlaces {i j : Nat} : (i, j) ∈ g.alternativePlaces ↔
    ∃ r a, g.rules[i]? = some r ∧ r.alternatives[j]? = some a := by
  constructor
  · intro h
    obtain ⟨⟨r, i'⟩, hr, hmem⟩ := List.mem_flatMap.mp h
    obtain ⟨j', hj, heq⟩ := List.mem_map.mp hmem
    cases heq
    exact ⟨r, _, List.mem_zipIdx_iff_getElem?.mp hr, List.getElem?_eq_getElem (List.mem_range.mp hj)⟩
  · rintro ⟨r, a, hr, ha⟩
    refine List.mem_flatMap.mpr ⟨(r, i), List.mem_zipIdx_iff_getElem?.mpr hr, List.mem_map.mpr ⟨j, ?_, rfl⟩⟩
    exact List.mem_range.mpr (List.getElem?_eq_some_iff.mp ha).1

/-- The numbers of all alternatives name all alternatives. -/
theorem exists_mem_alternativeIds {ids : List AlternativeId} (h : g.alternativeIds = .ok ids) (hp : g.Produces lhs a) :
    ∃ id ∈ ids, ∃ r, g.target? id = some (r, a) ∧ r.lhs = lhs := by
  obtain ⟨r, hr, rfl, ha⟩ := hp
  obtain ⟨i, hi⟩ := List.mem_iff_getElem?.mp hr
  obtain ⟨j, hj⟩ := List.mem_iff_getElem?.mp ha
  obtain ⟨id, hid, hplace⟩ := exists_mem_of_mapM h (mem_alternativePlaces.mpr ⟨r, a, hi, hj⟩)
  obtain ⟨hrule, hindex⟩ := AlternativeId.ofIndices_eq_ok.mp hplace
  exact ⟨id, hid, r, Grammar.target?_eq_some.mpr ⟨by rw [hrule]; exact hi, by rw [hindex]; exact hj⟩, rfl⟩

end Filling

/-! ## Parsers -/

/-- Everything that a built parser says about its grammar. -/
structure Parser.Exact (g : Grammar) (p : Parser) : Prop where
  rewrites : Grammar.Rewrites g p.grammar
  first_eq : p.first = FirstSets.ofGrammar p.grammar
  follow_eq : FollowSets.ofGrammar p.grammar p.first = .ok p.follow
  terminals_eq : p.terminals = .ofGrammar p.grammar
  entry : ∀ lhs t id, p.entries.get? lhs t = some id →
    ∃ r a, p.grammar.target? id = some (r, a) ∧ r.lhs = lhs ∧ t ∈ predictSet p.first p.follow lhs a.symbols
  candidate : p.conflicts = [] → ∀ lhs a, p.grammar.Produces lhs a →
    ∀ t ∈ predictSet p.first p.follow lhs a.symbols, ∃ id r, p.entries.get? lhs t = some id ∧
      p.grammar.target? id = some (r, a)

/-- What a parser is built from: the rules without left recursion, the factored ones, their FOLLOW sets, and the table
with all alternatives entered. -/
structure Parser.Built (order : Registry) (g : Grammar) (direct factored : Transformation) (follow : FollowSets)
    (filling : Filling) (p : Parser) : Prop where
  direct_eq : (g.removeLeftRecursion order).result = .ok direct
  factored_eq : (direct.grammar.leftFactor direct.order : Reported Fault Transformation).result = .ok factored
  follow_eq : FollowSets.ofGrammar factored.grammar (.ofGrammar factored.grammar) = .ok follow
  ids_eq : ∃ ids, factored.grammar.alternativeIds = .ok ids ∧
    ids.foldlM (fun f id => (Filling.insertAlternative factored.grammar (.ofGrammar factored.grammar) follow f id).result)
      .empty = .ok filling
  parser_eq : p = ⟨factored.grammar, .ofGrammar factored.grammar, follow, filling.table, .ofGrammar factored.grammar,
    filling.conflicts⟩

theorem Parser.exists_built {order : Registry} {g : Grammar} {p : Parser} (h : (Parser.build order g).result = .ok p) :
    ∃ direct factored follow filling, Parser.Built order g direct factored follow filling p := by
  unfold build at h
  obtain ⟨direct, hdirect, h⟩ := Trail.result_bind_eq_ok_iff.mp h
  obtain ⟨factored, hfactored, h⟩ := Trail.result_bind_eq_ok_iff.mp h
  obtain ⟨first, hfirst, h⟩ := Trail.result_bind_eq_ok_iff.mp h
  cases hfirst
  obtain ⟨follow, hfollow, h⟩ := Trail.result_bind_eq_ok_iff.mp h
  obtain ⟨filling, hfilling, h⟩ := Trail.result_bind_eq_ok_iff.mp h
  cases h
  unfold Filling.ofGrammar at hfilling
  obtain ⟨ids, hids, hfilling⟩ := Trail.result_bind_eq_ok_iff.mp hfilling
  obtain ⟨f, hf, hfilling⟩ := Trail.result_bind_eq_ok_iff.mp hfilling
  rw [Trail.result_foldlM] at hf
  cases hfilling
  exact ⟨direct, factored, follow, filling, hdirect, hfactored, (FollowSets.result_report _ _).symm.trans hfollow,
    ⟨ids, hids, hf⟩, rfl⟩

/-- **Built parsers are exact.** -/
theorem Parser.exact_of_build {order : Registry} {g : Grammar} {p : Parser} (hg : g.WellFormed)
    (h : (Parser.build order g).result = .ok p) : p.Exact g := by
  obtain ⟨direct, factored, follow, filling, hbuilt⟩ := Parser.exists_built h
  obtain ⟨ids, hids, hf⟩ := hbuilt.ids_eq
  have hrecursion := Grammar.rewrites_of_removeLeftRecursion hg hbuilt.direct_eq
  have hfactoring := Grammar.retranslates_of_leftFactor hrecursion.wellFormed hbuilt.factored_eq
  obtain ⟨_, hjust, hpass⟩ := foldlM_passes (R := Filling.Keeps) hf
    (Filling.Justified.empty factored.grammar (.ofGrammar factored.grammar) follow) Filling.Keeps.refl
    (fun _ _ _ => .trans) fun id _ d e hd hins =>
      ⟨(Filling.insertAlternative_spec hd hins).1, (Filling.insertAlternative_spec hd hins).2.1⟩
  obtain rfl := hbuilt.parser_eq
  refine ⟨hrecursion.trans hfactoring.rewrites, rfl, hbuilt.follow_eq, rfl, hjust, ?_⟩
  intro hnil lhs a hp t ht
  obtain ⟨id, hid, r, htarget, rfl⟩ := Filling.exists_mem_alternativeIds hids hp
  obtain ⟨d, e, hd, hins, hlast⟩ := hpass id hid
  obtain ⟨_, _, hin⟩ := Filling.insertAlternative_spec hd hins
  exact ⟨id, r, hlast.table _ _ _ (hin r a htarget (hlast.conflicts hnil) t ht), htarget⟩

end LL
end TableParser
