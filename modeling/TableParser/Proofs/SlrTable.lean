import TableParser.LR.Table
import TableParser.Proofs.Automaton
import TableParser.Proofs.Follow

/-!
# What stands in SLR tables

An action of a table is a candidate for its slot (`LR.Candidate`): a shift along an edge, a reduction by a complete item
on a terminal that follows, or acceptance. All candidates are entered, so that without conflicts the table holds all of
them (`LR.Table.Exact`, `LR.Table.exact_of_build`).

* **Augmentation** (`Grammar.Augmented`) adds one rule for a nonterminal that stands nowhere else.
-/

namespace TableParser

/-! ## Augmentation -/

/-- The second grammar has one more rule, for a new start symbol that derives the old one. -/
structure Grammar.Augmented (g g' : Grammar) (start accept : Symbol) : Prop where
  wellFormed : g.WellFormed
  start_eq : g.start = .ok start
  fresh : accept ∉ g.nonterminals
  nonterminal : accept.isNonterminal = true
  rules_eq : g'.rules = ⟨accept, [⟨[start], none⟩]⟩ :: g.rules

namespace Grammar.Augmented

variable {g g' : Grammar} {start accept lhs s : Symbol} {a : Alternative}

theorem of_augment (hg : g.WellFormed) (h : g.augment.result = .ok g') : ∃ start accept, Augmented g g' start accept := by
  unfold augment at h
  obtain ⟨start, hstart, h⟩ := Trail.result_bind_eq_ok_iff.mp h
  cases h
  exact ⟨start, _, hg, hstart, Grammar.primedName_not_mem _ _, rfl, rfl⟩

theorem start_eq_accept (h : Augmented g g' start accept) : g'.start = .ok accept := by
  unfold Grammar.start
  rw [h.rules_eq]

theorem eq_start (h : Augmented g g' start accept) (hs : g.start = .ok s) : s = start :=
  Except.ok.inj (hs.symm.trans h.start_eq)

theorem start_mem (h : Augmented g g' start accept) : start ∈ g.lhsSymbols := by
  obtain ⟨r, hr, hstart⟩ := h.wellFormed.exists_start
  exact h.eq_start hstart ▸ List.mem_map_of_mem hr

theorem start_nonterminal (h : Augmented g g' start accept) : start.isNonterminal = true :=
  h.wellFormed.start_nonterminal h.start_eq

theorem produces_iff (h : Augmented g g' start accept) :
    g'.Produces lhs a ↔ lhs = accept ∧ a = ⟨[start], none⟩ ∨ g.Produces lhs a := by
  unfold Produces
  rw [h.rules_eq]
  constructor
  · rintro ⟨r, hr, hlhs, ha⟩
    rcases List.mem_cons.mp hr with rfl | hr
    · exact .inl ⟨hlhs.symm, List.mem_singleton.mp ha⟩
    · exact .inr ⟨r, hr, hlhs, ha⟩
  · rintro (⟨rfl, rfl⟩ | ⟨r, hr, hlhs, ha⟩)
    · exact ⟨_, List.mem_cons_self, rfl, List.mem_singleton.mpr rfl⟩
    · exact ⟨r, List.mem_cons_of_mem _ hr, hlhs, ha⟩

/-- The new start symbol has no alternatives in the old grammar. -/
theorem ne_accept (h : Augmented g g' start accept) (hp : g.Produces lhs a) : lhs ≠ accept := by
  rintro rfl
  exact h.fresh (Grammar.mem_nonterminals.mpr (.inl hp.mem_lhsSymbols))

theorem nodup_lhs (h : Augmented g g' start accept) : (g'.rules.map Rule.lhs).Nodup := by
  rw [h.rules_eq]
  refine List.nodup_cons.mpr ⟨?_, h.wellFormed.nodup_lhs⟩
  exact fun hmem => h.fresh (Grammar.mem_nonterminals.mpr (.inl hmem))

theorem nonterminal_lhs (h : Augmented g g' start accept) : ∀ r ∈ g'.rules, r.lhs.isNonterminal = true := by
  intro r hr
  rw [h.rules_eq] at hr
  rcases List.mem_cons.mp hr with rfl | hr
  · exact h.nonterminal
  · exact h.wellFormed.nonterminal_lhs r hr

/-- The new start symbol stands on no right-hand side. -/
theorem accept_not_mem_rhsSymbols (h : Augmented g g' start accept) : accept ∉ g'.rhsSymbols := by
  intro hmem
  obtain ⟨lhs, a, hp, hs⟩ := Grammar.mem_rhsSymbols.mp hmem
  rcases h.produces_iff.mp hp with ⟨_, rfl⟩ | hp
  · rw [List.mem_singleton.mp hs] at h
    exact h.fresh (Grammar.mem_nonterminals.mpr (.inl h.start_mem))
  · exact h.fresh (Grammar.mem_nonterminals.mpr (.inr ⟨h.nonterminal, lhs, a, hp, hs⟩))

theorem epsilonAlone (h : Augmented g g' start accept) : EpsilonAlone g'.Produces := by
  intro lhs a hp he
  rcases h.produces_iff.mp hp with ⟨_, rfl⟩ | hp
  · have hstart := h.start_nonterminal
    rw [← List.mem_singleton.mp he] at hstart
    cases hstart
  · exact h.wellFormed.epsilonAlone lhs a hp he

/-- Both grammars have the same terminals, in the same order. -/
theorem terminals_eq (h : Augmented g g' start accept) : g'.terminals = g.terminals := by
  have hstart := Symbol.isTerminal_eq_false_iff.mpr h.start_nonterminal
  unfold terminals rhsSymbols
  rw [h.rules_eq]
  simp [hstart]

end Grammar.Augmented

namespace LR

/-! ## Candidates -/

/-- What the automaton and the FOLLOW sets offer for a slot of the table. -/
inductive Candidate (g : Grammar) (accept : Symbol) (follow : FollowSets) (sets : List ItemSet) (edges : Edges)
    (q : StateId) (t : Symbol) : TableAction → Prop
  | shift {r : StateId} (h : edges.get? q t = some r) (ht : t.isTerminal = true) :
      Candidate g accept follow sets edges q t (.shift r)
  | reduce {i : Item} {r : Rule} {a : Alternative} (h : Automaton.Has sets q i)
      (hi : g.target? i.alternative = some (r, a)) (hc : i.isCompleteIn a = true) (hr : r.lhs ≠ accept)
      (ht : t ∈ SymbolSets.members follow r.lhs) (he : t ≠ Symbol.epsilon) :
      Candidate g accept follow sets edges q t (.reduce i.alternative)
  | accept {i : Item} {r : Rule} {a : Alternative} (h : Automaton.Has sets q i)
      (hi : g.target? i.alternative = some (r, a)) (hc : i.isCompleteIn a = true) (hr : r.lhs = accept)
      (ht : t = Symbol.endMarker) : Candidate g accept follow sets edges q t .accept

/-! ## Filling -/

namespace Filling

variable {g : Grammar} {accept : Symbol} {follow : FollowSets} {sets : List ItemSet} {a : Automaton}
  {f f' : Filling} {q : StateId} {t : Symbol} {act : TableAction}

/-- What was entered stays entered, and conflicts stay conflicts. -/
structure Keeps (f f' : Filling) : Prop where
  actions : ∀ q t act, f.actions.get? q t = some act → f'.actions.get? q t = some act
  gotos : ∀ q t r, f.gotos.get? q t = some r → f'.gotos.get? q t = some r
  conflicts : f'.conflicts = [] → f.conflicts = []

theorem Keeps.refl (f : Filling) : Keeps f f := ⟨fun _ _ _ h => h, fun _ _ _ h => h, fun h => h⟩

theorem Keeps.trans {f₁ f₂ f₃ : Filling} (h₁ : Keeps f₁ f₂) (h₂ : Keeps f₂ f₃) : Keeps f₁ f₃ :=
  ⟨fun q t act h => h₂.actions q t act (h₁.actions q t act h), fun q t r h => h₂.gotos q t r (h₁.gotos q t r h),
    fun h => h₁.conflicts (h₂.conflicts h)⟩

/-- Entering an action fills its slot if that is free, and else records the loss to the one that is there. -/
theorem insert_cases (h : (insert g q act f t).result = .ok f') :
    (∃ actions, f.actions.insert q t act = .ok actions ∧ f' = { f with actions := actions }) ∨
    ∃ kept, f.actions.get? q t = some kept ∧
      f' = { f with conflicts := f.conflicts ++ if kept = act then [] else [⟨q, t, kept, act⟩] } := by
  unfold insert at h
  split at h
  · rename_i actions hins
    cases h
    exact .inl ⟨actions, hins, rfl⟩
  · rename_i kept hins
    refine .inr ⟨kept, Matrix.insert_eq_error_iff.mp hins, ?_⟩
    split at h
    · rename_i heq
      cases h
      rw [if_pos heq, List.append_nil]
    · rename_i hne
      obtain ⟨_, _, h⟩ := Trail.result_bind_eq_ok_iff.mp h
      cases h
      rw [if_neg hne]

/-- What happens when an action is entered: it is there afterwards unless there is a conflict. -/
theorem insert_spec (h : (insert g q act f t).result = .ok f') :
    Keeps f f' ∧ (f'.conflicts = [] → f'.actions.get? q t = some act) ∧ f'.gotos = f.gotos ∧
      ∀ q' t' act', f'.actions.get? q' t' = some act' →
        f.actions.get? q' t' = some act' ∨ q' = q ∧ t' = t ∧ act' = act := by
  rcases insert_cases h with ⟨actions, hins, rfl⟩ | ⟨kept, hkept, rfl⟩
  · have hfree := Matrix.get?_eq_none_of_insert hins
    have hget := Matrix.get?_of_insert hins
    refine ⟨⟨fun q' t' act' hold => ?_, fun _ _ _ h => h, fun h => h⟩, fun _ => ?_, rfl, fun q' t' act' hnew => ?_⟩
    · rw [hget, if_neg]
      · exact hold
      · intro hk
        cases hk
        rw [hfree] at hold
        cases hold
    · rw [hget, if_pos rfl]
    · rw [hget] at hnew
      split at hnew
      · rename_i hk
        cases hk
        cases hnew
        exact .inr ⟨rfl, rfl, rfl⟩
      · exact .inl hnew
  · refine ⟨⟨fun _ _ _ h => h, fun _ _ _ h => h, fun hnil => (List.append_eq_nil_iff.mp hnil).1⟩, fun hnil => ?_, rfl,
      fun _ _ _ hnew => .inl hnew⟩
    by_cases heq : kept = act
    · exact heq ▸ hkept
    · have hnew := (List.append_eq_nil_iff.mp hnil).2
      rw [if_neg heq] at hnew
      cases hnew

/-- An item asks for nothing unless it is complete; then it asks for acceptance, or for a reduction on what follows its
left-hand side. -/
theorem insertItem_cases {i : Item} (h : (insertItem g follow accept q f i).result = .ok f') :
    ∃ r b, g.target? i.alternative = some (r, b) ∧
      (i.isCompleteIn b = false ∧ f' = f ∨
      i.isCompleteIn b = true ∧ r.lhs = accept ∧ (insert g q .accept f Symbol.endMarker).result = .ok f' ∨
      i.isCompleteIn b = true ∧ r.lhs ≠ accept ∧
        ((SymbolSets.members follow r.lhs).filter (· != Symbol.epsilon)).foldlM
          (fun f t => (insert g q (.reduce i.alternative) f t).result) f = .ok f') := by
  unfold insertItem at h
  obtain ⟨complete, hcomplete, h⟩ := Trail.result_bind_eq_ok_iff.mp h
  have hcomplete' : i.isComplete g = .ok complete := hcomplete
  obtain ⟨⟨r, b⟩, htarget, hc⟩ := map_eq_ok_iff.mp hcomplete'
  refine ⟨r, b, Grammar.target_eq_ok.mp htarget, ?_⟩
  cases complete with
  | false =>
    cases h
    exact .inl ⟨hc, rfl⟩
  | true =>
    rw [if_pos rfl, Trail.result_bind, bind_eq_ok_iff] at h
    obtain ⟨target, htarget', h⟩ := h
    cases Except.ok.inj (Eq.trans (Eq.symm htarget') htarget)
    dsimp only at h
    split at h
    · rename_i hr
      exact .inr (.inl ⟨hc, hr, h⟩)
    · rename_i hr
      rw [Trail.result_foldlM] at h
      exact .inr (.inr ⟨hc, hr, h⟩)

/-- A state asks for what the items of its closed set ask for. -/
theorem insertState_eq_ok {p : Prediction} {s : State} (h : (insertState p follow accept f s).result = .ok f') :
    ∃ set, p.closure s.core = .ok set ∧
      set.foldlM (fun f i => (insertItem p.grammar follow accept s.id f i).result) f = .ok f' := by
  unfold insertState at h
  obtain ⟨set, hset, h⟩ := Trail.result_bind_eq_ok_iff.mp h
  rw [Trail.result_foldlM] at h
  exact ⟨set, hset, h⟩

/-- What stands in the table is justified by the automaton and the FOLLOW sets. -/
structure Justified (g : Grammar) (accept : Symbol) (follow : FollowSets) (sets : List ItemSet) (edges : Edges)
    (f : Filling) : Prop where
  actions : ∀ q t act, f.actions.get? q t = some act → Candidate g accept follow sets edges q t act
  gotos : ∀ q t r, f.gotos.get? q t = some r → edges.get? q t = some r ∧ t.isTerminal = false

theorem Justified.empty (g : Grammar) (accept : Symbol) (follow : FollowSets) (sets : List ItemSet) (edges : Edges) :
    Justified g accept follow sets edges .empty where
  actions _ _ _ h := by cases h
  gotos _ _ _ h := by cases h

/-- Entering a candidate keeps the table justified. -/
theorem Justified.insert (hf : Justified g accept follow sets a.edges f)
    (hact : Candidate g accept follow sets a.edges q t act) (h : (Filling.insert g q act f t).result = .ok f') :
    Justified g accept follow sets a.edges f' := by
  obtain ⟨_, _, hgotos, hnew⟩ := insert_spec h
  refine ⟨fun q' t' act' hget => ?_, fun q' t' r hget => ?_⟩
  · rcases hnew q' t' act' hget with hold | ⟨rfl, rfl, rfl⟩
    · exact hf.actions q' t' act' hold
    · exact hact
  · rw [hgotos] at hget
    exact hf.gotos q' t' r hget

section Edges

variable {edge : StateId × Symbol × StateId}

/-- The edge has been entered: as a goto, or as a shift unless there was a conflict. -/
structure Edged (f : Filling) (edge : StateId × Symbol × StateId) : Prop where
  shift : edge.2.1.isTerminal = true → f.conflicts = [] → f.actions.get? edge.1 edge.2.1 = some (.shift edge.2.2)
  goto : edge.2.1.isTerminal = false → f.gotos.get? edge.1 edge.2.1 = some edge.2.2

theorem Edged.mono (h : Edged f edge) (hkeeps : Keeps f f') : Edged f' edge where
  shift ht hnil := hkeeps.actions _ _ _ (h.shift ht (hkeeps.conflicts hnil))
  goto ht := hkeeps.gotos _ _ _ (h.goto ht)

/-- Entering an edge enters its action or its goto. -/
theorem insertEdge_spec (hf : Justified g accept follow sets a.edges f)
    (hedge : a.edges.get? edge.1 edge.2.1 = some edge.2.2) (h : (insertEdge g f edge).result = .ok f') :
    Keeps f f' ∧ Justified g accept follow sets a.edges f' ∧ Edged f' edge := by
  obtain ⟨source, s, target⟩ := edge
  unfold insertEdge at h
  dsimp only at h hedge
  split at h
  · rename_i hs
    obtain ⟨hkeeps, hin, _, _⟩ := insert_spec h
    exact ⟨hkeeps, hf.insert (.shift hedge hs) h, fun _ => hin, fun hs' => absurd (hs.symm.trans hs') Bool.noConfusion⟩
  · rename_i hs
    have hs' : s.isTerminal = false := by simpa using hs
    cases h
    refine ⟨⟨fun _ _ _ h => h, fun _ _ _ hget => Matrix.get?_insertNew_of_get? hget, fun h => h⟩,
      ⟨hf.actions, fun q' t' r hget => ?_⟩, fun hs'' => ?_, fun _ => ?_⟩
    · rw [Matrix.get?_insertNew] at hget
      split at hget
      · rename_i hk
        cases hk
        cases hold : f.gotos.get? source s with
        | none =>
          rw [hold] at hget
          cases hget
          exact ⟨hedge, hs'⟩
        | some r₀ =>
          rw [hold] at hget
          cases hget
          exact hf.gotos source s r₀ hold
      · exact hf.gotos q' t' r hget
    · exact absurd hs'' hs
    · rw [Matrix.get?_insertNew, if_pos rfl]
      cases hold : f.gotos.get? source s with
      | none => rfl
      | some r₀ =>
        have := (hf.gotos source s r₀ hold).1
        rw [hedge] at this
        cases this
        rfl

/-- **All edges of an automaton are entered.** -/
theorem insertEdges_spec (hproper : a.edges.Proper)
    (h : a.edges.toList.foldlM (fun f edge => (insertEdge g f edge).result) .empty = .ok f) :
    Justified g accept follow sets a.edges f ∧ ∀ q s r, a.edges.get? q s = some r → Edged f (q, s, r) := by
  have hedges : ∀ edge ∈ a.edges.toList, a.edges.get? edge.1 edge.2.1 = some edge.2.2 := fun edge hedge =>
    hproper.mem_toList_iff.mp hedge
  obtain ⟨_, hjust, hpass⟩ := foldlM_passes (R := Keeps) h (Justified.empty g accept follow sets a.edges) Keeps.refl
    (fun _ _ _ => .trans) fun edge hedge _ _ hb hins =>
      ⟨(insertEdge_spec hb (hedges edge hedge) hins).1, (insertEdge_spec hb (hedges edge hedge) hins).2.1⟩
  refine ⟨hjust, fun q s r hget => ?_⟩
  obtain ⟨d, e, hd, hins, hlast⟩ := hpass (q, s, r) (Matrix.mem_toList_of_get? hget)
  exact (insertEdge_spec hd hget hins).2.2.mono hlast

end Edges

/-- What a complete item of an alternative asks for has been entered: acceptance for the new start symbol, and else a
reduction on whatever follows the left-hand side. -/
structure Granted (follow : FollowSets) (augmented : Symbol) (f : Filling) (q : StateId) (lhs : Symbol)
    (id : AlternativeId) : Prop where
  accept : lhs = augmented → f.actions.get? q Symbol.endMarker = some .accept
  reduce : lhs ≠ augmented → ∀ t ∈ SymbolSets.members follow lhs, t ≠ Symbol.epsilon →
    f.actions.get? q t = some (.reduce id)

theorem Granted.mono {lhs : Symbol} {id : AlternativeId} (h : Granted follow accept f q lhs id) (hkeeps : Keeps f f') :
    Granted follow accept f' q lhs id where
  accept hlhs := hkeeps.actions _ _ _ (h.accept hlhs)
  reduce hlhs t ht hne := hkeeps.actions _ _ _ (h.reduce hlhs t ht hne)

/-- Entering what a complete item asks for enters its candidates. -/
theorem insertItem_spec {i : Item} (hf : Justified g accept follow sets a.edges f) (hi : Automaton.Has sets q i)
    (h : (insertItem g follow accept q f i).result = .ok f') :
    Keeps f f' ∧ Justified g accept follow sets a.edges f' ∧
      ∀ r b, g.target? i.alternative = some (r, b) → i.isCompleteIn b = true → f'.conflicts = [] →
        Granted follow accept f' q r.lhs i.alternative := by
  obtain ⟨r, b, ht, ⟨hc, rfl⟩ | ⟨hc, hr, h⟩ | ⟨hc, hr, h⟩⟩ := insertItem_cases h
  · refine ⟨.refl _, hf, fun r' b' ht' hc' => ?_⟩
    rw [ht] at ht'
    cases ht'
    cases hc'.symm.trans hc
  · obtain ⟨hkeeps, hin, _, _⟩ := insert_spec h
    refine ⟨hkeeps, hf.insert (.accept hi ht hc hr rfl) h, fun r' b' ht' _ hnil => ?_⟩
    rw [ht] at ht'
    cases ht'
    exact ⟨fun _ => hin hnil, fun hne => absurd hr hne⟩
  · have hmem : ∀ t ∈ (SymbolSets.members follow r.lhs).filter (· != Symbol.epsilon),
        t ∈ SymbolSets.members follow r.lhs ∧ t ≠ Symbol.epsilon := by
      intro t ht
      obtain ⟨h₁, h₂⟩ := List.mem_filter.mp ht
      exact ⟨h₁, bne_iff_ne.mp h₂⟩
    obtain ⟨hkeeps, hjust, hpass⟩ := foldlM_passes (R := Keeps) h hf Keeps.refl (fun _ _ _ => Keeps.trans)
      fun t ht' _ _ hb hins => ⟨(insert_spec hins).1, hb.insert (.reduce hi ht hc hr (hmem t ht').1 (hmem t ht').2) hins⟩
    refine ⟨hkeeps, hjust, fun r' b' ht' _ hnil => ?_⟩
    rw [ht] at ht'
    cases ht'
    refine ⟨fun heq => absurd heq hr, fun _ t htmem hne => ?_⟩
    obtain ⟨d, e, _, hins, hlast⟩ := hpass t (List.mem_filter.mpr ⟨htmem, bne_iff_ne.mpr hne⟩)
    exact hlast.actions q t _ ((insert_spec hins).2.1 (hlast.conflicts hnil))

/-- Entering what the items of a state ask for enters all candidates of the state. -/
theorem insertState_spec {p : Prediction} {s : State} {set : ItemSet} (hf : Justified p.grammar accept follow sets a.edges f)
    (hset : sets[s.id.number.toNat]? = some set) (hcore : p.closure s.core = .ok set)
    (h : (insertState p follow accept f s).result = .ok f') :
    Keeps f f' ∧ Justified p.grammar accept follow sets a.edges f' ∧
      ∀ i r b, Automaton.Has sets s.id i → p.grammar.target? i.alternative = some (r, b) →
        i.isCompleteIn b = true → f'.conflicts = [] → Granted follow accept f' s.id r.lhs i.alternative := by
  obtain ⟨items, hitems, h⟩ := insertState_eq_ok h
  obtain rfl : items = set := Except.ok.inj (hitems.symm.trans hcore)
  have hhas : ∀ i ∈ items, Automaton.Has sets s.id i := fun i hi => ⟨items, hset, hi⟩
  obtain ⟨hkeeps, hjust, hpass⟩ := foldlM_passes (R := Keeps) h hf Keeps.refl (fun _ _ _ => Keeps.trans)
    fun i hi _ _ hb hins => ⟨(insertItem_spec hb (hhas i hi) hins).1, (insertItem_spec hb (hhas i hi) hins).2.1⟩
  refine ⟨hkeeps, hjust, ?_⟩
  rintro i r b ⟨set', hset', hi⟩ ht hc hnil
  rw [hset] at hset'
  cases hset'
  obtain ⟨d, e, hd, hins, hlast⟩ := hpass i hi
  obtain ⟨_, _, hin⟩ := insertItem_spec hd (hhas i hi) hins
  exact (hin r b ht hc (hlast.conflicts hnil)).mono hlast

/-- **All complete items of an automaton are entered.** -/
theorem insertStates_spec {p : Prediction} (hx : Automaton.Exact p sets a)
    (hf : Justified p.grammar accept follow sets a.edges f)
    (h : a.states.foldlM (fun f s => (insertState p follow accept f s).result) f = .ok f') :
    Keeps f f' ∧ Justified p.grammar accept follow sets a.edges f' ∧
      ∀ q i r b, Automaton.Has sets q i → p.grammar.target? i.alternative = some (r, b) →
        i.isCompleteIn b = true → f'.conflicts = [] → Granted follow accept f' q r.lhs i.alternative := by
  obtain ⟨hkeeps, hjust, hpass⟩ := foldlM_passes (R := Keeps) h hf Keeps.refl (fun _ _ _ => .trans)
    fun s hs _ _ hb hins => by
      obtain ⟨set, hset, hcore⟩ := hx.closure_core s hs
      obtain ⟨hk, hj, _⟩ := insertState_spec hb hset hcore hins
      exact ⟨hk, hj⟩
  refine ⟨hkeeps, hjust, ?_⟩
  rintro q i r b ⟨set, hset, hi⟩ ht hc hnil
  obtain ⟨s, hs, rfl, hcore⟩ := hx.exists_state_of_set hset
  obtain ⟨d, e, hd, hins, hlast⟩ := hpass s hs
  obtain ⟨_, _, hin⟩ := insertState_spec hd hset hcore hins
  exact (hin i r b ⟨set, hset, hi⟩ ht hc (hlast.conflicts hnil)).mono hlast

end Filling

/-! ## Tables -/

/-- Everything that a built table says about its grammar. -/
structure Table.Exact (g : Grammar) (start accept : Symbol) (follow : FollowSets) (sets : List ItemSet) (a : Automaton)
    (t : Table) : Prop where
  augmented : Grammar.Augmented g t.grammar start accept
  follow_eq : FollowSets.ofGrammar t.grammar (FirstSets.ofGrammar t.grammar) = .ok follow
  automaton : Automaton.Exact ⟨t.grammar, none⟩ sets a
  automaton_eq : t.automaton = some a
  terminals_eq : t.terminals = .ofGrammar g
  action : ∀ q s act, t.actions.get? q s = some act → Candidate t.grammar accept follow sets a.edges q s act
  goto : ∀ q s r, t.gotos.get? q s = some r ↔ a.edges.get? q s = some r ∧ s.isTerminal = false
  candidate : t.conflicts = [] → ∀ q s act, Candidate t.grammar accept follow sets a.edges q s act →
    t.actions.get? q s = some act

/-- What a table is built from: the new start symbol, the FOLLOW sets, the automaton, and the table with its edges
entered and then with its items entered. -/
structure Table.Built (g : Grammar) (accept : Symbol) (follow : FollowSets) (a : Automaton) (edges items : Filling)
    (t : Table) : Prop where
  augment_eq : g.augment.result = .ok t.grammar
  start_eq : t.grammar.start = .ok accept
  follow_eq : FollowSets.ofGrammar t.grammar (FirstSets.ofGrammar t.grammar) = .ok follow
  automaton_eq : (Automaton.build ⟨t.grammar, none⟩).result = .ok a
  edges_eq : a.edges.toList.foldlM (fun f edge => (Filling.insertEdge t.grammar f edge).result) .empty = .ok edges
  items_eq : a.states.foldlM (fun f s => (Filling.insertState ⟨t.grammar, none⟩ follow accept f s).result) edges =
    .ok items
  table_eq : t = ⟨t.grammar, items.actions, items.gotos, a.states.length, .ofGrammar t.grammar, some a, items.conflicts⟩

theorem Table.exists_built {g : Grammar} {t : Table} (h : (Table.build g).result = .ok t) :
    ∃ accept follow a edges items, Table.Built g accept follow a edges items t := by
  unfold Table.build at h
  obtain ⟨g', hg', h⟩ := Trail.result_bind_eq_ok_iff.mp h
  obtain ⟨accept, haccept, h⟩ := Trail.result_bind_eq_ok_iff.mp h
  obtain ⟨first, hfirst, h⟩ := Trail.result_bind_eq_ok_iff.mp h
  cases hfirst
  obtain ⟨follow, hfollow, h⟩ := Trail.result_bind_eq_ok_iff.mp h
  obtain ⟨a, ha, h⟩ := Trail.result_bind_eq_ok_iff.mp h
  obtain ⟨edges, hedges, h⟩ := Trail.result_bind_eq_ok_iff.mp h
  rw [Trail.result_foldlM] at hedges
  obtain ⟨items, hitems, h⟩ := Trail.result_bind_eq_ok_iff.mp h
  rw [Trail.result_foldlM] at hitems
  cases h
  exact ⟨accept, follow, a, edges, items, hg', haccept, (FollowSets.result_report g' _).symm.trans hfollow, ha, hedges,
    hitems, rfl⟩

/-- **Built tables are exact.** -/
theorem Table.exact_of_build {g : Grammar} {t : Table} (hg : g.WellFormed) (h : (Table.build g).result = .ok t) :
    ∃ start accept follow sets a, Table.Exact g start accept follow sets a t := by
  obtain ⟨accept', follow, a, f₁, f₂, hg', haccept, hfollow, ha, h₁, h₂, htable⟩ := Table.exists_built h
  generalize t.grammar = g' at hg' haccept hfollow ha h₁ h₂ htable
  subst htable
  obtain ⟨start, accept, haug⟩ := Grammar.Augmented.of_augment hg hg'
  have heq : accept' = accept := Except.ok.inj (Eq.trans (Eq.symm haccept) haug.start_eq_accept)
  subst heq
  obtain ⟨sets, hexact⟩ := Automaton.exact_of_build (p := ⟨g', none⟩) haug.nodup_lhs ha
  obtain ⟨hjust₁, hedged⟩ : Filling.Justified g' accept' follow sets a.edges f₁ ∧
      ∀ q s r, a.edges.get? q s = some r → Filling.Edged f₁ (q, s, r) := Filling.insertEdges_spec hexact.sound.proper h₁
  obtain ⟨hkeeps, hjust₂, hgranted⟩ := Filling.insertStates_spec hexact hjust₁ h₂
  refine ⟨start, accept', follow, sets, a, haug, hfollow, hexact, rfl, ?_, hjust₂.actions, ?_, ?_⟩
  · exact congrArg TerminalMap.mk haug.terminals_eq
  · intro q s r
    exact ⟨hjust₂.gotos q s r, fun ⟨hedge, hs⟩ => ((hedged q s r hedge).mono hkeeps).goto hs⟩
  · intro hnil q s act hcand
    cases hcand with
    | shift hedge hs => exact ((hedged q s _ hedge).mono hkeeps).shift hs hnil
    | reduce hi ht hc hr hs hne => exact (hgranted q _ _ _ hi ht hc hnil).reduce hr s hs hne
    | accept hi ht hc hr hs =>
      subst hs
      exact (hgranted q _ _ _ hi ht hc hnil).accept hr

end LR
end TableParser
