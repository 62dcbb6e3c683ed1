import TableParser.Proofs.PredictiveTermination
import TableParser.Proofs.SavedForm
import TableParser.Proofs.SlrConflicts

/-!
# Saving and loading are inverse on built parsers

Built parsers have what loading demands: their tables are about states, alternatives and symbols that are there, and no
slot is listed twice (`LL.Parser.loadable_of_build`, `LR.Table.loadable_of_build`). So they can be saved, and loading
gives back their grammars and their tables, by which alone they parse (`CompiledParser.load_save`).

* **Terminals in tables** come from the grammar, but for the end marker (`LL.Parser.Exact.mem_of_entry`).
-/

namespace TableParser

/-! ## Terminals in tables -/

/-- FOLLOW sets hold terminals of the grammar and the end marker. -/
theorem FollowSets.members_ofGrammar_subset {g : Grammar} {first : FirstSets} {follow : FollowSets}
    (hfirst : ∀ k, ∀ x ∈ SymbolSets.members first k, x ∈ Symbol.epsilon :: g.terminals)
    (h : ofGrammar g first = .ok follow) (k : Symbol) :
    ∀ x ∈ SymbolSets.members follow k, x ∈ Symbol.endMarker :: g.terminals := by
  cases hstart : g.start with
  | error f =>
    rw [ofGrammar, converge, hstart] at h
    cases h
  | ok start =>
    rw [ofGrammar, converge, hstart] at h
    cases h
    exact SymbolSets.Within.members (saturate_induction (pass g first)
      (motive := fun follow => SymbolSets.Within g.nonterminals (Symbol.endMarker :: g.terminals) follow)
      (fun _ hw => within_update hfirst hw) (within_seed hstart) _)

/-- A terminal of the grammar and the end marker are listed. -/
theorem Form.lists_of_mem {g : Grammar} {t : Symbol} (h : t ∈ Symbol.endMarker :: g.terminals) :
    (SymbolLists.ofGrammar g).Lists t :=
  .inl (mem_terminals_ofGrammar.mpr (List.mem_cons.mp h))

namespace LL.Parser

/-- Alternatives are predicted by terminals of the grammar and by the end marker. -/
theorem mem_of_mem_predictSet {g : Grammar} {first : FirstSets} {follow : FollowSets} {lhs t : Symbol} {a : Alternative}
    (hfirst : ∀ k, ∀ x ∈ SymbolSets.members first k, x ∈ Symbol.epsilon :: g.terminals)
    (hfollow : FollowSets.ofGrammar g first = .ok follow) (hp : g.Produces lhs a)
    (h : t ∈ predictSet first follow lhs a.symbols) : t ∈ Symbol.endMarker :: g.terminals := by
  rcases mem_predictSet.mp h with ⟨h, hne⟩ | ⟨_, h⟩
  · have hvalue : t ∈ Symbol.epsilon :: g.terminals := by
      refine FirstSets.mem_of_mem_sequenceHeads hfirst List.mem_cons_self (fun s hs ht => ?_) t h
      exact List.mem_cons_of_mem _ (Grammar.mem_terminals.mpr ⟨ht, lhs, a, hp, hs⟩)
    exact List.mem_cons_of_mem _ ((List.mem_cons.mp hvalue).resolve_left hne)
  · exact FollowSets.members_ofGrammar_subset hfirst hfollow lhs t h

/-- Entries are about terminals of the grammar and the end marker. -/
theorem Exact.mem_of_entry {g : Grammar} {p : Parser} {lhs t : Symbol} {id : AlternativeId} (hx : p.Exact g)
    (h : p.entries.get? lhs t = some id) : t ∈ Symbol.endMarker :: p.grammar.terminals := by
  have hfirst : ∀ k, ∀ x ∈ SymbolSets.members p.first k, x ∈ Symbol.epsilon :: p.grammar.terminals := by
    rw [hx.first_eq]
    exact FirstSets.members_ofGrammar_subset p.grammar
  obtain ⟨r, a, htarget, rfl, ht⟩ := hx.entry lhs t id h
  exact mem_of_mem_predictSet hfirst hx.follow_eq (Grammar.produces_of_target? htarget).2 ht

end LL.Parser

/-! ## Slots are listed once -/

theorem Matrix.Proper.insert {κ₁ κ₂ ν : Type} [DecidableEq κ₁] [DecidableEq κ₂] {m n : Matrix κ₁ κ₂ ν} {k₁ : κ₁}
    {k₂ : κ₂} {v : ν} (hm : m.Proper) (h : m.insert k₁ k₂ v = .ok n) : n.Proper := by
  have hn := hm.insertNew k₁ k₂ v
  unfold Matrix.insertNew at hn
  rwa [h] at hn

namespace LL.Filling

variable {g : Grammar} {first : FirstSets} {follow : FollowSets} {f f' : Filling} {lhs t : Symbol} {id : AlternativeId}

theorem proper_insert (hf : f.table.Proper) (h : (insert g lhs id f t).result = .ok f') : f'.table.Proper := by
  unfold insert at h
  split at h
  · rename_i table hins
    cases h
    exact hf.insert hins
  · split at h
    · cases h
      exact hf
    · obtain ⟨_, _, h⟩ := Trail.result_bind_eq_ok_iff.mp h
      cases h
      exact hf

theorem proper_insertAlternative (hf : f.table.Proper) (h : (insertAlternative g first follow f id).result = .ok f') :
    f'.table.Proper := by
  unfold insertAlternative at h
  obtain ⟨⟨r, a⟩, _, h⟩ := Trail.result_bind_eq_ok_iff.mp h
  rw [Trail.result_foldlM] at h
  exact foldlM_invariant (P := fun f => f.table.Proper) h hf fun _ _ _ _ hb hins => proper_insert hb hins

end LL.Filling

namespace LR.Filling

variable {g : Grammar} {follow : FollowSets} {accept : Symbol} {f f' : Filling} {q : StateId} {t : Symbol}
  {act : TableAction}

/-- No slot of either table is listed twice. -/
structure Proper (f : Filling) : Prop where
  actions : f.actions.Proper
  gotos : f.gotos.Proper

theorem Proper.insert (hf : f.Proper) (h : (Filling.insert g q act f t).result = .ok f') : f'.Proper := by
  rcases insert_cases h with ⟨actions, hins, rfl⟩ | ⟨kept, _, rfl⟩
  · exact ⟨hf.actions.insert hins, hf.gotos⟩
  · exact ⟨hf.actions, hf.gotos⟩

theorem Proper.insertEdge {edge : StateId × Symbol × StateId} (hf : f.Proper)
    (h : (Filling.insertEdge g f edge).result = .ok f') : f'.Proper := by
  unfold Filling.insertEdge at h
  dsimp only at h
  split at h
  · exact hf.insert h
  · cases h
    exact ⟨hf.actions, hf.gotos.insertNew _ _ _⟩

theorem Proper.insertItem {i : Item} (hf : f.Proper) (h : (Filling.insertItem g follow accept q f i).result = .ok f') :
    f'.Proper := by
  obtain ⟨r, b, _, ⟨_, rfl⟩ | ⟨_, _, h⟩ | ⟨_, _, h⟩⟩ := insertItem_cases h
  · exact hf
  · exact hf.insert h
  · exact foldlM_invariant (P := Proper) h hf fun _ _ _ _ hb hins => hb.insert hins

theorem Proper.insertState {p : Prediction} {s : State} (hf : f.Proper)
    (h : (Filling.insertState p follow accept f s).result = .ok f') : f'.Proper := by
  obtain ⟨items, _, h⟩ := insertState_eq_ok h
  exact foldlM_invariant (P := Proper) h hf fun _ _ _ _ hb hins => hb.insertItem hins

theorem proper_of_built {a : Automaton} {edges items : Filling} {table : Table}
    (h : Table.Built g accept follow a edges items table) : items.Proper := by
  have hempty : Filling.empty.Proper := ⟨.nil, .nil⟩
  have hedges : edges.Proper :=
    foldlM_invariant (P := Proper) h.edges_eq hempty fun _ _ _ _ hb hins => hb.insertEdge hins
  exact foldlM_invariant (P := Proper) h.items_eq hedges fun _ _ _ _ hb hins => hb.insertState hins

end LR.Filling

/-! ## Built parsers can be loaded -/

theorem Grammar.WellFormed.loadable {g : Grammar} (hg : g.WellFormed) : g.Loadable where
  lhs := hg.nonterminal_lhs
  symbols r hr a ha := hg.symbols_ne_nil r.lhs a ⟨r, hr, rfl, ha⟩

theorem Grammar.Augmented.loadable {g g' : Grammar} {start accept : Symbol} (h : Augmented g g' start accept) :
    g'.Loadable where
  lhs := h.nonterminal_lhs
  symbols r hr a ha := by
    rcases h.produces_iff.mp ⟨r, hr, rfl, ha⟩ with ⟨_, rfl⟩ | hp
    · exact List.cons_ne_nil _ _
    · exact h.wellFormed.symbols_ne_nil _ _ hp

theorem LL.Parser.loadable_of_build {order : Registry} {g : Grammar} {p : LL.Parser} (hg : g.WellFormed)
    (h : (LL.Parser.build order g).result = .ok p) : p.Loadable := by
  have hx := exact_of_build hg h
  have hproper : p.entries.Proper := by
    obtain ⟨_, factored, follow, filling, hbuilt⟩ := exists_built h
    obtain ⟨ids, _, hfilling⟩ := hbuilt.ids_eq
    obtain rfl := hbuilt.parser_eq
    exact foldlM_invariant (P := fun f => f.table.Proper) hfilling .nil fun _ _ _ _ hb hins =>
      Filling.proper_insertAlternative hb hins
  refine ⟨hx.rewrites.wellFormed.loadable, hproper, fun lhs t id hmem => ?_, fun lhs t id hmem => ?_⟩
  · have hget := hproper.mem_toList_iff.mp hmem
    obtain ⟨r, a, htarget, rfl, _⟩ := hx.entry lhs t id hget
    exact ⟨Form.lists_lhs (Grammar.produces_of_target? htarget).1, Form.lists_of_mem (hx.mem_of_entry hget)⟩
  · obtain ⟨r, a, htarget, _⟩ := hx.entry lhs t id (hproper.mem_toList_iff.mp hmem)
    exact Option.isSome_iff_exists.mpr ⟨_, htarget⟩

/-- No set is without a state. -/
theorem LR.Automaton.Exact.length_le {p : Prediction} {sets : List ItemSet} {a : Automaton} (h : Exact p sets a) :
    sets.length ≤ a.states.length := by
  have hsubset : List.range sets.length ⊆ a.states.map fun s => s.id.number.toNat := by
    intro i hi
    obtain ⟨s, hs, hnumber⟩ := h.exists_state i _ (List.getElem?_eq_getElem (List.mem_range.mp hi))
    exact List.mem_map.mpr ⟨s, hs, hnumber⟩
  have hle := (List.nodup_range.subperm hsubset).length_le
  rwa [List.length_range, List.length_map] at hle

theorem LR.Table.loadable_of_build {g : Grammar} {t : LR.Table} (hg : g.WellFormed)
    (h : (LR.Table.build g).result = .ok t) : t.Loadable := by
  obtain ⟨start, accept, follow, sets, a, hx⟩ := exact_of_build hg h
  obtain ⟨_, _, a', edges, items, hbuilt⟩ := exists_built h
  have hproper := Filling.proper_of_built hbuilt
  have hactions : t.actions.Proper := (congrArg Table.actions hbuilt.table_eq) ▸ hproper.actions
  have hgotos : t.gotos.Proper := (congrArg Table.gotos hbuilt.table_eq) ▸ hproper.gotos
  have hautomaton : a' = a :=
    Option.some.inj ((congrArg Table.automaton hbuilt.table_eq).symm.trans hx.automaton_eq)
  have hcount : t.stateCount = a.states.length := (congrArg Table.stateCount hbuilt.table_eq).trans (by rw [hautomaton])
  have hstate : ∀ {q : StateId} {set : ItemSet}, sets[q.number.toNat]? = some set → q.number.toNat < t.stateCount := by
    intro q set hset
    rw [hcount]
    exact Nat.lt_of_lt_of_le (List.getElem?_eq_some_iff.mp hset).1 hx.automaton.length_le
  have hedge : ∀ {q : StateId} {s : Symbol} {r : StateId}, a.edges.get? q s = some r →
      q.number.toNat < t.stateCount ∧ (Form.SymbolLists.ofGrammar t.grammar).Lists s ∧
        r.number.toNat < t.stateCount := by
    intro q s r hget
    obtain ⟨set, target, hset, htarget, _⟩ := hx.automaton.sound.edges q s r hget
    obtain ⟨i, rule, b, _, ht, _, hn⟩ := Automaton.Has.exists_of_edge hx.automaton rfl hget
    exact ⟨hstate hset, Form.lists_of_produces (Grammar.produces_of_target? ht).2 (List.mem_of_getElem? hn),
      hstate htarget⟩
  have hfollow : ∀ lhs, ∀ s ∈ SymbolSets.members follow lhs, s ∈ Symbol.endMarker :: t.grammar.terminals :=
    FollowSets.members_ofGrammar_subset (FirstSets.members_ofGrammar_subset t.grammar) hx.follow_eq
  refine ⟨hx.augmented.loadable, hactions, hgotos, fun q s act hmem => ?_, fun q s r hmem => ?_⟩
  · cases hx.action q s act (hactions.mem_toList_iff.mp hmem) with
    | shift hget _ => exact ⟨(hedge hget).1, (hedge hget).2.1, (hedge hget).2.2⟩
    | reduce hi htarget _ _ hs _ =>
      obtain ⟨set, hset, _⟩ := hi
      exact ⟨hstate hset, Form.lists_of_mem (hfollow _ s hs), Option.isSome_iff_exists.mpr ⟨_, htarget⟩⟩
    | accept hi _ _ _ hs =>
      obtain ⟨set, hset, _⟩ := hi
      exact ⟨hstate hset, Form.lists_of_mem (hs ▸ List.mem_cons_self), trivial⟩
  · exact hedge ((hx.goto q s r).mp (hgotos.mem_toList_iff.mp hmem)).1

/-! ## The round trip -/

namespace CompiledParser

/-- The parser was built from the grammar. -/
inductive BuiltFrom (g : Grammar) : CompiledParser → Prop
  | ll {order : Registry} {p : LL.Parser} (h : (LL.Parser.build order g).result = .ok p) : BuiltFrom g (.ll p)
  | lr {t : LR.Table} (h : (LR.Table.build g).result = .ok t) : BuiltFrom g (.lr t)

/-- Parse the tokens of a source. -/
def parse {σ ε : Type} [TokenSource σ ε] (p : CompiledParser) (fuel : Nat) (source : σ) :
    Option (Except (Failure (ParseError ε)) (Tree Symbol)) :=
  match p with
  | .ll p => p.parse fuel source
  | .lr t => t.parse fuel source

/-- Two parsers of one kind have the same grammar, the same entries in the same order, and as many states. -/
inductive Alike : CompiledParser → CompiledParser → Prop
  | ll {p q : LL.Parser} (grammar : p.grammar = q.grammar) (entries : p.entries.toList = q.entries.toList) :
      Alike (.ll p) (.ll q)
  | lr {t u : LR.Table} (grammar : t.grammar = u.grammar) (actions : t.actions.toList = u.actions.toList)
      (gotos : t.gotos.toList = u.gotos.toList) (stateCount : t.stateCount = u.stateCount) : Alike (.lr t) (.lr u)

variable {g : Grammar} {p : CompiledParser}

theorem BuiltFrom.loadable (h : p.BuiltFrom g) (hg : g.WellFormed) : p.Loadable := by
  cases h with
  | ll h => exact LL.Parser.loadable_of_build hg h
  | lr h => exact LR.Table.loadable_of_build hg h

theorem alike_reloaded (p : CompiledParser) : Alike p p.reloaded := by
  cases p with
  | ll p => exact .ll rfl rfl
  | lr t => exact .lr rfl rfl rfl rfl

/-- What is left of a built parser parses as it did before. -/
theorem BuiltFrom.parse_reloaded (h : p.BuiltFrom g) (hg : g.WellFormed) {σ ε : Type} [TokenSource σ ε] (fuel : Nat)
    (source : σ) : p.reloaded.parse fuel source = p.parse fuel source := by
  cases h with
  | @ll order p h =>
    have hterminals := (LL.Parser.exact_of_build hg h).terminals_eq
    have htable : (LL.Parser.ofTable p.grammar p.entries).table = p.table := by
      unfold LL.Parser.table
      rw [hterminals]
      rfl
    exact congrArg (fun table => PredictiveTable.parse table fuel source) htable
  | @lr t h =>
    obtain ⟨start, accept, follow, sets, a, hx⟩ := LR.Table.exact_of_build hg h
    have hterminals : t.terminals = .ofGrammar t.grammar :=
      hx.terminals_eq.trans (congrArg TerminalMap.mk hx.augmented.terminals_eq.symm)
    have htable : (LR.Table.ofEntries t.grammar t.actions t.gotos t.stateCount).table = t.table := by
      unfold LR.Table.table
      rw [hterminals]
      rfl
    exact congrArg (fun table => ActionTable.parse table fuel source) htable

/-- **Built parsers survive saving and loading.** -/
theorem load_save {steps : List DefinitionStep} (hg : (Grammar.define steps).result = .ok g) (hp : p.BuiltFrom g)
    (hfits : p.Fits) : p.save.result = .ok () ∧ ∃ q, (load p.save.emitted).result = .ok q ∧ Alike p q ∧
      (∀ {σ ε : Type} [TokenSource σ ε] (fuel : Nat) (source : σ), q.parse fuel source = p.parse fuel source) ∧
      q.save = p.save := by
  have hwell := wellFormed_of_define hg
  have hload := hp.loadable hwell
  have hloaded := result_load_save hload hfits []
  rw [List.append_nil] at hloaded
  exact ⟨congrArg Trail.result (save_eq hload.covered), p.reloaded, hloaded, alike_reloaded p, hp.parse_reloaded hwell,
    save_reloaded p⟩

end CompiledParser

section Homonyms

open TableParser.Symbol

/-- A nonterminal and a terminal of one name, actions, a builtin terminal, and the empty derivation. -/
def homonymSteps : List DefinitionStep := [
  .rule (nonterminal "S") [terminal "S", nonterminal "A"] (some "put"),
  .rule (nonterminal "A") [number] none,
  .rule (nonterminal "A") [epsilon] (some "")]

set_option maxRecDepth 10000 in
/-- Both parsers of a grammar with one name for two symbols survive saving and loading. -/
theorem CompiledParser.load_save_homonyms : ∃ g p t, (Grammar.define homonymSteps).result = .ok g ∧
    (LL.Parser.build .fresh g).result = .ok p ∧ (LR.Table.build g).result = .ok t ∧
    ∀ c ∈ [CompiledParser.ll p, .lr t], c.Fits ∧ c.save.result = .ok () ∧
      ∃ q, (load c.save.emitted).result = .ok q ∧ Alike c q ∧
        (∀ {σ ε : Type} [TokenSource σ ε] (fuel : Nat) (source : σ), q.parse fuel source = c.parse fuel source) ∧
        q.save = c.save := by
  have heval : ((Grammar.define homonymSteps).result.toOption.any fun g =>
      (LL.Parser.build .fresh g).result.toOption.any fun p => (LR.Table.build g).result.toOption.any fun t =>
        decide (CompiledParser.ll p).Fits && decide (CompiledParser.lr t).Fits) = true := by rfl
  obtain ⟨g, hg, heval⟩ := exists_ok_of_any heval
  obtain ⟨p, hp, heval⟩ := exists_ok_of_any heval
  obtain ⟨t, ht, heval⟩ := exists_ok_of_any heval
  obtain ⟨hpfits, htfits⟩ := Bool.and_eq_true_iff.mp heval
  refine ⟨g, p, t, hg, hp, ht, fun c hc => ?_⟩
  rcases List.mem_pair.mp hc with rfl | rfl
  · exact ⟨of_decide_eq_true hpfits, load_save hg (.ll hp) (of_decide_eq_true hpfits)⟩
  · exact ⟨of_decide_eq_true htfits, load_save hg (.lr ht) (of_decide_eq_true htfits)⟩

end Homonyms
end TableParser
