import TableParser.Proofs.Loading

/-!
# Saving what was loaded

A saved parser lists its symbols itself, but writing lists the symbols of the grammar, and the end marker. So a loaded
parser can be saved again if and only if its table is about nothing else (`CompiledParser.Covered`); otherwise writing stops
at a symbol that was listed for the table alone. What can be saved again loads as the same parser
(`CompiledParser.resave_of_load`), however freely its bytes were chosen.
-/

namespace TableParser

/-! ## What fits still fits -/

section Listed

variable {lists : Form.SymbolLists} {kind : Int} {bytes : List UInt8} {g : Grammar} {s : Symbol}

theorem Grammar.Resolved.lists_of_produces (hg : g.Resolved lists) {lhs : Symbol} {a : Alternative}
    (h : g.Produces lhs a) (hs : s ∈ a.symbols) : lists.Lists s := by
  obtain ⟨r, hr, rfl, ha⟩ := h
  exact ((hg r hr).alternatives a ha).symbols s hs

/-- The symbols of a grammar that was read are listed. -/
theorem Grammar.Resolved.lists_of_mem (hg : g.Resolved lists) (h : s ∈ g.terminals ∨ s ∈ g.nonterminals) :
    lists.Lists s := by
  rcases h with h | h
  · obtain ⟨_, lhs, a, hp, hs⟩ := Grammar.mem_terminals.mp h
    exact hg.lists_of_produces hp hs
  · rcases Grammar.mem_nonterminals.mp h with h | ⟨_, lhs, a, hp, hs⟩
    · obtain ⟨r, hr, rfl⟩ := List.mem_map.mp h
      exact (hg r hr).lhs
    · exact hg.lists_of_produces hp hs

/-- A listed nonterminal stands in the list of the nonterminals. -/
theorem Form.SymbolLists.AtFront.mem_nonterminals (h : lists.AtFront kind bytes) (hs : lists.Lists s)
    (hkind : s.kind = .nonterminal) : s ∈ lists.nonterminals := by
  refine hs.resolve_left fun ht => ?_
  rw [h.terminals s ht] at hkind
  cases hkind

/-- The lists that writing makes fit if the terminals can be counted. -/
theorem Grammar.Resolved.fits_ofGrammar (hg : g.Resolved lists) (hfits : lists.Fits) (hfront : lists.AtFront kind bytes)
    (hcount : (Form.SymbolLists.ofGrammar g).terminals.length < 2 ^ 31) : (Form.SymbolLists.ofGrammar g).Fits := by
  refine ⟨hcount, ?_, fun s hs => ?_⟩
  · have hsubset : (Form.SymbolLists.ofGrammar g).nonterminals ⊆ lists.nonterminals := fun s hs =>
      hfront.mem_nonterminals (hg.lists_of_mem (.inr hs)) (Form.kind_of_mem_nonterminals hg.loadable hs)
    have hnodup : (Form.SymbolLists.ofGrammar g).nonterminals.Nodup := nodup_insertSymbols .nil _
    exact Nat.lt_of_le_of_lt (hnodup.subperm hsubset).length_le hfits.nonterminals
  · rcases Form.lists_ofGrammar_iff.mp (List.mem_append.mp hs) with rfl | hs
    · decide
    · exact hfits.name s (List.mem_append.mpr (hg.lists_of_mem hs))

end Listed

/-! ## The second round -/

namespace CompiledParser

variable {p : CompiledParser} {lists : Form.SymbolLists} {bytes : List UInt8}

theorem Resolved.grammar (h : p.Resolved lists) : p.grammar.Resolved lists := by
  cases p with
  | ll p => exact LL.Parser.Resolved.grammar h
  | lr t => exact LR.Table.Resolved.grammar h

/-- A parser whose references lead somewhere and whose table is about symbols of its grammar has all that loading
demands. -/
theorem Resolved.loadable (h : p.Resolved lists) (hcovered : p.Covered) : p.Loadable := by
  cases p with
  | ll p =>
    have hlisted : ∀ lhs t id, (lhs, t, id) ∈ p.entries.toList → ∀ s ∈ [lhs, t],
        (Form.SymbolLists.ofGrammar p.grammar).Lists s := fun lhs t id hmem s hs =>
      Form.lists_ofGrammar_iff.mpr (hcovered s (List.mem_flatMap.mpr ⟨_, hmem, hs⟩))
    exact {
      grammar := h.grammar.loadable
      proper := LL.Parser.Resolved.proper h
      symbols := fun lhs t id hmem =>
        ⟨hlisted lhs t id hmem lhs List.mem_cons_self, hlisted lhs t id hmem t (List.mem_cons_of_mem _ List.mem_cons_self)⟩
      alternative := fun lhs t id hmem => (LL.Parser.Resolved.entry h lhs t id hmem).2.2 }
  | lr t =>
    have hlisted : ∀ s, s ∈ CompiledParser.tableSymbols (.lr t) → (Form.SymbolLists.ofGrammar t.grammar).Lists s :=
      fun s hs => Form.lists_ofGrammar_iff.mpr (hcovered s hs)
    exact {
      grammar := h.grammar.loadable
      properActions := LR.Table.Resolved.properActions h
      properGotos := LR.Table.Resolved.properGotos h
      action := fun q s act hmem =>
        have hentry := LR.Table.Resolved.action h q s act hmem
        ⟨hentry.1, hlisted s (List.mem_append_left _ (List.mem_map.mpr ⟨_, hmem, rfl⟩)), hentry.2.2⟩
      goto := fun q s r hmem =>
        have hentry := LR.Table.Resolved.goto h q s r hmem
        ⟨hentry.1, hlisted s (List.mem_append_right _ (List.mem_map.mpr ⟨_, hmem, rfl⟩)), hentry.2.2⟩ }

theorem ReadFrom.fits (h : p.ReadFrom lists bytes)
    (hcount : (Form.SymbolLists.ofGrammar p.grammar).terminals.length < 2 ^ 31) : p.Fits where
  lists := h.resolved.grammar.fits_ofGrammar h.lists_fit h.atFront hcount
  grammar := h.grammar_fits
  table := h.table_fits

theorem exists_readFrom (h : (load bytes).result = .ok p) : ∃ lists, p.ReadFrom lists bytes := by
  rcases read_or_refused bytes with ⟨e, hload, _⟩ | ⟨q, lists, hload, hq⟩
  · rw [hload] at h
    cases h
  · rw [hload] at h
    cases h
    exact ⟨lists, hq⟩

/-- A symbol that stops the writing of a parser is one that its table alone is about. -/
theorem exists_unlisted (h : ¬p.Covered) : ∃ s ∈ p.tableSymbols, s ∉ p.grammar.terminals ∧ s ∉ p.grammar.nonterminals ∧
    p.save.result = .error (.corrupted (.unlistedSymbol s)) := by
  obtain ⟨s, hs, hunlisted, hresult⟩ := Form.exists_unlisted fun hlisted => h (Form.listed_ofParser_iff.mp hlisted)
  have htable := (Form.lists_or_mem_tableSymbols hs).resolve_left hunlisted
  rw [Form.lists_ofGrammar_iff, not_or, not_or] at hunlisted
  exact ⟨s, htable, hunlisted.2.1, hunlisted.2.2, hresult⟩

/-- **A loaded parser can be saved again exactly if its table is about symbols of its grammar**, and is then loaded as it
is: a parser of its kind with its grammar, its entries in their order and its number of states. -/
theorem resave_of_load (h : (load bytes).result = .ok p) :
    (p.save.result = .ok () ↔ p.Covered) ∧
      (¬p.Covered → ∃ s ∈ p.tableSymbols, s ∉ p.grammar.terminals ∧ s ∉ p.grammar.nonterminals ∧
        p.save.result = .error (.corrupted (.unlistedSymbol s))) ∧
      (p.Covered → (Form.SymbolLists.ofGrammar p.grammar).terminals.length < 2 ^ 31 →
        ∀ rest, (load (p.save.emitted ++ rest)).result = .ok p) := by
  obtain ⟨lists, hp⟩ := exists_readFrom h
  refine ⟨⟨fun hsaved => ?_, fun hcovered => congrArg Trail.result (save_eq hcovered)⟩, exists_unlisted,
    fun hcovered hcount rest => ?_⟩
  · by_contra hcovered
    obtain ⟨s, _, _, _, hresult⟩ := exists_unlisted hcovered
    rw [hsaved] at hresult
    cases hresult
  · have hloaded := result_load_save (hp.resolved.loadable hcovered) (hp.fits hcount) rest
    rwa [hp.reloaded] at hloaded

section Files

open TableParser.Symbol Form

/-- A saved LL(1) parser of one rule, which derives a letter, with an entry for another letter. -/
def strayLetterFile : List UInt8 :=
  let lists : SymbolLists := ⟨[endMarker, terminal "a", terminal "b"], [nonterminal "S"]⟩
  encode lists (Field.opening kindLL lists ++
    [.int 1, .symbol (nonterminal "S"), .int 1, .int 1, .symbol (terminal "a"), .int 0,
      .int 1, .symbol (nonterminal "S"), .symbol (terminal "b"), .int 0])

/-- A saved table of three states with a letter listed twice and one listed for nothing, an action marked by a number of
its own, and a value at the acceptance. -/
def looseFile : List UInt8 :=
  let lists : SymbolLists := ⟨[terminal "a", terminal "b", terminal "a"], [nonterminal "T", nonterminal "S", nonterminal "S'"]⟩
  encode lists (Field.opening kindLR lists ++
    [.int 2, .int (-3), .int 1, .int 1, .int (-2), .int 0,
      .int (-2), .int 1, .int 1, .int 2, .int (-7), .text "leaf",
      .int 3, .int 2, .int 0, .int 0, .int tagShift, .int 1, .int 1, .int (-3), .int tagAccept, .int 9,
      .int 1, .int 0, .int (-2), .int 2])

set_option maxRecDepth 10000 in
/-- A table that was not written by saving can be saved, and loads again. -/
theorem resave_of_load_loose : ∃ p, (load looseFile).result = .ok p ∧ (p.save.result = .ok () ∧ p.Covered) ∧
    ∀ rest, (load (p.save.emitted ++ rest)).result = .ok p := by
  have heval : ((load looseFile).result.toOption.any fun p =>
      decide p.Covered && decide ((SymbolLists.ofGrammar p.grammar).terminals.length < 2 ^ 31)) = true := by rfl
  obtain ⟨p, hp, heval⟩ := exists_ok_of_any heval
  obtain ⟨hcovered, hcount⟩ := Bool.and_eq_true_iff.mp heval
  obtain ⟨hsaved, _, hloaded⟩ := resave_of_load hp
  have hcovered := of_decide_eq_true hcovered
  exact ⟨p, hp, ⟨hsaved.mpr hcovered, hcovered⟩, hloaded hcovered (of_decide_eq_true hcount)⟩

set_option maxRecDepth 10000 in
/-- An accepted file whose table is about a letter that no rule has cannot be saved. -/
theorem not_saved_stray_letter : ∃ p, (load strayLetterFile).result = .ok p ∧
    p.save.result = .error (.corrupted (.unlistedSymbol (terminal "b"))) := by
  have heval : ((load strayLetterFile).result.toOption.any fun p =>
      decide (p.save.result = .error (.corrupted (.unlistedSymbol (terminal "b"))))) = true := by rfl
  obtain ⟨p, hp, heval⟩ := exists_ok_of_any heval
  exact ⟨p, hp, of_decide_eq_true heval⟩

end Files

end CompiledParser
end TableParser
