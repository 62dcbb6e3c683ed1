import TableParser.Proofs.PredictiveTermination

/-!
# Trees of predictive parses

What a predictive parse that succeeds says about its table and its source, whatever the table: each node of the tree is
as the table has it (`PredictiveTable.Fits`), there are no nodes but those under the root, and the leaves are the tokens
of the source (`PredictiveTable.IsParse`). A node is judged by the reading that visits it (`PredictiveTable.fits_of_reads`),
and the tree of a parse is all visited.

For the table of an LL(1) parser the right-hand sides are alternatives of its grammar, conflicts or not, so the tree is
one of derivation (`LL.Parser.Exact.written_of_predicted`).
-/

namespace TableParser

variable {S P σ ε : Type}

/-- The symbol of a node, if there is one. -/
def Tree.symbol? (t : Tree S) (id : Nat) : Option S := (t.node? id).map TreeNode.symbol

theorem Tree.Reads.symbol?_eq {t : Tree S} {id : Nat} {d : Derivation S} {tokens : List Token} {visited : List Nat}
    (h : t.Reads id d tokens visited) : t.symbol? id = some d.symbol := by
  obtain ⟨n, hn, hsymbol⟩ := h.exists_node
  rw [symbol?, hn, Option.map_some, hsymbol]

/-- Nodes that are read carry the symbols of the derivations. -/
theorem Tree.ReadsAll.map_symbol? {t : Tree S} {ids : List Nat} {ds : List (Derivation S)} {tokens : List Token}
    {visited : List Nat} (h : t.ReadsAll ids ds tokens visited) :
    ids.map t.symbol? = (ds.map Derivation.symbol).map some := by
  induction ds generalizing ids tokens visited with
  | nil =>
    cases h
    rfl
  | cons d ds ih =>
    cases h with
    | cons hd hds => rw [List.map_cons, List.map_cons, List.map_cons, hd.symbol?_eq, ih hds]

namespace PredictiveTable

/-! ## Nodes -/

/-- A node of the tree is as the table has it. -/
inductive Fits (table : PredictiveTable S P) (tree : Tree S) (n : TreeNode S) : Prop
  /-- The children of a nonterminal carry a right-hand side that is predicted for it. -/
  | nonterminal {lookahead : S} {id : P} {rhs : List S} (ht : table.isTerminal n.symbol = false)
      (hp : table.predict n.symbol lookahead = .ok (some (id, rhs))) (hc : n.children.map tree.symbol? = rhs.map some)
      (htoken : n.token = none)
  /-- A terminal has no children, but a token that it accepts. -/
  | terminal {token : Token} (ht : table.isTerminal n.symbol = true) (he : table.isEpsilon n.symbol = false)
      (htoken : n.token = some token) (ha : table.accepts n.symbol token = .ok true) (hc : n.children = [])
  /-- The empty derivation has neither. -/
  | epsilon (ht : table.isTerminal n.symbol = true) (he : table.isEpsilon n.symbol = true) (htoken : n.token = none)
      (hc : n.children = [])

section Reading

variable {table : PredictiveTable S P} {tree : Tree S}

mutual

/-- **Nodes that are read as a predicted derivation are as the table has them**, if the tokens are accepted by the
terminals that they are read for. -/
theorem fits_of_reads {id : Nat} {d : Derivation S} {tokens : List Token} {visited : List Nat}
    (h : tree.Reads id d tokens visited) (hd : Predicted table d)
    (ha : ∀ x ∈ d.yield.zip tokens, table.accepts x.1 x.2 = .ok true) :
    ∀ i ∈ visited, ∀ n, tree.node? i = some n → Fits table tree n := by
  intro i hi n hn
  cases h with
  | leaf h =>
    rw [List.mem_singleton.mp hi, h] at hn
    cases hn
    cases hd with
    | terminal ht he => exact .terminal ht he rfl (ha _ List.mem_cons_self) rfl
  | @node _ s _ children _ _ h hc =>
    have hchildren : ∀ e ∈ children, Predicted table e := by
      cases hd with
      | epsilon _ _ => exact fun e he => absurd he List.not_mem_nil
      | node _ _ hall => exact hall
    rcases List.mem_cons.mp hi with rfl | hi
    · rw [h] at hn
      cases hn
      cases hd with
      | epsilon ht he =>
        cases hc
        exact .epsilon ht he rfl rfl
      | node ht hp _ => exact .nonterminal ht hp hc.map_symbol? rfl
    · rw [Derivation.yield] at ha
      exact fits_of_readsAll hc hchildren ha i hi n hn

theorem fits_of_readsAll {ids : List Nat} {ds : List (Derivation S)} {tokens : List Token} {visited : List Nat}
    (h : tree.ReadsAll ids ds tokens visited) (hd : ∀ d ∈ ds, Predicted table d)
    (ha : ∀ x ∈ (Derivation.yieldAll ds).zip tokens, table.accepts x.1 x.2 = .ok true) :
    ∀ i ∈ visited, ∀ n, tree.node? i = some n → Fits table tree n := by
  intro i hi n hn
  cases h with
  | nil => cases hi
  | @cons _ _ d ds _ _ _ _ h hr =>
    rw [Derivation.yieldAll, List.zip_append h.length_tokens.symm] at ha
    rcases List.mem_append.mp hi with hi | hi
    · exact fits_of_reads h (hd d List.mem_cons_self) (fun x hx => ha x (List.mem_append_left _ hx)) i hi n hn
    · exact fits_of_readsAll hr (fun e he => hd e (List.mem_cons_of_mem _ he))
        (fun x hx => ha x (List.mem_append_right _ hx)) i hi n hn

end

end Reading

/-! ## Whole trees -/

/-- The tree is one of a parse of the source by the table. -/
structure IsParse [TokenSource σ ε] (table : PredictiveTable S P) (source : σ) (tree : Tree S) : Prop where
  /-- The root carries the start symbol. -/
  root : ∃ root start, tree.root = some root ∧ table.start = .ok start ∧ tree.symbol? root = some start
  fits : ∀ i n, tree.node? i = some n → Fits table tree n
  /-- Every node is under the root, and only once. -/
  once : ∃ d, tree.Shows d tree.leaves
  /-- The leaves are the tokens up to the end of the input but for some line breaks. -/
  leaves : ∃ done eof last, Pulls source (done ++ [eof]) last ∧ eof.isEndOfFile = true ∧ Skimmed done tree.leaves

/-- What a parse shows, with the derivation that its tree shows. -/
theorem isParse_and_shows [TokenSource σ ε] {table : PredictiveTable S P} {fuel : Nat} {source : σ} {tree : Tree S}
    (h : table.parse fuel source = some (.ok tree)) :
    table.IsParse source tree ∧ ∃ d, tree.Shows d tree.leaves ∧ table.start = .ok d.symbol ∧ Predicted table d := by
  obtain ⟨d, done, kept, eof, last, hstart, hpredicted, hshows, hyield, haccepts, hpulls, heof, hskim⟩ := shows_of_parse h
  have hleaves := hshows.leaves_eq
  rw [← hleaves] at hskim
  refine ⟨⟨?_, ?_, ⟨d, hleaves ▸ hshows⟩, ⟨done, eof, last, hpulls, heof, hskim⟩⟩, d, hleaves ▸ hshows, hstart, hpredicted⟩
  · obtain ⟨root, visited, hroot, hreads, _⟩ := hshows
    exact ⟨root, d.symbol, hroot, hstart, hreads.symbol?_eq⟩
  · intro i n hn
    obtain ⟨root, visited, _, hreads, hall⟩ := hshows
    have hvisited : i ∈ visited := hall.mem_iff.mpr (List.mem_range.mpr (Tree.lt_size_of_node? hn))
    refine fits_of_reads hreads hpredicted (fun x hx => ?_) i hvisited n hn
    rw [hyield, ← List.zip_of_prod rfl rfl] at hx
    exact haccepts x hx

end PredictiveTable

/-! ## LL(1) parsers -/

/-- What the table predicts is written in the grammar. -/
theorem LL.Parser.Exact.written_of_predicted {g : Grammar} {p : LL.Parser} (hx : p.Exact g) {d : Derivation Symbol}
    (hd : PredictiveTable.Predicted p.table d) : d.Written p.grammar.Produces := by
  induction hd with
  | terminal ht he => exact .terminal ht (beq_eq_false_iff_ne.mp he)
  | @epsilon s _ he =>
    obtain rfl : s = Symbol.epsilon := beq_iff_eq.mp he
    exact .epsilon
  | node ht hp _ ih =>
    obtain ⟨a, hproduces, hsymbols, _⟩ := hx.of_predict hp
    refine .inner ?_ hproduces hsymbols.symm ih
    exact hx.rewrites.wellFormed.isNonterminal_of_mem (Grammar.mem_nonterminals.mpr (.inl hproduces.mem_lhsSymbols))

/-- **Trees of predictive parses are those of their table and their source**, whatever the table, and trees of LL(1)
parses are derivation trees of the grammar of the parser, conflicts or not. -/
theorem PredictiveTable.isParse_of_parse [TokenSource σ ε] {source : σ} {fuel : Nat} :
    (∀ {table : PredictiveTable S P} {tree : Tree S}, table.parse fuel source = some (.ok tree) →
      table.IsParse source tree) ∧
    ∀ {steps : List DefinitionStep} {order : Registry} {g : Grammar} {p : LL.Parser} {tree : Tree Symbol},
      (Grammar.define steps).result = .ok g → (LL.Parser.build order g).result = .ok p →
      p.parse fuel source = some (.ok tree) → p.table.IsParse source tree ∧
        ∃ d, tree.Shows d tree.leaves ∧ p.grammar.start = .ok d.symbol ∧ d.Written p.grammar.Produces := by
  refine ⟨fun h => (isParse_and_shows h).1, fun hg hp h => ?_⟩
  have hx := LL.Parser.exact_of_build (wellFormed_of_define hg) hp
  obtain ⟨hparse, d, hshows, hstart, hpredicted⟩ := isParse_and_shows h
  exact ⟨hparse, d, hshows, hstart, hx.written_of_predicted hpredicted⟩

section Lines

/-- Two letters on two lines. -/
def lineTokens : List Token :=
  [⟨.identifier, "a", ⟨1, 1⟩⟩, ⟨.newline, "\n", ⟨1, 2⟩⟩, ⟨.identifier, "a", ⟨2, 1⟩⟩]

/-- A table for lists of a letter, in which the hyphen is the empty derivation and the dollar sign the end. -/
def lineTable : PredictiveTable Char Unit where
  start := .ok 'L'
  isTerminal s := s != 'L'
  isEpsilon s := s == '-'
  accepts s token := .ok (s == '-' || token.text.toList == [s])
  terminal token := if token.isEndOfFile then some '$' else token.text.toList.head?
  predict _ lookahead := .ok (if lookahead = 'a' then some ((), ['a', 'L'])
    else if lookahead = '$' then some ((), ['-']) else none)

open TableParser.Symbol in
/-- Two letters and a list of more of them. -/
def lineSteps : List DefinitionStep := [
  .rule (nonterminal "S") [terminal "a", terminal "a", nonterminal "A"] none,
  .rule (nonterminal "A") [terminal "a", nonterminal "A"] none,
  .rule (nonterminal "A") [epsilon] none]

/-- Two letters on two lines, read by a table written by hand and by an LL(1) parser. -/
theorem PredictiveTable.isParse_of_parse_lines :
    (∃ tree, lineTable.parse 20 (TokenList.ofList lineTokens) = some (.ok tree) ∧
      lineTable.IsParse (TokenList.ofList lineTokens) tree) ∧
    ∃ g p tree, (Grammar.define lineSteps).result = .ok g ∧ (LL.Parser.build .fresh g).result = .ok p ∧
      p.parse 20 (TokenList.ofList lineTokens) = some (.ok tree) ∧ p.table.IsParse (TokenList.ofList lineTokens) tree ∧
      ∃ d, tree.Shows d tree.leaves ∧ p.grammar.start = .ok d.symbol ∧ d.Written p.grammar.Produces := by
  constructor
  · have heval : ((lineTable.parse 20 (TokenList.ofList lineTokens)).bind Except.toOption).isSome = true := by rfl
    obtain ⟨tree, hresult⟩ := exists_answer_of_isSome heval
    exact ⟨tree, hresult, (isParse_of_parse (S := Char) (P := Unit)).1 hresult⟩
  · have heval : ((Grammar.define lineSteps).result.toOption.any fun g =>
        (LL.Parser.build .fresh g).result.toOption.any fun p =>
          ((p.parse 20 (TokenList.ofList lineTokens)).bind Except.toOption).isSome) = true := by rfl
    obtain ⟨g, hg, heval⟩ := exists_ok_of_any heval
    obtain ⟨p, hp, heval⟩ := exists_ok_of_any heval
    obtain ⟨tree, hresult⟩ := exists_answer_of_isSome heval
    obtain ⟨hparse, hderivation⟩ := (isParse_of_parse (S := Symbol) (P := AlternativeId)).2 hg hp hresult
    exact ⟨g, p, tree, hg, hp, hresult, hparse, hderivation⟩

end Lines

end TableParser
