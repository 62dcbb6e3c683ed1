import TableParser.Proofs.Predictive
import TableParser.Proofs.PredictiveTable
import TableParser.Samples

/-!
# LL(1) parsers without conflicts are complete

Without conflicts the driver reads every string that the symbols on the stack derive (`LL.Parser.drives_of_generates`),
by induction on the derivation: an alternative that derives what comes next, or that vanishes where its left-hand side
ends, is the one that the table predicts (`LL.Parser.Exact.predict_eq`). As the grammar of the parser is a rewriting of
the one that it was built from, every sentence of that grammar is parsed (`LL.Parser.parse_of_generates`).
-/

namespace TableParser
namespace LL
namespace Parser

open PredictiveTable (Drives)

variable {g : Grammar} {p : Parser} {lhs s t : Symbol} {a : Alternative} {α pre v w w' : List Symbol}
  {tokens tokens' : List Token} {token : Token}

/-! ## Predictions -/

theorem mem_predictSet {first : FirstSets} {follow : FollowSets} : t ∈ predictSet first follow lhs α ↔
    t ∈ first.sequenceHeads α ∧ t ≠ Symbol.epsilon ∨
      Symbol.epsilon ∈ first.sequenceHeads α ∧ t ∈ SymbolSets.members follow lhs := by
  unfold predictSet
  dsimp only
  rw [List.mem_append, List.mem_filter, FirstSets.mem_ofSequence, bne_iff_ne]
  refine or_congr_right ?_
  split
  · rename_i h
    rw [List.contains_iff_mem, FirstSets.mem_ofSequence] at h
    exact (and_iff_right h).symm
  · rename_i h
    rw [List.contains_iff_mem, FirstSets.mem_ofSequence] at h
    exact iff_of_false List.not_mem_nil fun hh => h hh.1

namespace Exact

variable (hx : p.Exact g)
include hx

theorem closed_first : FirstSets.Closed p.first p.grammar.Produces := by
  rw [hx.first_eq]
  exact FirstSets.closed_ofGrammar _

theorem closed_follow : FollowSets.Closed p.first p.follow p.grammar.Produces := by
  refine FollowSets.closed_ofGrammar ?_ hx.follow_eq
  rw [hx.first_eq]
  exact FirstSets.members_ofGrammar_subset _

/-- An alternative is predicted by what it derives, with what comes behind it if it vanishes. -/
theorem lookahead_mem_predictSet (hw : Generates p.grammar.Produces α w)
    (hw' : FollowSets.lookahead w' ∈ SymbolSets.members p.follow lhs) :
    FollowSets.lookahead (w ++ w') ∈ predictSet p.first p.follow lhs α := by
  cases w with
  | nil => exact mem_predictSet.mpr (.inr ⟨hx.closed_first.epsilon_mem hw, hw'⟩)
  | cons s w =>
    have hbegins := Begins.of_generates hw
    exact mem_predictSet.mpr (.inl ⟨hx.closed_first.mem_of_begins hbegins, hbegins.isTerminal.2⟩)

/-- **The right alternative is predicted** when there are no conflicts. -/
theorem predict_eq (hnil : p.conflicts = []) (hp : p.grammar.Produces lhs a)
    (ht : t ∈ predictSet p.first p.follow lhs a.symbols) : ∃ id, p.predict lhs t = .ok (some (id, a.symbols)) := by
  obtain ⟨id, r, hget, htarget⟩ := hx.candidate hnil lhs a hp t ht
  refine ⟨id, ?_⟩
  unfold predict
  rw [hget]
  dsimp only
  rw [Grammar.target_eq_ok.mpr htarget]
  rfl

/-- The terminals of tokens are those of the grammar that the parser was built from. -/
theorem find?_eq (token : Token) : p.terminals.find? token = (TerminalMap.ofGrammar g).find? token := by
  rw [hx.terminals_eq]
  exact TerminalMap.find?_congr (TerminalMap.isTerminal_of_mem _) (TerminalMap.isTerminal_of_mem _)
    hx.rewrites.terminals_iff token

end Exact

/-! ## Sentences -/

/-- The terminal of the token at hand is the first of the terminals to come. -/
theorem terminal_eq {σ ε : Type} [TokenSource σ ε] {source : σ} (h : Ahead (some token) source tokens)
    (hw : Spells p.terminals.find? tokens w) : p.terminals.find? token = some (FollowSets.lookahead w) := by
  rcases h with ⟨rest, rfl, _⟩ | ⟨rfl, he, _⟩
  · have hmap := hw.map_eq
    cases w with
    | nil => cases hmap
    | cons s w => exact (List.cons.inj hmap).1
  · have hnil : w = [] := List.map_eq_nil_iff.mp hw.map_eq.symm
    subst hnil
    exact TerminalMap.find?_of_isEndOfFile he

/-- The expansion that the lookahead predicts. -/
theorem drives_of_predicted {σ ε : Type} [TokenSource σ ε] (hx : p.Exact g) (hnil : p.conflicts = [])
    (ht : p.terminals.find? token = some t) (hl : lhs.isNonterminal = true) (hp : p.grammar.Produces lhs a)
    (hpredicted : t ∈ predictSet p.first p.follow lhs a.symbols) (tree : Tree Symbol) (node : Nat)
    (rest : List (Symbol × Nat)) (source : σ) : ∃ tree' stack, stack.map Prod.fst = a.symbols ∧
      Drives p.table ⟨tree, (lhs, node) :: rest, token, source⟩ [] [] ⟨tree', stack ++ rest, token, source⟩ := by
  obtain ⟨id, hpredict⟩ := hx.predict_eq hnil hp hpredicted
  have hnt := Symbol.isTerminal_eq_false_iff.mpr hl
  refine ⟨_, a.symbols.zip (List.range' tree.size a.symbols.length), ?_, .expand hnt ht hpredict (.refl _)⟩
  exact List.map_fst_zip (by rw [List.length_range'])

/-- **The driver reads what the symbols on the stack derive**, by induction on the derivation. -/
theorem drives_of_generates {σ ε : Type} [TokenSource σ ε] (hx : p.Exact g) (hnil : p.conflicts = [])
    (h : Generates p.grammar.Produces α w) (tree : Tree Symbol) {stack : List (Symbol × Nat)}
    (rest : List (Symbol × Nat)) {source : σ}
    (hstack : stack.map Prod.fst = α) (hfollowed : FollowSets.Followed p.grammar.Produces p.follow α w')
    (hw : Spells p.terminals.find? tokens w) (hw' : Spells p.terminals.find? tokens' w')
    (hahead : Ahead (some token) source (tokens ++ tokens')) :
    ∃ tree' next behind, Drives p.table ⟨tree, stack ++ rest, token, source⟩ tokens (w.zip tokens)
      ⟨tree', rest, next, behind⟩ ∧ Ahead (some next) behind tokens' := by
  induction h generalizing tree stack rest source w' tokens tokens' token with
  | nil =>
    have htokens : tokens = [] := List.map_eq_nil_iff.mp hw.map_eq
    have hempty : stack = [] := List.map_eq_nil_iff.mp hstack
    subst htokens hempty
    exact ⟨tree, token, source, .refl _, hahead⟩
  | epsilon _ ih =>
    obtain ⟨⟨_, node⟩, stack, rfl, rfl, hbelow⟩ := List.map_eq_cons_iff.mp hstack
    obtain ⟨tree', next, behind, hd, hnext⟩ := ih tree rest hbelow hfollowed.tail hw hw' hahead
    exact ⟨tree', next, behind, .epsilon rfl rfl rfl hd, hnext⟩
  | terminal ht hs _ ih =>
    obtain ⟨⟨s, node⟩, stack, rfl, rfl, hbelow⟩ := List.map_eq_cons_iff.mp hstack
    obtain ⟨first, others, rfl, hfirst, hothers⟩ := List.map_eq_cons_iff.mp hw.map_eq
    obtain ⟨rfl, hsupplies⟩ := hahead.next
    obtain ⟨next, behind, hnext, hahead'⟩ := hsupplies.next
    have haccepts : Symbol.accepts s first = .ok true := by
      rw [hx.terminals_eq] at hfirst
      exact TerminalMap.accepts_of_find? hfirst (hw.not_eof first List.mem_cons_self)
    obtain ⟨tree', last, source', hd, hlast⟩ := ih (tree.setToken node first) rest hbelow hfollowed.tail
      ⟨fun u hu => hw.not_eof u (List.mem_cons_of_mem first hu), hothers⟩ hw' hahead'
    exact ⟨tree', last, source', .consume ht haccepts (beq_eq_false_iff_ne.mpr hs) hnext hd, hlast⟩
  | @nonterminal lhs a α u v hl hp ha hα ih₁ ih₂ =>
    obtain ⟨⟨lhs, node⟩, stack, rfl, rfl, hbelow⟩ := List.map_eq_cons_iff.mp hstack
    obtain ⟨first, others, rfl, hfirst, hothers⟩ := hw.of_append
    rw [List.append_assoc] at hahead
    have hbehind := hfollowed.head hl hα
    have hlookahead := terminal_eq hahead (hfirst.append (hothers.append hw'))
    obtain ⟨tree₀, above, habove, hd₀⟩ := drives_of_predicted hx hnil hlookahead hl hp
      (hx.lookahead_mem_predictSet ha hbehind) tree node (stack ++ rest) source
    obtain ⟨tree₁, token₁, source₁, hd₁, hahead₁⟩ := ih₁ tree₀ (stack ++ rest) habove
      (hx.closed_follow.followed hx.closed_first hp hbehind) hfirst
      (hothers.append hw') hahead
    obtain ⟨tree₂, token₂, source₂, hd₂, hahead₂⟩ := ih₂ tree₁ rest hbelow hfollowed.tail hothers hw' hahead₁
    rw [List.zip_append hfirst.length_eq.symm]
    exact ⟨tree₂, token₂, source₂, hd₀.trans (hd₁.trans hd₂), hahead₂⟩

/-- A parser without conflicts parses the sentences of the grammar that it was built from, and puts the tokens under the
terminals that they stand for. -/
theorem exists_parse {σ ε : Type} [TokenSource σ ε] {order : Registry} (hg : g.WellFormed)
    (h : (Parser.build order g).result = .ok p) (hnil : p.conflicts = []) {start : Symbol} {source : σ}
    (hstart : g.start = .ok start) (hw : Generates g.Produces [start] w) (hsource : Supplies source tokens)
    (hno : ∀ u ∈ tokens, u.isEndOfFile = false) (hmap : tokens.map (TerminalMap.ofGrammar g).find? = w.map some) :
    ∃ fuel tree d, p.parse fuel source = some (.ok tree) ∧ tree.Shows d tokens ∧ d.yield = w := by
  have hx := exact_of_build hg h
  have hstart' : p.grammar.start = .ok start := hx.rewrites.start_eq.trans hstart
  have hw' := (hx.rewrites.generates_iff start (hg.start_mem_nonterminals hstart) w).mp hw
  have hspells : Spells p.terminals.find? tokens w := by
    refine ⟨hno, ?_⟩
    rw [← hmap]
    exact List.map_congr_left fun u _ => hx.find?_eq u
  have hfollowed : FollowSets.Followed p.grammar.Produces p.follow [start] [] := by
    intro β s γ v hα _ hv
    obtain ⟨rfl, rfl, rfl⟩ : β = [] ∧ s = start ∧ γ = [] := by simpa [List.singleton_eq_append_iff] using hα
    cases hv
    exact FollowSets.endMarker_mem hx.follow_eq hstart'
  have hstack : [(start, 0)].map Prod.fst = [start] := rfl
  obtain ⟨token, behind, hnext, hahead⟩ := hsource.next
  rw [← List.append_nil tokens] at hahead
  obtain ⟨tree, last, source', hd, hlast⟩ := drives_of_generates hx hnil hw' (PredictiveTable.startTree start) []
    hstack hfollowed hspells (.nil _) hahead
  obtain ⟨d, _, _, hshows, hyield, _⟩ := Drives.shows hd rfl
  rw [List.map_snd_zip hspells.length_eq.le] at hshows
  rw [List.map_fst_zip hspells.length_eq.symm.le] at hyield
  rcases hlast with ⟨_, hcons, _⟩ | ⟨_, heof, _⟩
  · cases hcons
  · obtain ⟨fuel, hfuel⟩ := hd.reaches.answers (answers_of_step (PredictiveTable.step_eq_ok_iff.mpr ⟨rfl, heof, rfl⟩))
    exact ⟨fuel, tree, d, (PredictiveTable.parse_eq hstart' hnext fuel).trans hfuel, hshows, hyield⟩

/-- **Parsers without conflicts parse the sentences of the grammar that they were built from**, as it was before its left
recursion was removed and its rules were factored. -/
theorem parse_of_sentence {σ ε : Type} [TokenSource σ ε] {steps : List DefinitionStep} {order : Registry}
    (hg : (Grammar.define steps).result = .ok g) (h : (Parser.build order g).result = .ok p) (hnil : p.conflicts = [])
    {start : Symbol} {source : σ} (hstart : g.start = .ok start) (hw : Generates g.Produces [start] w)
    (hsource : Supplies source tokens) (hno : ∀ u ∈ tokens, u.isEndOfFile = false)
    (hmap : tokens.map (TerminalMap.ofGrammar g).find? = w.map some) :
    ∃ fuel tree, p.parse fuel source = some (.ok tree) ∧ tree.leaves = tokens := by
  obtain ⟨fuel, tree, d, hparse, hshows, _⟩ := exists_parse (wellFormed_of_define hg) h hnil hstart hw hsource hno hmap
  exact ⟨fuel, tree, hparse, hshows.leaves_eq⟩

section Sums

open TableParser.Symbol

/-- The rules of sums, which recur on the left. -/
def sumRules : Grammar :=
  ⟨[⟨nonterminal "E", [⟨[nonterminal "E", terminal "+", nonterminal "T"], none⟩, ⟨[nonterminal "T"], none⟩]⟩,
    ⟨nonterminal "T", [⟨[terminal "(", nonterminal "E", terminal ")"], none⟩, ⟨[terminal "n"], none⟩]⟩]⟩

/-- A sum of two letters. -/
def sumTokens : List Token := [⟨.identifier, "n", ⟨0, 0⟩⟩, ⟨.positive, "+", ⟨0, 1⟩⟩, ⟨.identifier, "n", ⟨0, 2⟩⟩]

theorem generates_sum : Generates sumRules.Produces [nonterminal "E"] [terminal "n", terminal "+", terminal "n"] := by
  have hletter : Generates sumRules.Produces [nonterminal "T"] [terminal "n"] :=
    .of_alternative rfl ⟨_, .tail _ (.head _), rfl, .tail _ (.head _)⟩ (.terminal rfl (by decide) .nil)
  have hterm : Generates sumRules.Produces [nonterminal "E"] [terminal "n"] :=
    .of_alternative rfl ⟨_, .head _, rfl, .tail _ (.head _)⟩ hletter
  have hsum : Generates sumRules.Produces ([nonterminal "E"] ++ [terminal "+", nonterminal "T"])
      ([terminal "n"] ++ [terminal "+", terminal "n"]) := hterm.append (.terminal rfl (by decide) hletter)
  exact .of_alternative rfl ⟨_, .head _, rfl, .head _⟩ hsum

set_option maxRecDepth 10000 in
/-- A sum is parsed although its rules recur on the left. -/
theorem parse_of_sentence_sum : ∃ p, (Grammar.define Sample.sums.steps).result = .ok sumRules ∧
    (Parser.build (Registry.fresh.internAll Sample.sums.declared) sumRules).result = .ok p ∧ p.conflicts = [] ∧
    ∃ fuel tree, p.parse fuel (TokenList.ofList sumTokens) = some (.ok tree) ∧ tree.leaves = sumTokens := by
  have hg : (Grammar.define Sample.sums.steps).result = .ok sumRules := by rfl
  have heval : ((Parser.build (Registry.fresh.internAll Sample.sums.declared) sumRules).result.toOption.any fun p =>
      p.conflicts.isEmpty) = true := by rfl
  obtain ⟨p, hp, hempty⟩ := exists_ok_of_any heval
  have hnil : p.conflicts = [] := List.isEmpty_iff.mp hempty
  have hsource : Supplies (TokenList.ofList sumTokens) sumTokens := by
    refine TokenList.supplies (fun u hu => ?_) _
    simp only [sumTokens, List.mem_cons, List.not_mem_nil, or_false] at hu
    rcases hu with rfl | rfl | rfl <;> exact ⟨_, rfl⟩
  exact ⟨p, hg, hp, hnil, parse_of_sentence hg hp hnil rfl generates_sum hsource (by decide) (by decide)⟩

end Sums
end Parser
end LL
end TableParser
