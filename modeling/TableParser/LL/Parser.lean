import TableParser.Analysis.Follow
import TableParser.Grammar.TerminalMap
import TableParser.LL.Factoring
import TableParser.LL.LeftRecursion
import TableParser.Matrix
import TableParser.Parse.Predictive

/-!
# LL(1) parsers

A grammar is first freed of left recursion and of common beginnings; then every alternative is entered into the parsing
table of its left-hand side under the terminals that predict it.

* **Predicting terminals** (`LL.predictSet`): what the alternative can begin with, and what can follow the left-hand
  side if the alternative can vanish.
* **Conflicts** (`LL.Filling.insert`): of two alternatives for one slot the first is kept, and the loss of the other is
  recorded and reported.
* **The construction** (`LL.Parser.build`), **the driver's view** (`LL.Parser.table`), **the dump** (`LL.Parser.dump`).
-/

namespace TableParser.LL

/-- Two alternatives for one slot of the table. -/
structure Conflict where
  nonterminal : Symbol
  terminal : Symbol
  kept : AlternativeId
  dropped : AlternativeId
deriving DecidableEq, Repr

/-- The parsing table: nonterminal, terminal, alternative. -/
abbrev Table : Type := Matrix Symbol Symbol AlternativeId

/-- The terminals that predict a right-hand side of a nonterminal. -/
def predictSet (first : FirstSets) (follow : FollowSets) (lhs : Symbol) (symbols : List Symbol) : List Symbol :=
  let heads := first.ofSequence symbols
  heads.filter (· != Symbol.epsilon) ++ if heads.contains Symbol.epsilon then follow.members lhs else []

/-! ## Filling the table -/

/-- The table so far and the conflicts so far. -/
structure Filling where
  table : Table
  conflicts : List Conflict
deriving DecidableEq, Repr

namespace Filling

/-- Nothing is entered yet. -/
def empty : Filling := ⟨.empty, []⟩

/-- The warning about a conflict. -/
def warning (g : Grammar) (c : Conflict) : Except Fault String := do
  let kept ← g.renderAlternative c.kept
  let dropped ← g.renderAlternative c.dropped
  return s!"invalid LL(1) grammar at [{c.nonterminal.name}, {c.terminal.name}]\n(1) {kept}\n(2) {dropped}"

/-- Enter an alternative into a slot. -/
def insert (g : Grammar) (nonterminal : Symbol) (id : AlternativeId) (f : Filling) (terminal : Symbol) :
    Reported Fault Filling :=
  match f.table.insert nonterminal terminal id with
  | .ok table => pure { f with table := table }
  | .error kept =>
    if kept = id then pure f
    else do
      let conflict : Conflict := ⟨nonterminal, terminal, kept, id⟩
      Reported.note .warn (← Trail.lift (warning g conflict))
      return { f with conflicts := f.conflicts ++ [conflict] }

/-- Enter an alternative under all terminals that predict it. -/
def insertAlternative (g : Grammar) (first : FirstSets) (follow : FollowSets) (f : Filling) (id : AlternativeId) :
    Reported Fault Filling := do
  let (r, a) ← Trail.lift (g.target id)
  (predictSet first follow r.lhs a.symbols).foldlM (insert g r.lhs id) f

/-- Enter all alternatives in order. -/
def ofGrammar (g : Grammar) (first : FirstSets) (follow : FollowSets) : Reported Fault Filling := do
  let ids ← Trail.lift g.alternativeIds
  let f ← ids.foldlM (insertAlternative g first follow) empty
  Reported.note .debug s!"parsing table has {f.table.size} entries, {f.conflicts.length} conflicts"
  return f

end Filling

/-! ## Parsers -/

/-- A predictive parser for a grammar. -/
structure Parser where
  grammar : Grammar
  first : FirstSets
  follow : FollowSets
  entries : Table
  terminals : TerminalMap
  conflicts : List Conflict
deriving DecidableEq, Repr

namespace Parser

/-- The parser with a given table; its sets are not known. -/
def ofTable (g : Grammar) (entries : Table) : Parser := ⟨g, .empty, .empty, entries, .ofGrammar g, []⟩

/-- Build the parser of a grammar. -/
def build (order : Registry) (g : Grammar) : Reported Fault Parser := do
  let direct ← g.removeLeftRecursion order
  let factored ← direct.grammar.leftFactor direct.order
  let g := factored.grammar
  let first ← FirstSets.report g
  let follow ← FollowSets.report g first
  let filling ← Filling.ofGrammar g first follow
  return ⟨g, first, follow, filling.table, .ofGrammar g, filling.conflicts⟩

/-- The alternative for a nonterminal on a lookahead, with its symbols. -/
def predict (p : Parser) (top lookahead : Symbol) : Except Fault (Option (AlternativeId × List Symbol)) :=
  match p.entries.get? top lookahead with
  | none => .ok none
  | some id => (p.grammar.target id).map fun (_, a) => some (id, a.symbols)

/-- The table as the driver sees it. -/
def table (p : Parser) : PredictiveTable Symbol AlternativeId where
  start := p.grammar.start
  isTerminal := Symbol.isTerminal
  isEpsilon s := s == Symbol.epsilon
  accepts := Symbol.accepts
  terminal := p.terminals.find?
  predict := p.predict

/-- Parse the tokens of a source. -/
def parse {σ ε : Type} [TokenSource σ ε] (p : Parser) (fuel : Nat) (source : σ) :
    Option (Except (Failure (ParseError ε)) (Tree Symbol)) :=
  p.table.parse fuel source

/-- The line for a slot of the table. -/
def dumpEntry (p : Parser) (entry : Symbol × Symbol × AlternativeId) : Trail String Fault Unit := do
  let (nonterminal, terminal, id) := entry
  Trail.put (Text.padRight Text.slotWidth s!"[{nonterminal.name}, {terminal.name}]")
  Trail.put ((← Trail.lift (p.grammar.renderAlternative id)) ++ "\n")

/-- The grammar, the sets and the table as text. -/
def dump (p : Parser) : Trail String Fault Unit := do
  Trail.put (p.grammar.render ++ "\n")
  Trail.put (p.first.render ++ "\n")
  Trail.put (p.follow.render ++ "\n")
  Trail.put (Text.heading "ParsingTable")
  Trail.all (p.entries.toList.map p.dumpEntry)

end Parser
end TableParser.LL
