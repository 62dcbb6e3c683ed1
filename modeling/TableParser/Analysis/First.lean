import TableParser.Analysis.Saturation
import TableParser.Grammar.Basic
import TableParser.Journal

/-!
# FIRST sets

The FIRST set of a nonterminal holds the terminals that strings derived from it can begin with, and the empty
derivation if it derives the empty string.

* **Strings of symbols** (`FirstSets.ofSequence`): the sets of the symbols up to the first that cannot vanish.
* **The sets of a grammar** (`FirstSets.ofGrammar`): passes over all rules (`FirstSets.pass`) from empty sets.
-/

namespace TableParser

/-- The FIRST sets of nonterminals. -/
abbrev FirstSets : Type := SymbolSets

namespace FirstSets

/-- Whether the symbol derives the empty string, as far as the sets know. -/
def isNullable (first : FirstSets) (s : Symbol) : Bool :=
  if s.isTerminal then s == Symbol.epsilon else (first.members s).contains Symbol.epsilon

/-- What a symbol other than the empty derivation can begin with. -/
def heads (first : FirstSets) (s : Symbol) : List Symbol :=
  if s.isTerminal then [s].filter (· != Symbol.epsilon) else (first.members s).filter (· != Symbol.epsilon)

/-- What a string of symbols can begin with, in order and with repetitions. -/
def sequenceHeads (first : FirstSets) : List Symbol → List Symbol
  | [] => [Symbol.epsilon]
  | s :: rest => first.heads s ++ if first.isNullable s then sequenceHeads first rest else []

/-- The FIRST set of a string of symbols. -/
def ofSequence (first : FirstSets) (symbols : List Symbol) : List Symbol :=
  insertSymbols [] (first.sequenceHeads symbols)

/-- Add to the set of a rule what its alternatives can begin with. -/
def updateRule (first : FirstSets) (r : Rule) : FirstSets :=
  first.add r.lhs (r.alternatives.flatMap fun a => first.sequenceHeads a.symbols)

/-- One pass over all rules. -/
def update (first : FirstSets) (g : Grammar) : FirstSets := g.rules.foldl updateRule first

/-- One pass, and whether it added a member. -/
def pass (g : Grammar) (first : FirstSets) : FirstSets × Bool := (update first g, first.grew (update first g))

/-- A bound on the number of passes: each but the last one adds a member. -/
def passBound (g : Grammar) : Nat := g.rules.length * (g.terminals.length + 1) + 1

/-- The sets that a pass no longer changes, and the number of passes. -/
def converge (g : Grammar) : FirstSets × Nat :=
  saturate (pass g) (passBound g) SymbolSets.empty

/-- The FIRST sets of a grammar. -/
def ofGrammar (g : Grammar) : FirstSets := (converge g).1

/-- The FIRST sets of a grammar, with a report on the passes. -/
def report {ε : Type} (g : Grammar) : Reported ε FirstSets := do
  Reported.note .debug s!"FIRST sets converged after {(converge g).2} passes"
  return ofGrammar g

/-- The sets under their heading. -/
def render (first : FirstSets) : String := SymbolSets.render "First" first

end FirstSets
end TableParser
