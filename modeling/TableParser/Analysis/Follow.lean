import TableParser.Analysis.First

/-!
# FOLLOW sets

The FOLLOW set of a nonterminal holds the terminals that can come right behind it in a derivation, and the end marker
if it can come last.

* **An occurrence** (`FollowSets.updateOccurrence`) is followed by what the rest of its alternative can begin with,
  and by what follows the left-hand side if the rest can vanish.
* **The sets of a grammar** (`FollowSets.ofGrammar`): passes over all occurrences from the end marker behind the start
  symbol.
-/

namespace TableParser

/-- The FOLLOW sets of nonterminals. -/
abbrev FollowSets : Type := SymbolSets

namespace FollowSets

/-- Add to the set of a symbol what can follow it between its left-hand side and the rest of the alternative. -/
def updateOccurrence (first : FirstSets) (lhs : Symbol) (follow : FollowSets) (s : Symbol) (rest : List Symbol) :
    FollowSets :=
  let ahead := first.ofSequence rest
  follow.add s (ahead.filter (· != Symbol.epsilon) ++
    if ahead.contains Symbol.epsilon then follow.members lhs else [])

/-- Take the nonterminals of a string of symbols one after the other. -/
def updateSymbols (first : FirstSets) (lhs : Symbol) (follow : FollowSets) : List Symbol → FollowSets
  | [] => follow
  | s :: rest =>
    if s.isTerminal then updateSymbols first lhs follow rest
    else updateSymbols first lhs (updateOccurrence first lhs follow s rest) rest

/-- Take the alternatives of a rule one after the other. -/
def updateRule (first : FirstSets) (follow : FollowSets) (r : Rule) : FollowSets :=
  r.alternatives.foldl (fun follow a => updateSymbols first r.lhs follow a.symbols) follow

/-- One pass over all rules. -/
def update (follow : FollowSets) (first : FirstSets) (g : Grammar) : FollowSets :=
  g.rules.foldl (updateRule first) follow

/-- One pass, and whether it added a member. -/
def pass (g : Grammar) (first : FirstSets) (follow : FollowSets) : FollowSets × Bool :=
  (update follow first g, follow.grew (update follow first g))

/-- A bound on the number of passes: each but the last one adds a member. -/
def passBound (g : Grammar) (first : FirstSets) : Nat :=
  g.nonterminals.length * (g.terminals.length + first.size + 1) + 1

/-- Nothing but the end marker behind the start symbol. -/
def seed (start : Symbol) : FollowSets := SymbolSets.empty.add start [Symbol.endMarker]

/-- The sets that a pass no longer changes, and the number of passes. -/
def converge (g : Grammar) (first : FirstSets) : Except Fault (FollowSets × Nat) :=
  g.start.map fun start => saturate (pass g first) (passBound g first) (seed start)

/-- The FOLLOW sets of a grammar. -/
def ofGrammar (g : Grammar) (first : FirstSets) : Except Fault FollowSets := (converge g first).map Prod.fst

/-- The FOLLOW sets of a grammar, with a report on the passes. -/
def report (g : Grammar) (first : FirstSets) : Reported Fault FollowSets := do
  let (follow, passes) ← Trail.lift (converge g first)
  Reported.note .debug s!"FOLLOW sets converged after {passes} passes"
  return follow

/-- The sets under their heading. -/
def render (follow : FollowSets) : String := SymbolSets.render "Follow" follow

end FollowSets
end TableParser
