import TableParser.Analysis.Follow
import TableParser.Grammar.TerminalMap
import TableParser.LR.Automaton
import TableParser.Parse.ShiftReduce

/-!
# SLR(1) tables

The grammar is augmented with a rule that derives its start symbol and nothing else. Edges of the automaton on
terminals become shifts and those on nonterminals gotos; a complete item becomes a reduction on the terminals that follow its
left-hand side, and acceptance at the end of the input for the augmented rule.

* **Conflicts** (`LR.Filling.insert`): the first action of a slot is kept, shifts before reductions, and the loss of
  the other is recorded and reported.
* **The construction** (`LR.Table.build`), **the driver's view** (`LR.Table.table`), **the dump** (`LR.Table.dump`).
-/

namespace TableParser

/-- A name with primes behind it until no nonterminal in use has it; the fuel bounds the number of primes added. Names
that are in use are known symbols, so that only the name found is new. -/
def Grammar.primedName (used : List Symbol) : Nat → String → String
  | 0, name => name
  | fuel + 1, name =>
    if used.contains (.nonterminal name) then Grammar.primedName used fuel (name ++ "'") else name

/-- The grammar with a new start symbol that derives the old one. -/
def Grammar.augment (g : Grammar) : Reported Fault Grammar := do
  let start ← Trail.lift g.start
  let used := g.nonterminals
  let accept := Symbol.nonterminal (Grammar.primedName used used.length (start.name ++ "'"))
  Reported.intern accept
  return ⟨⟨accept, [⟨[start], none⟩]⟩ :: g.rules⟩

namespace LR

/-- What to do on a terminal. -/
inductive TableAction
  /-- Consume it and go to a state. -/
  | shift (target : StateId)
  /-- Reduce by an alternative. -/
  | reduce (id : AlternativeId)
  /-- The input is a sentence. -/
  | accept
deriving DecidableEq, Repr

/-- An action as text. -/
def TableAction.render (g : Grammar) : TableAction → Except Fault String
  | .shift target => .ok s!"shift({target.render})"
  | .reduce id => (g.renderAlternative id).map fun text => s!"reduce({text})"
  | .accept => .ok "accept"

/-- Two actions for one slot of the table. -/
structure Conflict where
  state : StateId
  terminal : Symbol
  kept : TableAction
  dropped : TableAction
deriving DecidableEq, Repr

/-- What to do in a state on a terminal. -/
abbrev Actions : Type := Matrix StateId Symbol TableAction

/-- Where to go from a state on a nonterminal. -/
abbrev Gotos : Type := Matrix StateId Symbol StateId

/-! ## Filling the table -/

/-- The table so far and the conflicts so far. -/
structure Filling where
  actions : Actions
  gotos : Gotos
  conflicts : List Conflict
deriving DecidableEq, Repr

namespace Filling

/-- Nothing is entered yet. -/
def empty : Filling := ⟨.empty, .empty, []⟩

/-- The warning about a conflict. -/
def warning (g : Grammar) (c : Conflict) : Except Fault String := do
  let kept ← c.kept.render g
  let dropped ← c.dropped.render g
  return s!"conflict in state {c.state.render} on `{c.terminal.name}'\n(1) {kept}\n(2) {dropped}"

/-- Enter an action into a slot. -/
def insert (g : Grammar) (state : StateId) (action : TableAction) (f : Filling) (terminal : Symbol) :
    Reported Fault Filling :=
  match f.actions.insert state terminal action with
  | .ok actions => pure { f with actions := actions }
  | .error kept =>
    if kept = action then pure f
    else do
      let conflict : Conflict := ⟨state, terminal, kept, action⟩
      Reported.note .warn (← Trail.lift (warning g conflict))
      return { f with conflicts := f.conflicts ++ [conflict] }

/-- Enter an edge of the automaton. -/
def insertEdge (g : Grammar) (f : Filling) (edge : StateId × Symbol × StateId) : Reported Fault Filling :=
  let (source, s, target) := edge
  if s.isTerminal then f.insert g source (.shift target) s
  else pure { f with gotos := f.gotos.insertNew source s target }

/-- Enter what a complete item asks for. -/
def insertItem (g : Grammar) (follow : FollowSets) (accept : Symbol) (state : StateId) (f : Filling) (i : Item) :
    Reported Fault Filling := do
  if ← Trail.lift (i.isComplete g) then
    let (r, _) ← Trail.lift (g.target i.alternative)
    if r.lhs = accept then f.insert g state .accept Symbol.endMarker
    else ((follow.members r.lhs).filter (· != Symbol.epsilon)).foldlM (insert g state (.reduce i.alternative)) f
  else return f

/-- Enter what the complete items of a state ask for. -/
def insertState (p : Prediction) (follow : FollowSets) (accept : Symbol) (f : Filling) (s : State) :
    Reported Fault Filling := do
  let items ← Trail.lift (p.closure s.core)
  items.foldlM (insertItem p.grammar follow accept s.id) f

end Filling

/-! ## Tables -/

/-- A shift/reduce table for an augmented grammar. -/
structure Table where
  grammar : Grammar
  actions : Actions
  gotos : Gotos
  stateCount : Nat
  terminals : TerminalMap
  automaton : Option Automaton
  conflicts : List Conflict
deriving DecidableEq, Repr

namespace Table

/-- The table with given entries; its automaton is not known. -/
def ofEntries (g : Grammar) (actions : Actions) (gotos : Gotos) (stateCount : Nat) : Table :=
  ⟨g, actions, gotos, stateCount, .ofGrammar g, none, []⟩

/-- Build the table of a grammar. -/
def build (g : Grammar) : Reported Fault Table := do
  let g ← g.augment
  let accept ← Trail.lift g.start
  let first ← FirstSets.report g
  let follow ← FollowSets.report g first
  let p : Prediction := ⟨g, none⟩
  let automaton ← Automaton.build p
  let f ← automaton.edges.toList.foldlM (Filling.insertEdge g) .empty
  let f ← automaton.states.foldlM (Filling.insertState p follow accept) f
  Reported.note .debug (s!"{automaton.states.length} states, {f.actions.size} actions, " ++
    s!"{f.gotos.size} gotos, {f.conflicts.length} conflicts")
  return ⟨g, f.actions, f.gotos, automaton.states.length, .ofGrammar g, some automaton, f.conflicts⟩

/-- What to do in a state on a symbol; no symbol is the end of the input. -/
def action (t : Table) (current : StateId) (lookahead : Option Symbol) :
    Except Fault (Action StateId Symbol AlternativeId) :=
  let s := lookahead.getD Symbol.endMarker
  if s.isNonterminal then
    match t.gotos.get? current s with
    | some target => .ok (.shift target)
    | none => .ok (.error .incorrectState)
  else
    match t.actions.get? current s with
    | some (.shift target) => .ok (.shift target)
    | some (.reduce id) => (t.grammar.target id).map fun (r, a) => .reduce id r.lhs a.arity
    | some .accept => .ok .accept
    | none => .ok (.error .incorrectSymbol)

/-- The table as the driver sees it. -/
def table (t : Table) : ActionTable StateId Symbol AlternativeId where
  initial := .start
  terminal := t.terminals.find?
  action := t.action

/-- Parse the tokens of a source. -/
def parse {σ ε : Type} [TokenSource σ ε] (t : Table) (fuel : Nat) (source : σ) :
    Option (Except (Failure (ParseError ε)) (Tree Symbol)) :=
  t.table.parse fuel source

/-- The lines for a state. -/
def dumpState (t : Table) (number : Nat) : Trail String Fault Unit := do
  let id ← Trail.lift (StateId.ofIndex number)
  Trail.put s!"#### State {id.render}\n"
  Trail.all ((t.actions.row id).map fun (s, action) => do
    Trail.put s!"- {s.name} => {← Trail.lift (action.render t.grammar)}\n")
  Trail.putAll ((t.gotos.row id).map fun (s, target) => s!"- {s.name} => goto({target.render})\n")

/-- The grammar, the automaton if it is known, and the table as text. The number after the last one that fits already
stops the dump, so that no further ones need to be looked at. -/
def dump (t : Table) : Trail String Fault Unit := do
  Trail.put (t.grammar.render ++ "\n")
  if let some automaton := t.automaton then
    automaton.dump t.grammar
    Trail.put "\n"
  Trail.put (Text.heading "LRTable")
  Trail.all ((List.range (min t.stateCount (wordLimit + 1))).map t.dumpState)

end Table
end LR
end TableParser
