import TableParser.LR.Closure
import TableParser.Matrix

/-!
# The LR(0) automaton

The states are the closed item sets that can be reached from the items of the start symbol, numbered in the order of
their discovery. A state keeps the core of its set.

* **Exploration** (`Exploration.explore`): the states are visited in order, and from each the symbols are followed,
  terminals first; a set that was not met before becomes the next state.
* **The automaton** (`Automaton.build`) and **its dump** (`Automaton.dump`).
-/

namespace TableParser.LR

/-- The number of a state. -/
structure StateId where
  number : UInt16
deriving DecidableEq, Repr

namespace StateId

/-- The state in which parsing starts. -/
def start : StateId := ⟨0⟩

/-- The state with a number that has to fit. -/
def ofIndex (n : Nat) : Except Fault StateId :=
  if wordLimit ≤ n then .error .tooManyStates else .ok ⟨n.toUInt16⟩

/-- The number as text. -/
def render (s : StateId) : String := s!"{s.number}"

/-- The number in three places at least. -/
def spelled (s : StateId) : String :=
  "S#" ++ String.ofList (List.replicate (3 - s.render.length) '0') ++ s.render

end StateId

/-- A state with the core of its item set. -/
structure State where
  id : StateId
  core : ItemSet
deriving DecidableEq, Repr

/-- The edges between the states. -/
abbrev Edges : Type := Matrix StateId Symbol StateId

/-- The automaton. -/
structure Automaton where
  states : List State
  edges : Edges
deriving DecidableEq, Repr

/-! ## Exploration -/

/-- The item sets found so far, in the order of their states, and the edges found so far. -/
structure Exploration where
  sets : List ItemSet
  edges : Edges
deriving DecidableEq, Repr

namespace Exploration

/-- Add an edge. -/
def connect (e : Exploration) (source : StateId) (s : Symbol) (target : StateId) : Exploration :=
  { e with edges := e.edges.insertNew source s target }

/-- Follow a symbol from a state. -/
def follow (p : Prediction) (source : StateId) (set : ItemSet) (e : Exploration) (s : Symbol) :
    Reported Fault Exploration := do
  let target ← Trail.lift (p.transition set s)
  if target.isEmpty then return e
  else
    match e.sets.idxOf? target with
    | some i => return e.connect source s ⟨i.toUInt16⟩
    | none => do
      let id ← Trail.lift (StateId.ofIndex e.sets.length)
      Reported.note .trace s!"discover state {id.render} from {source.render} on `{s.name}'"
      return { e with sets := e.sets ++ [target] }.connect source s id

/-- Follow the symbols from one state after the other. There are no more states than numbers for them, which is the
fuel that is needed. -/
def explore (p : Prediction) (symbols : List Symbol) : Nat → Nat → Exploration → Reported Fault Exploration
  | 0, _, e => pure e
  | fuel + 1, current, e =>
    match e.sets[current]? with
    | none => pure e
    | some set => do
      let source ← Trail.lift (StateId.ofIndex current)
      let e ← symbols.foldlM (follow p source set) e
      explore p symbols fuel (current + 1) e

end Exploration

namespace Automaton

/-- The closed set of the start state. -/
def startSet (p : Prediction) : Except Fault ItemSet := do
  let items ← p.itemsFor (← p.grammar.start)
  p.closure (ItemSet.ofList items)

/-- The state with a number and a closed set, reduced to its core, which must not be empty. -/
def stateOf (p : Prediction) (number : Nat) (set : ItemSet) : Except Fault State := do
  let core ← p.core set
  if core.isEmpty then throw .emptyItemSet
  return ⟨← StateId.ofIndex number, core⟩

/-- The states of several closed sets. -/
def statesOf (p : Prediction) (sets : List ItemSet) : Except Fault (List State) :=
  sets.zipIdx.mapM fun (set, number) => stateOf p number set

/-- Build the automaton of a grammar. -/
def build (p : Prediction) : Reported Fault Automaton := do
  let start ← Trail.lift (startSet p)
  let symbols := p.grammar.terminals ++ p.grammar.nonterminals
  let e ← Exploration.explore p symbols (wordLimit + 1) 0 ⟨[start], .empty⟩
  Reported.note .debug s!"{e.sets.length} item sets, {e.edges.size} edges"
  return ⟨← Trail.lift (statesOf p e.sets), e.edges⟩

/-- The lines for a state. -/
def dumpState (g : Grammar) (s : State) : Trail String Fault Unit := do
  Trail.put s!"State {s.id.render}:\n"
  Trail.all (s.core.map fun i => do Trail.put s!"  {← Trail.lift (i.render g)}\n")

/-- The states and the edges as text. -/
def dump (a : Automaton) (g : Grammar) : Trail String Fault Unit := do
  Trail.put (Text.heading "Itemsets")
  Trail.all (a.states.map (dumpState g))
  Trail.put (Text.heading "Edges")
  Trail.putAll (a.edges.toList.map fun (source, s, target) =>
    s!"{source.render} --({s.name})--> {target.render}\n")

end Automaton
end TableParser.LR
