import TableParser.LR.Item
import TableParser.Sorting

/-!
# Closure, transitions and cores

An item whose dot stands before a nonterminal predicts the items of that nonterminal. A set is closed when it holds
what its items predict.

* **Prediction** (`Prediction.itemsFor`): the dot stands at the beginning; when FIRST sets are given, it also moves
  past symbols that can vanish, the way a top-down expansion lets them.
* **Closure** (`Prediction.closure`): prediction until nothing new comes up. When a prediction is impossible, what was
  reached by then can still be seen (`Prediction.closing`).
* **Transitions** (`Prediction.transition`) move the dot over a symbol; **cores** (`Prediction.core`) leave out what
  the closure brings back.
-/

namespace TableParser.LR

/-- What items are predicted from: a grammar, and FIRST sets if vanishing symbols are to be passed over. -/
structure Prediction where
  grammar : Grammar
  first : Option FirstSets
deriving DecidableEq, Repr

namespace Prediction

/-- Whether the dot may move past the symbol. -/
def vanishes (p : Prediction) (s : Symbol) : Bool :=
  match p.first with
  | none => false
  | some first => s != Symbol.epsilon && first.isNullable s

/-- The number of symbols at the front that the dot may move past. -/
def reach (p : Prediction) (symbols : List Symbol) : Nat := (symbols.takeWhile p.vanishes).length

/-- The item of an alternative with its dot at a place; all three numbers have to fit. -/
def itemAt (rule index dot : Nat) : Except Fault Item := do
  let id ← AlternativeId.ofIndices rule index
  if wordLimit ≤ dot then .error .tooLongAlternative else .ok ⟨id, dot.toUInt16⟩

/-- The items that the prediction of an alternative adds, one after the other. -/
def itemsOf (p : Prediction) (rule index : Nat) (a : Alternative) : List (Except Fault Item) :=
  (List.range (p.reach a.symbols + 1)).map (itemAt rule index)

/-- The items that the prediction of a nonterminal adds, one after the other. -/
def itemsOneByOne (p : Prediction) (lhs : Symbol) : List (Except Fault Item) :=
  match p.grammar.find lhs with
  | .error f => [.error f]
  | .ok (rule, r) => r.alternatives.zipIdx.flatMap fun (a, index) => p.itemsOf rule index a

/-- The items that the prediction of a nonterminal adds. -/
def itemsFor (p : Prediction) (lhs : Symbol) : Except Fault (List Item) := (p.itemsOneByOne lhs).mapM id

/-- Add the items that a nonterminal predicts to a set, up to a fault. -/
def addItemsFor (p : Prediction) (set : ItemSet) (lhs : Symbol) : ItemSet × Option Fault :=
  let (items, fault) := Fault.collect (p.itemsOneByOne lhs)
  (ItemSet.insertAll set items, fault)

/-- The items that an item predicts. -/
def predicted (p : Prediction) (i : Item) : Except Fault (List Item) := do
  match ← i.next p.grammar with
  | some s => if s.isNonterminal then p.itemsFor s else return []
  | none => return []

/-- The items that the items of a set predict and that are not in another set yet, in order. -/
def discovered (p : Prediction) (fresh known : ItemSet) : Except Fault ItemSet := do
  let items ← fresh.mapM p.predicted
  return ItemSet.ofList (items.flatten.filter fun i => !known.contains i)

/-- Add what the newest items predict until nothing new comes up. The fuel bounds the number of rounds; a fault of a
prediction comes with the set reached before it. -/
def closing (p : Prediction) : Nat → ItemSet → ItemSet → ItemSet × Option Fault
  | 0, _, set => (set, none)
  | fuel + 1, fresh, set =>
    match p.discovered fresh set with
    | .error f => (set, some f)
    | .ok [] => (set, none)
    | .ok new => closing p fuel new (ItemSet.insertAll set new)

/-- A bound on the number of rounds: each but the last one adds an item of the grammar, which is a place for the dot in
an alternative. -/
def roundBound (p : Prediction) : Nat :=
  (p.grammar.rules.flatMap fun r => r.alternatives.flatMap fun a => List.range (a.symbols.length + 1)).length + 1

/-- The smallest closed set around a set, or what was reached when a prediction was impossible. -/
def closureSoFar (p : Prediction) (set : ItemSet) : ItemSet × Option Fault := p.closing p.roundBound set set

/-- The smallest closed set around a set. -/
def closure (p : Prediction) (set : ItemSet) : Except Fault ItemSet :=
  match p.closureSoFar set with
  | (closed, none) => .ok closed
  | (_, some f) => .error f

/-- The item with its dot moved over a symbol, if the symbol comes next. An empty alternative is never advanced. -/
def advanceOver (p : Prediction) (s : Symbol) (i : Item) : Except Fault (Option Item) := do
  let (_, a) ← p.grammar.target i.alternative
  if !a.isEpsilon && i.nextIn a == some s then return some (← i.advance) else return none

/-- The items of a set with their dots moved over a symbol. -/
def kernel (p : Prediction) (set : ItemSet) (s : Symbol) : Except Fault ItemSet := do
  let items ← set.mapM (p.advanceOver s)
  return ItemSet.ofList (items.filterMap id)

/-- Where a set leads on a symbol. -/
def transition (p : Prediction) (set : ItemSet) (s : Symbol) : Except Fault ItemSet := do
  p.closure (← p.kernel set s)

/-- Leave an item out if the closure of the others is the closed set all the same. -/
def dropItem (p : Prediction) (closed core : ItemSet) (i : Item) : Except Fault ItemSet := do
  let others := core.erase i
  if (← p.closure others) = closed then return others else return core

/-- The items of a closed set that the closure cannot bring back, tried in the order of dots. -/
def core (p : Prediction) (closed : ItemSet) : Except Fault ItemSet :=
  (sortBy (fun i j => i.dotRank ≤ j.dotRank) closed).foldlM (p.dropItem closed) closed

end Prediction
end TableParser.LR
