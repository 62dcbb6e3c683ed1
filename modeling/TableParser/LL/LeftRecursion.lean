import TableParser.LL.Transformation

/-!
# Removing left recursion

A rule `A → A α | β` is replaced by `A → β A'` and `A' → α A' | epsilon`, with a helper `A'`. The alternative `A → A`
derives nothing of its own and is dropped; an empty `β` leaves just the helper.

* **One rule** (`Rule.recursionHead`, `Rule.recursionTail`) and **the whole grammar** (`Grammar.removeLeftRecursion`).
-/

namespace TableParser

namespace Rule

/-- The left-recursive alternatives, which stand in front. -/
def recursiveAlternatives (r : Rule) : List Alternative := r.alternatives.takeWhile r.isLeftRecursive

/-- The alternatives behind the left-recursive ones. -/
def baseAlternatives (r : Rule) : List Alternative := r.alternatives.dropWhile r.isLeftRecursive

/-- The rule without its left recursion: every base alternative goes on with the helper. -/
def recursionHead (r : Rule) (helper : Symbol) : Rule :=
  Rule.addAll ⟨r.lhs, []⟩ (r.baseAlternatives.map fun a =>
    ⟨(if a.isEpsilon then [] else a.symbols) ++ [helper], a.action⟩)

/-- The rule of the helper: what follows the recursion, any number of times. -/
def recursionTail (r : Rule) (helper : Symbol) : Rule :=
  (Rule.addAll ⟨helper, []⟩ ((r.recursiveAlternatives.filter fun a => ! a.symbols.tail.isEmpty).map fun a =>
    ⟨a.symbols.tail ++ [helper], a.action⟩)).add Alternative.epsilon

end Rule

/-- The state of the removal: the rules done so far, the nonterminals taken, the symbols known. -/
structure RecursionRemoval where
  done : List Rule
  taken : List Symbol
  order : Registry
  changed : Bool
deriving DecidableEq, Repr

namespace RecursionRemoval

/-- Treat the next rule. -/
def step (s : RecursionRemoval) (r : Rule) : Reported Fault RecursionRemoval :=
  if r.recursiveAlternatives.isEmpty then pure { s with done := s.done ++ [r] }
  else if r.baseAlternatives.isEmpty then Trail.stop (.onlyLeftRecursive r.lhs)
  else do
    let helper := Transformation.helper r.lhs (Transformation.freshIndex r.lhs s.taken 2)
    Reported.intern helper
    Reported.note .debug s!"remove left recursion of `{r.lhs.name}' via `{helper.name}'"
    return ⟨s.done ++ [r.recursionHead helper, r.recursionTail helper], insertSymbol s.taken helper,
      s.order.intern helper, true⟩

end RecursionRemoval

/-- Remove the direct left recursion of every rule; a helper stands right behind its rule. -/
def Grammar.removeLeftRecursion (g : Grammar) (order : Registry) : Reported Fault Transformation := do
  let s ← g.rules.foldlM RecursionRemoval.step ⟨[], g.nonterminals, order, false⟩
  return ⟨⟨s.done⟩, s.changed, s.order⟩

end TableParser
