import TableParser.Grammar.Basic
import TableParser.Sorting
import TableParser.Symbol.Registry

/-!
# The order of alternatives

Before left factoring, the alternatives of a rule are sorted so that those that begin alike stand together.

* **The order** (`Rule.compareAlternatives`): left-recursive alternatives come first. Otherwise the first difference
  decides: the symbol that was asked for later comes first, and an alternative that ends comes after one that goes on.
* **The sort is stable** (`Rule.sorted`): alternatives with the same symbols keep their order.
-/

namespace TableParser

/-- Compare symbol strings at their first difference: later requests first, longer strings first. -/
def Registry.compareStrings (order : Registry) : List Symbol → List Symbol → Ordering
  | [], [] => .eq
  | [], _ :: _ => .gt
  | _ :: _, [] => .lt
  | x :: xs, y :: ys => if x = y then compareStrings order xs ys else order.compare y x

namespace Rule

/-- Compare two alternatives of the rule. -/
def compareAlternatives (r : Rule) (order : Registry) (a b : Alternative) : Ordering :=
  match r.isLeftRecursive a, r.isLeftRecursive b with
  | true, false => .lt
  | false, true => .gt
  | _, _ => order.compareStrings a.symbols b.symbols

/-- The rule with its alternatives in order. -/
def sorted (r : Rule) (order : Registry) : Rule :=
  ⟨r.lhs, sortBy (fun a b => (r.compareAlternatives order a b).isLE) r.alternatives⟩

end Rule

/-- The grammar with the alternatives of every rule in order. -/
def Grammar.sorted (g : Grammar) (order : Registry) : Grammar := ⟨g.rules.map fun r => r.sorted order⟩

end TableParser
