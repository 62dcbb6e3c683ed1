import TableParser.Grammar.Order
import TableParser.Journal

/-!
# Transforming grammars

Transforming a grammar may need new nonterminals. A helper is named after the left-hand side that it helps, with the
first number that makes a name not taken yet.

* **Fresh names** (`Transformation.freshIndex`) are found among the numbers from a given one on.
-/

namespace TableParser

/-- A grammar after a transformation, whether anything changed, and the symbols known by then. -/
structure Transformation where
  grammar : Grammar
  changed : Bool
  order : Registry
deriving DecidableEq, Repr

namespace Transformation

/-- The nonterminal named after a left-hand side and a number. -/
def helper (lhs : Symbol) (n : Nat) : Symbol := .nonterminal s!"{lhs.name}_{n}"

/-- The first number from `n` on whose helper is not taken; the fuel bounds the number of tries. -/
def freshIndexFrom (lhs : Symbol) (taken : List Symbol) : Nat → Nat → Nat
  | 0, n => n
  | fuel + 1, n => if taken.contains (helper lhs n) then freshIndexFrom lhs taken fuel (n + 1) else n

/-- The first number from `n` on whose helper is not taken: of more tries than symbols are taken, one succeeds. -/
def freshIndex (lhs : Symbol) (taken : List Symbol) (n : Nat) : Nat := freshIndexFrom lhs taken taken.length n

end Transformation
end TableParser
