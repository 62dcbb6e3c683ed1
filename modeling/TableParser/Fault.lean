import TableParser.Symbol

/-!
# Faults

A fault is the end of a computation whose input breaks a condition that the operation demands of its caller. Faults
are told apart from the errors that an operation reports about its input.
-/

namespace TableParser

/-- The conditions whose breach ends a computation. -/
inductive Fault
  /-- An alternative without symbols. -/
  | emptyAlternative
  /-- A terminal where a rule needs its left-hand side. -/
  | notNonterminal (s : Symbol)
  /-- A grammar without rules has no start symbol. -/
  | emptyGrammar
  /-- No rule has the symbol as its left-hand side. -/
  | undefinedRule (s : Symbol)
  /-- A left-recursive rule without an alternative that ends the recursion. -/
  | onlyLeftRecursive (lhs : Symbol)
  /-- The number of a rule that needs more than sixteen bits. -/
  | tooManyRules
  /-- The number of an alternative that needs more than sixteen bits. -/
  | tooManyAlternatives
  /-- The number of a state that needs more than sixteen bits. -/
  | tooManyStates
  /-- A dot position that needs more than sixteen bits. -/
  | tooLongAlternative
  /-- A state without items. -/
  | emptyItemSet
  /-- The end marker accepts no token. -/
  | matchEndMarker
  /-- Only terminals accept tokens. -/
  | matchNonterminal (s : Symbol)
  /-- A number that names nothing. -/
  | outOfRange
  /-- A sum that needs more bits than there are. -/
  | additionOverflow
deriving DecidableEq, Repr

namespace Fault

/-- The message that goes with a fault. -/
def message : Fault → String
  | .emptyAlternative => "empty alternative"
  | .notNonterminal s => s!"`{s.name}' is not a nonterminal"
  | .emptyGrammar => "empty grammar set"
  | .undefinedRule s => s!"invalid production: `{s.name}'"
  | .onlyLeftRecursive s => s!"invalid production: every alternative of `{s.name}' is left-recursive"
  | .tooManyRules => "too many grammars"
  | .tooManyAlternatives => "too many alternatives"
  | .tooManyStates => "too many states"
  | .tooLongAlternative => "too long alternative"
  | .emptyItemSet => "invalid itemset"
  | .matchEndMarker => "unable to compare zero with text"
  | .matchNonterminal s => s!"match nonterminal symbol `{s.name}' with a token"
  | .outOfRange => "index out of range"
  | .additionOverflow => "attempt to add with overflow"

/-- The values in front of the first fault, and the fault. -/
def collect {α : Type} : List (Except Fault α) → List α × Option Fault
  | [] => ([], none)
  | .ok a :: rest => (a :: (collect rest).1, (collect rest).2)
  | .error f :: _ => ([], some f)

theorem mem_of_mem_collect {α : Type} {results : List (Except Fault α)} {a : α} (h : a ∈ (collect results).1) :
    .ok a ∈ results := by
  induction results with
  | nil => cases h
  | cons result results ih =>
    cases result with
    | ok b =>
      rcases List.mem_cons.mp h with rfl | h
      · exact List.mem_cons_self
      · exact List.mem_cons_of_mem _ (ih h)
    | error f => cases h

/-- Without a fault nothing is missing. -/
theorem mem_collect {α : Type} {results : List (Except Fault α)} {a : α} (h : (collect results).2 = none) :
    a ∈ (collect results).1 ↔ .ok a ∈ results := by
  refine ⟨mem_of_mem_collect, fun ha => ?_⟩
  induction results with
  | nil => cases ha
  | cons result results ih =>
    cases result with
    | ok b =>
      rcases List.mem_cons.mp ha with heq | ha
      · cases heq
        exact List.mem_cons_self
      · exact List.mem_cons_of_mem _ (ih h ha)
    | error f => cases h

theorem error_mem_of_collect {α : Type} {results : List (Except Fault α)} {f : Fault}
    (h : (collect results).2 = some f) : .error f ∈ results := by
  induction results with
  | nil => cases h
  | cons result results ih =>
    cases result with
    | ok b => exact List.mem_cons_of_mem _ (ih h)
    | error f' =>
      cases h
      exact List.mem_cons_self

end Fault

/-- How an operation fails: with an error that it reports, or with a fault. -/
inductive Failure (ε : Type)
  | error (e : ε)
  | fault (f : Fault)
deriving DecidableEq, Repr

/-- Change what errors say. -/
def Failure.map {ε δ : Type} (g : ε → δ) : Failure ε → Failure δ
  | .error e => .error (g e)
  | .fault f => .fault f

end TableParser
