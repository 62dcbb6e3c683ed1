import TableParser.Grammar.Basic
import TableParser.Journal

/-!
# Defining grammars

A grammar is defined step by step: alternatives are added to the rules of their left-hand sides, and a start symbol may
be named. A step that breaks a rule of the definition is refused, and so is a definition that leaves a nonterminal
without a rule.

* **Steps** (`Draft.addRule`, `Draft.setStart`), **completion** (`Draft.finish`) and the whole (`Grammar.define`).
* **Calls** (`DefinitionStep.call`) are steps that change a draft in place and answer whether they were taken; a definition
  may go on behind one that was refused (`Grammar.defineByCalls`).
-/

namespace TableParser

/-- What can be wrong with the parts of a definition. -/
inductive DefinitionFlaw
  | notNonterminal (s : Symbol)
  | emptyAlternative (lhs : Symbol)
  | mixedEpsilon (lhs : Symbol)
  | duplicateAlternative (lhs : Symbol)
  | noRules
  | startWithoutRule (s : Symbol)
  | malformedLhs
  | duplicateLhs
  | blankAlternative
  | missingAlternatives (name : String)
deriving DecidableEq, Repr

namespace DefinitionFlaw

/-- What is told about a flaw. -/
def message : DefinitionFlaw → String
  | .notNonterminal s => s!"`{s.name}' is not a nonterminal symbol"
  | .emptyAlternative lhs => s!"empty alternative for `{lhs.name}'"
  | .mixedEpsilon lhs => s!"epsilon must stand alone in an alternative of `{lhs.name}'"
  | .duplicateAlternative lhs => s!"duplicate alternative for `{lhs.name}'"
  | .noRules => "empty grammar set"
  | .startWithoutRule s => s!"start symbol `{s.name}' has no production"
  | .malformedLhs => "malformed left-hand side"
  | .duplicateLhs => "duplicated left-hand side"
  | .blankAlternative => "empty alternative"
  | .missingAlternatives name => s!"`{name}' has no alternative"

end DefinitionFlaw

/-- Why there is no grammar. -/
inductive DefinitionError
  /-- The text could not be read at all. -/
  | unreadable (cause : String)
  /-- A line of the text is flawed. -/
  | atLine (line : Nat) (flaw : DefinitionFlaw)
  /-- A nonterminal has no rule. -/
  | undefinedSymbol (name : String)
  /-- Some other flaw. -/
  | flawed (flaw : DefinitionFlaw)
deriving DecidableEq, Repr

namespace DefinitionError

/-- What is told about an error. -/
def message : DefinitionError → String
  | .unreadable cause => s!"IO error: {cause}"
  | .atLine line flaw => s!"Syntax error at line {line}: {flaw.message}"
  | .undefinedSymbol name => s!"Undefined symbol: `{name}'"
  | .flawed flaw => s!"Other error: {flaw.message}"

end DefinitionError

/-- A definition under way. -/
structure Draft where
  rules : List Rule
  start : Option Symbol
deriving DecidableEq, Repr

namespace Draft

/-- Nothing is defined yet. -/
def empty : Draft := ⟨[], none⟩

/-- The rule of a symbol as defined so far. -/
def ruleOf (d : Draft) (lhs : Symbol) : Rule := (d.rules.find? fun r => r.lhs == lhs).getD ⟨lhs, []⟩

/-- Put a rule in the place of the one with its left-hand side, or at the end. -/
def setRule (d : Draft) (rule : Rule) : Draft :=
  if d.rules.any fun r => r.lhs == rule.lhs then
    { d with rules := d.rules.map fun r => if r.lhs == rule.lhs then rule else r }
  else { d with rules := d.rules ++ [rule] }

/-- Add an alternative to the rule of its left-hand side. -/
def addRule (d : Draft) (lhs : Symbol) (rhs : List Symbol) (action : Option String) : Except DefinitionFlaw Draft :=
  if lhs.isTerminal then .error (.notNonterminal lhs)
  else if rhs.isEmpty then .error (.emptyAlternative lhs)
  else if 1 < rhs.length && rhs.contains Symbol.epsilon then .error (.mixedEpsilon lhs)
  else if (d.ruleOf lhs).alternatives.any fun a => a.symbols == rhs then .error (.duplicateAlternative lhs)
  else .ok (d.setRule ((d.ruleOf lhs).add ⟨rhs, action⟩))

/-- Name the start symbol; the last one named counts. -/
def setStart (d : Draft) (s : Symbol) : Except DefinitionFlaw Draft :=
  if s.isTerminal then .error (.notNonterminal s) else .ok { d with start := some s }

/-- The rules with that of the start symbol in front. -/
def ordered (d : Draft) : Except DefinitionFlaw (List Rule) :=
  match d.start with
  | none => .ok d.rules
  | some s =>
    match d.rules.find? fun r => r.lhs == s with
    | none => .error (.startWithoutRule s)
    | some rule => .ok (rule :: d.rules.eraseP fun r => r.lhs == s)

/-- The grammar, once every nonterminal is known to have a rule. -/
def finish (d : Draft) : Except DefinitionError Grammar :=
  if d.rules.isEmpty then .error (.flawed .noRules)
  else
    match d.ordered with
    | .error flaw => .error (.flawed flaw)
    | .ok rules =>
      match (Grammar.mk rules).nonterminals.find? fun s => ((Grammar.mk rules).position? s).isNone with
      | some s => .error (.undefinedSymbol s.name)
      | none => .ok ⟨rules⟩

end Draft

/-- One step of a definition. -/
inductive DefinitionStep
  | rule (lhs : Symbol) (rhs : List Symbol) (action : Option String)
  | start (s : Symbol)
deriving DecidableEq, Repr

namespace DefinitionStep

/-- The symbols of a step, from left to right. -/
def symbols : DefinitionStep → List Symbol
  | .rule lhs rhs _ => lhs :: rhs
  | .start s => [s]

/-- The draft after a step. -/
def apply (d : Draft) : DefinitionStep → Except DefinitionFlaw Draft
  | .rule lhs rhs action => d.addRule lhs rhs action
  | .start s => d.setStart s

/-- Ask for the symbols of a step and take it. -/
def run (d : Draft) (step : DefinitionStep) : Reported DefinitionFlaw Draft := do
  Reported.internAll step.symbols
  Trail.lift (step.apply d)

end DefinitionStep

/-- Define a grammar by steps, up to the first that is refused. -/
def Grammar.define (steps : List DefinitionStep) : Reported DefinitionError Grammar := do
  let draft ← (steps.foldlM DefinitionStep.run Draft.empty).mapError .flawed
  Trail.lift draft.finish

/-! ## Definitions that go on -/

namespace Draft

/-- Give a symbol a rule without alternatives, at the end, unless it has a rule. -/
def enter (d : Draft) (lhs : Symbol) : Draft :=
  if d.rules.any fun r => r.lhs == lhs then d else { d with rules := d.rules ++ [⟨lhs, []⟩] }

/-- Add an alternative in place. The rule is entered before its alternatives are looked through. -/
def callRule (d : Draft) (lhs : Symbol) (rhs : List Symbol) (action : Option String) : Except DefinitionFlaw Unit × Draft :=
  if lhs.isTerminal then (.error (.notNonterminal lhs), d)
  else if rhs.isEmpty then (.error (.emptyAlternative lhs), d)
  else if 1 < rhs.length && rhs.contains Symbol.epsilon then (.error (.mixedEpsilon lhs), d)
  else
    let entered := d.enter lhs
    if (entered.ruleOf lhs).alternatives.any fun a => a.symbols == rhs then
      (.error (.duplicateAlternative lhs), entered)
    else (.ok (), entered.setRule ((entered.ruleOf lhs).add ⟨rhs, action⟩))

/-- Name the start symbol in place. -/
def callStart (d : Draft) (s : Symbol) : Except DefinitionFlaw Unit × Draft :=
  if s.isTerminal then (.error (.notNonterminal s), d) else (.ok (), { d with start := some s })

end Draft

/-- Make the call that a step stands for: what it answers, and the draft behind it. -/
def DefinitionStep.call (d : Draft) : DefinitionStep → Except DefinitionFlaw Unit × Draft
  | .rule lhs rhs action => d.callRule lhs rhs action
  | .start s => d.callStart s

/-- The draft behind several calls, whatever they answer. -/
def Draft.afterCalls (d : Draft) (calls : List DefinitionStep) : Draft := calls.foldl (fun d call => (call.call d).2) d

/-- Define a grammar by calls all of which are made, also behind one that was refused. -/
def Grammar.defineByCalls (calls : List DefinitionStep) : Reported DefinitionError Grammar := do
  Reported.internAll (calls.flatMap DefinitionStep.symbols)
  Trail.lift (Draft.empty.afterCalls calls).finish

end TableParser
