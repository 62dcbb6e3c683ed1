import TableParser.FixedWidth
import TableParser.SymbolSets

/-!
# Grammars

A grammar is an ordered list of rules; a rule is a nonterminal with its alternatives, and an alternative is a list of
symbols with an optional action text that is carried along uninterpreted. The left-hand side of the first rule is the
start symbol.

* **Alternatives are numbered** by two sixteen-bit indices, the rule and the place in it (`AlternativeId`), which pack
  into one number of thirty-two bits (`AlternativeId.toRaw`, `AlternativeId.ofRaw`).
* **Left-recursive alternatives come first** (`Rule.add`).
-/

namespace TableParser

/-! ## Alternatives -/

/-- One right-hand side of a rule. -/
structure Alternative where
  symbols : List Symbol
  action : Option String
deriving DecidableEq, Repr

namespace Alternative

/-- The alternative with the given symbols, of which there has to be one at least. -/
def ofSymbols (symbols : List Symbol) (action : Option String) : Except Fault Alternative :=
  if symbols.isEmpty then .error .emptyAlternative else .ok ⟨symbols, action⟩

/-- The alternative that derives the empty string. -/
def epsilon : Alternative := ⟨[Symbol.epsilon], none⟩

/-- Whether the alternative derives the empty string outright. -/
def isEpsilon (a : Alternative) : Bool := a.symbols.head? == some Symbol.epsilon

/-- The number of symbols that a reduction by this alternative takes from the stack. -/
def arity (a : Alternative) : Nat := if a.isEpsilon then 0 else a.symbols.length

/-- The symbols, and the action behind an arrow. -/
def render (a : Alternative) : String :=
  " ".intercalate (a.symbols.map Symbol.name) ++
    match a.action with
    | some action => s!" => {action}"
    | none => ""

end Alternative

/-- The length of the longest common beginning of two symbol strings. -/
def commonLength : List Symbol → List Symbol → Nat
  | x :: xs, y :: ys => if x = y then commonLength xs ys + 1 else 0
  | _, _ => 0

/-! ## Rules -/

/-- All alternatives of one nonterminal. -/
structure Rule where
  lhs : Symbol
  alternatives : List Alternative
deriving DecidableEq, Repr

namespace Rule

/-- The rule of a nonterminal, without alternatives. -/
def ofLhs (lhs : Symbol) : Except Fault Rule :=
  if lhs.isNonterminal then .ok ⟨lhs, []⟩ else .error (.notNonterminal lhs)

/-- Whether an alternative begins with the left-hand side. -/
def isLeftRecursive (r : Rule) (a : Alternative) : Bool := a.symbols.head? == some r.lhs

/-- Add an alternative: in front if it is left-recursive, otherwise at the end. -/
def add (r : Rule) (a : Alternative) : Rule :=
  if r.isLeftRecursive a then ⟨r.lhs, a :: r.alternatives⟩ else ⟨r.lhs, r.alternatives ++ [a]⟩

/-- Add several alternatives, from left to right. -/
def addAll (r : Rule) (alternatives : List Alternative) : Rule := alternatives.foldl add r

/-- The left-hand side in its column, and the alternatives. -/
def render (r : Rule) : String :=
  Text.padRight Text.nameWidth r.lhs.name ++ " | ".intercalate (r.alternatives.map Alternative.render)

end Rule

/-! ## Numbers of alternatives -/

/-- The place of an alternative: its rule, and its place among the alternatives of the rule. -/
structure AlternativeId where
  rule : UInt16
  index : UInt16
deriving DecidableEq, Repr

namespace AlternativeId

/-- The number for two places, both of which have to fit. -/
def ofIndices (rule index : Nat) : Except Fault AlternativeId :=
  if wordLimit ≤ rule then .error .tooManyRules
  else if wordLimit ≤ index then .error .tooManyAlternatives
  else .ok ⟨rule.toUInt16, index.toUInt16⟩

/-- Both places in one number: the rule in the high half, the index in the low half. -/
def toRaw (id : AlternativeId) : Nat := id.rule.toNat * wordLimit + id.index.toNat

/-- The places packed into a number. -/
def ofRaw (raw : Nat) : AlternativeId := ⟨(raw / wordLimit).toUInt16, raw.toUInt16⟩

/-- Rule and index, with a point between them. -/
def render (id : AlternativeId) : String := s!"{id.rule}.{id.index}"

end AlternativeId

/-! ## Grammars -/

/-- An ordered list of rules. -/
structure Grammar where
  rules : List Rule
deriving DecidableEq, Repr

namespace Grammar

/-- The left-hand side of the first rule. -/
def start (g : Grammar) : Except Fault Symbol :=
  match g.rules with
  | [] => .error .emptyGrammar
  | r :: _ => .ok r.lhs

/-- The place of the first rule for a symbol. -/
def position? (g : Grammar) (lhs : Symbol) : Option Nat := g.rules.findIdx? fun r => r.lhs == lhs

/-- The first rule for a symbol and its place. -/
def find (g : Grammar) (lhs : Symbol) : Except Fault (Nat × Rule) :=
  match g.rules.zipIdx.find? fun (r, _) => r.lhs == lhs with
  | some (r, i) => .ok (i, r)
  | none => .error (.undefinedRule lhs)

/-- The rule and the alternative that a number names, if any. -/
def target? (g : Grammar) (id : AlternativeId) : Option (Rule × Alternative) :=
  match g.rules[id.rule.toNat]? with
  | none => none
  | some r => (r.alternatives[id.index.toNat]?).map fun a => (r, a)

/-- The rule and the alternative that a number names. -/
def target (g : Grammar) (id : AlternativeId) : Except Fault (Rule × Alternative) :=
  match g.target? id with
  | some found => .ok found
  | none => .error .outOfRange

/-- Whether a number names an alternative. -/
def hasAlternative (g : Grammar) (id : AlternativeId) : Bool := (g.target? id).isSome

/-- The places of all alternatives, rule by rule. -/
def alternativePlaces (g : Grammar) : List (Nat × Nat) :=
  g.rules.zipIdx.flatMap fun (r, i) => (List.range r.alternatives.length).map fun j => (i, j)

/-- The numbers of all alternatives, rule by rule. -/
def alternativeIds (g : Grammar) : Except Fault (List AlternativeId) :=
  g.alternativePlaces.mapM fun (i, j) => AlternativeId.ofIndices i j

/-- All symbols of the right-hand sides, in order, with repetitions. -/
def rhsSymbols (g : Grammar) : List Symbol :=
  g.rules.flatMap fun r => r.alternatives.flatMap Alternative.symbols

/-- The left-hand sides, in order. -/
def lhsSymbols (g : Grammar) : List Symbol := g.rules.map Rule.lhs

/-- The terminals, in the order of their first appearance. -/
def terminals (g : Grammar) : List Symbol := insertSymbols [] (g.rhsSymbols.filter Symbol.isTerminal)

/-- The nonterminals, left-hand sides first, then in the order of their first appearance. -/
def nonterminals (g : Grammar) : List Symbol :=
  insertSymbols [] (g.lhsSymbols ++ g.rhsSymbols.filter Symbol.isNonterminal)

/-- An alternative behind its left-hand side. -/
def renderAlternative (g : Grammar) (id : AlternativeId) : Except Fault String :=
  (g.target id).map fun (r, a) => s!"{r.lhs.name} : {a.render}"

/-- The rules under a heading, one a line. -/
def render (g : Grammar) : String := Text.heading "Grammars" ++ String.join (g.rules.map fun r => r.render ++ "\n")

end Grammar
end TableParser
