import TableParser.Fault
import TableParser.Token

/-!
# Which tokens a terminal accepts

* **Token classes** (`Symbol.tokenKind?`): a builtin terminal that stands for a class accepts exactly the tokens of
  that class, whatever their text.
* **Acceptance** (`Symbol.accepts`): any other terminal accepts the tokens with its name as their text; the empty
  derivation accepts every token, and neither the end marker nor a nonterminal may be asked.
-/

namespace TableParser.Symbol

/-- The class of tokens that a builtin terminal stands for. -/
def tokenKind? (s : Symbol) : Option TokenKind :=
  if s = number then some .number
  else if s = string then some .string
  else if s = identifier then some .identifier
  else if s = newline then some .newline
  else if s = positive then some .positive
  else if s = negative then some .negative
  else none

/-- Whether the terminal accepts the token. -/
def accepts (s : Symbol) (t : Token) : Except Fault Bool :=
  if s = endMarker then .error .matchEndMarker
  else if s = epsilon then .ok true
  else
    match s.tokenKind? with
    | some kind => .ok (t.kind == kind)
    | none => if s.isTerminal then .ok (t.text == s.name) else .error (.matchNonterminal s)

end TableParser.Symbol
