import TableParser.Grammar.Basic
import TableParser.Symbol.Matching

/-!
# From tokens to terminals

* **Literals win** (`TerminalMap.find?`): a terminal named like the text of a token stands for it, even if the class
  of the token has a terminal of its own. String tokens go by their class alone. The end of the input and line breaks
  always have their builtin terminals.
-/

namespace TableParser

/-- The terminals that tokens are mapped to. -/
structure TerminalMap where
  terminals : List Symbol
deriving DecidableEq, Repr

namespace TerminalMap

/-- The terminals of a grammar. -/
def ofGrammar (g : Grammar) : TerminalMap := ⟨g.terminals⟩

/-- The listed terminal that stands for a class of tokens. -/
def byKind? (m : TerminalMap) (kind : TokenKind) : Option Symbol :=
  m.terminals.find? fun s => s.tokenKind? == some kind

/-- The listed terminal with the given text for its name; of two with one name the later counts. -/
def byText? (m : TerminalMap) (text : String) : Option Symbol :=
  m.terminals.reverse.find? fun s => !s.isBuiltin && s.name == text

/-- The terminal that a token stands for. -/
def find? (m : TerminalMap) (t : Token) : Option Symbol :=
  match t.kind with
  | .endOfFile => some Symbol.endMarker
  | .newline => some Symbol.newline
  | .string => m.byKind? .string
  | kind => (m.byText? t.text).or (m.byKind? kind)

end TerminalMap
end TableParser
