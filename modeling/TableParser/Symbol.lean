/-!
# Grammar symbols

A symbol is a terminal or a nonterminal, known by its name. Eight terminals are built in: the end marker, the empty
derivation, and the six terminals that stand for a class of tokens instead of one text.

* **Builtin terminals** (`Symbol.builtins`), in the order in which every registry lists them.
-/

namespace TableParser

/-- Whether a symbol stands for input text or for a rule. -/
inductive SymbolKind
  | terminal
  | nonterminal
deriving DecidableEq, Repr

/-- A grammar symbol: two symbols are the same when their kind and their name agree. -/
inductive Symbol
  | terminal (name : String)
  | nonterminal (name : String)
deriving DecidableEq, Repr

namespace Symbol

/-- The symbol of the given kind and name. -/
def ofKind : SymbolKind → String → Symbol
  | .terminal, name => .terminal name
  | .nonterminal, name => .nonterminal name

/-- The kind of a symbol. -/
def kind : Symbol → SymbolKind
  | .terminal _ => .terminal
  | .nonterminal _ => .nonterminal

/-- The name of a symbol, which is also how it is printed. -/
def name : Symbol → String
  | .terminal name => name
  | .nonterminal name => name

/-- Whether the symbol is a terminal. -/
def isTerminal : Symbol → Bool
  | .terminal _ => true
  | .nonterminal _ => false

/-- Whether the symbol is a nonterminal. -/
def isNonterminal : Symbol → Bool
  | .terminal _ => false
  | .nonterminal _ => true

/-- The symbol with its kind spelled out, as registries report it. -/
def spelled : Symbol → String
  | .terminal name => s!"T({name})"
  | .nonterminal name => s!"N({name})"

/-! ## Builtin terminals -/

/-- The end of the input. -/
def endMarker : Symbol := .terminal "zero"

/-- The empty derivation, which needs no token. -/
def epsilon : Symbol := .terminal "epsilon"

/-- Any number token. -/
def number : Symbol := .terminal "number"

/-- Any string token. -/
def string : Symbol := .terminal "string"

/-- Any identifier token. -/
def identifier : Symbol := .terminal "identifier"

/-- Any line break token. -/
def newline : Symbol := .terminal "newline"

/-- Any positive sign token. -/
def positive : Symbol := .terminal "positive"

/-- Any negative sign token. -/
def negative : Symbol := .terminal "negative"

/-- The builtin terminals, in the order in which every registry lists them. -/
def builtins : List Symbol :=
  [endMarker, epsilon, number, string, identifier, newline, positive, negative]

/-- Whether the symbol is one of the builtin terminals. -/
def isBuiltin (s : Symbol) : Bool := builtins.contains s

/-! ## Small laws -/

@[simp] theorem ofKind_kind_name (s : Symbol) : ofKind s.kind s.name = s := by cases s <;> rfl

@[simp] theorem kind_ofKind (k : SymbolKind) (n : String) : (ofKind k n).kind = k := by cases k <;> rfl

@[simp] theorem name_ofKind (k : SymbolKind) (n : String) : (ofKind k n).name = n := by cases k <;> rfl

theorem isNonterminal_eq_not_isTerminal (s : Symbol) : s.isNonterminal = !s.isTerminal := by cases s <;> rfl

theorem isTerminal_eq_false_iff {s : Symbol} : s.isTerminal = false ↔ s.isNonterminal = true := by
  rw [isNonterminal_eq_not_isTerminal, Bool.not_eq_true']

/-- No symbol is a terminal and a nonterminal. -/
theorem not_isTerminal {s : Symbol} (hs : s.isNonterminal = true) : ¬s.isTerminal = true :=
  Bool.eq_false_iff.mp (isTerminal_eq_false_iff.mpr hs)

/-- The empty derivation is marked by a terminal. -/
theorem ne_epsilon_of_isNonterminal {s : Symbol} (hs : s.isNonterminal = true) : s ≠ epsilon := by
  rintro rfl
  cases hs

end Symbol
end TableParser
