import TableParser.LL.Parser
import TableParser.LR.Table

/-!
# The saved form of parsers

A built parser can be saved as bytes and loaded without being built again. The form is a sequence of integers, which
take four bytes with the lowest first, and of texts, which are preceded by their length in bytes: magic number, kind of
parser, names of the terminals, names of the nonterminals, grammar, table. A symbol is referred to by its place in the
list of terminals, or by the negated place, counted from one, in the list of nonterminals.

* **Integers** (`Form.encodeInt`, `Form.decodeInt`) wrap around at thirty-two bits.
-/

namespace TableParser

/-- A parser of either kind. -/
inductive CompiledParser
  | ll (parser : LL.Parser)
  | lr (table : LR.Table)
deriving DecidableEq, Repr

/-- The grammar that the table of a parser refers to. -/
def CompiledParser.grammar : CompiledParser → Grammar
  | .ll parser => parser.grammar
  | .lr table => table.grammar

/-! ## Errors -/

/-- What can be wrong with data whose form is otherwise right. -/
inductive Corruption
  | negativeLength (n : Int)
  | invalidText
  | unlistedSymbol (s : Symbol)
  | terminalLhs (s : Symbol)
  | emptyAlternative
  | unknownAlternative (id : AlternativeId)
  | duplicateEntry
  | unknownAction (tag : Int)
  | duplicateAction
  | duplicateGoto
deriving DecidableEq, Repr

/-- What is told about corrupted data. -/
def Corruption.message : Corruption → String
  | .negativeLength n => s!"negative length {n}"
  | .invalidText => "invalid UTF-8 string"
  | .unlistedSymbol s => s!"symbol `{s.name}' is not in the symbol lists"
  | .terminalLhs s => s!"terminal `{s.name}' used as a left-hand side"
  | .emptyAlternative => "empty alternative"
  | .unknownAlternative id => s!"alternative {id.render} out of range"
  | .duplicateEntry => "duplicated parsing table entry"
  | .unknownAction tag => s!"unknown action tag {tag}"
  | .duplicateAction => "duplicated action entry"
  | .duplicateGoto => "duplicated goto entry"

/-- Why bytes cannot be moved. -/
inductive TransferError
  /-- The buffer is full. -/
  | bufferFull
  /-- The bytes end inside an integer. -/
  | integerCutShort
  /-- The bytes end inside a text. -/
  | textCutShort
  /-- The file cannot be read or written. -/
  | system (cause : String)
deriving DecidableEq, Repr

/-- What is told about bytes that cannot be moved. -/
def TransferError.message : TransferError → String
  | .bufferFull => "failed to write whole buffer"
  | .integerCutShort => "failed to fill whole buffer"
  | .textCutShort => "unexpected end of file"
  | .system cause => cause

/-- Why a parser cannot be saved or loaded. -/
inductive FormError
  | transfer (cause : TransferError)
  | badMagic (n : Int)
  | unknownKind (n : Int)
  | corrupted (what : Corruption)
  | unknownSymbol (reference : Int)
  | unknownState (n : Int)
deriving DecidableEq, Repr

namespace Form

/-- An integer as a number of thirty-two bits, negative ones from above. -/
def unsigned (n : Int) : Nat := (n % (doubleWordLimit : Int)).toNat

/-- A number in hexadecimal digits. -/
def hexadecimal (n : Nat) : String := "0x" ++ String.ofList (Nat.toDigits 16 n)

end Form

/-- What is told about an error of saving or loading. -/
def FormError.message : FormError → String
  | .transfer cause => s!"IO error: {cause.message}"
  | .badMagic n => s!"bad magic number: {Form.hexadecimal (Form.unsigned n)}"
  | .unknownKind n => s!"unknown parser kind: {n}"
  | .corrupted what => s!"corrupted data: {what.message}"
  | .unknownSymbol reference => s!"unknown symbol reference: {reference}"
  | .unknownState n => s!"unknown state: {n}"

namespace Form

/-! ## Integers -/

/-- The four bytes of an integer, the lowest first. -/
def encodeInt (n : Int) : List UInt8 :=
  let u := unsigned n
  [u.toUInt8, (u / 0x100).toUInt8, (u / 0x10000).toUInt8, (u / 0x1000000).toUInt8]

/-- The integer of four bytes, the lowest first. -/
def decodeInt (a b c d : UInt8) : Int :=
  Int.bmod ((a.toNat + 0x100 * b.toNat + 0x10000 * c.toNat + 0x1000000 * d.toNat : Nat) : Int) doubleWordLimit

@[simp] theorem length_encodeInt (n : Int) : (encodeInt n).length = 4 := rfl

/-- An integer of thirty-two bits reads back as it was written. -/
theorem decodeInt_encodeInt {n : Int} (low : -2147483648 ≤ n) (high : n < 2147483648) :
    ∃ a b c d, encodeInt n = [a, b, c, d] ∧ decodeInt a b c d = n := by
  refine ⟨_, _, _, _, rfl, ?_⟩
  have hu : ((unsigned n : Nat) : Int) = n % 4294967296 := by
    unfold unsigned doubleWordLimit
    omega
  unfold decodeInt
  simp only [UInt8.toNat_ofNat', Nat.toUInt8_eq]
  generalize unsigned n = u at hu
  have hsum : u % 2 ^ 8 + 0x100 * (u / 0x100 % 2 ^ 8) + 0x10000 * (u / 0x10000 % 2 ^ 8) +
      0x1000000 * (u / 0x1000000 % 2 ^ 8) = u := by
    omega
  rw [hsum, hu]
  unfold doubleWordLimit
  rw [Int.bmod_def]
  omega

/-! ## Numbers with a meaning -/

/-- The number in front of every saved parser. -/
def magic : Int := 0x454c5052

/-- The kind of a predictive parser. -/
def kindLL : Int := 1

/-- The kind of a shift/reduce table. -/
def kindLR : Int := 2

/-- The tag of a shift. -/
def tagShift : Int := 0

/-- The tag of a reduction. -/
def tagReduce : Int := 1

/-- The tag of acceptance. -/
def tagAccept : Int := 2

/-! ## Symbol lists -/

/-- The symbols that a saved parser refers to. -/
structure SymbolLists where
  terminals : List Symbol
  nonterminals : List Symbol
deriving DecidableEq, Repr

namespace SymbolLists

/-- The symbols of a grammar. The end marker may occur in a table without occurring in the grammar. -/
def ofGrammar (g : Grammar) : SymbolLists := ⟨insertSymbols [Symbol.endMarker] g.terminals, g.nonterminals⟩

/-- The reference to a symbol. -/
def reference? (l : SymbolLists) (s : Symbol) : Option Int :=
  match l.terminals.idxOf? s with
  | some i => some i
  | none => (l.nonterminals.idxOf? s).map fun i => -(i : Int) - 1

/-- The symbol that is referred to. -/
def symbol? (l : SymbolLists) (reference : Int) : Option Symbol :=
  if 0 ≤ reference then l.terminals[reference.toNat]? else l.nonterminals[(-reference - 1).toNat]?

end SymbolLists
end Form
end TableParser
