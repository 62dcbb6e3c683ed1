import TableParser.Compiled.Form

/-!
# Loading parsers

Bytes are read field by field, and every reference is checked: symbols against the symbol lists, alternatives against
the grammar, states against the number of states. A slot of a table may be filled once only.

* **Primitives** (`Form.readInt`, `Form.readText`), **parts** (`Form.readRule`, `Form.readEntry`, …) and **the whole**
  (`CompiledParser.load`).
-/

namespace TableParser

namespace Form

/-- Reading from the front of some bytes. -/
abbrev Decode : Type → Type := StateT (List UInt8) (Except FormError)

/-- Stop with corrupted data. -/
def corrupted {α : Type} (what : Corruption) : Decode α := throw (.corrupted what)

/-- Read so many elements. -/
def times {α : Type} (read : Decode α) : Nat → Decode (List α)
  | 0 => pure []
  | n + 1 => do
    let a ← read
    let rest ← times read n
    return a :: rest

/-- Read so many elements into a table. -/
def timesInto {α : Type} (read : α → Decode α) : Nat → α → Decode α
  | 0, a => pure a
  | n + 1, a => do timesInto read n (← read a)

/-! ## Primitives -/

/-- Read an integer. -/
def readInt : Decode Int := fun bytes =>
  match bytes with
  | a :: b :: c :: d :: rest => .ok (decodeInt a b c d, rest)
  | _ => .error (.transfer .integerCutShort)

/-- Read a number of elements or bytes. -/
def readLength : Decode Nat := do
  let n ← readInt
  if n < 0 then corrupted (.negativeLength n) else return n.toNat

/-- Read so many bytes. -/
def readBytes (n : Nat) : Decode (List UInt8) := fun bytes =>
  if (bytes.take n).length < n then .error (.transfer .textCutShort) else .ok (bytes.take n, bytes.drop n)

/-- Read a text. -/
def readText : Decode String := do
  match String.fromUTF8? (← readBytes (← readLength)).toByteArray with
  | some text => return text
  | none => corrupted .invalidText

/-- Read a reference to a symbol. -/
def readSymbol (lists : SymbolLists) : Decode Symbol := do
  let reference ← readInt
  match lists.symbol? reference with
  | some s => return s
  | none => throw (.unknownSymbol reference)

/-- Check the number of an alternative. -/
def checkAlternative (g : Grammar) (raw : Int) : Decode AlternativeId :=
  let id := AlternativeId.ofRaw (unsigned raw)
  if g.hasAlternative id then pure id else corrupted (.unknownAlternative id)

/-- Check the number of a state. -/
def checkState (stateCount : Nat) (raw : Int) : Decode LR.StateId :=
  if 0 ≤ raw ∧ raw < wordLimit ∧ raw < stateCount then pure ⟨raw.toNat.toUInt16⟩ else throw (.unknownState raw)

/-! ## Grammars -/

/-- Read an action text, if there is one. -/
def readAction : Decode (Option String) := do
  if (← readInt) = 0 then return none else return some (← readText)

/-- Read an alternative. -/
def readAlternative (lists : SymbolLists) : Decode Alternative := do
  let symbols ← times (readSymbol lists) (← readLength)
  if symbols.isEmpty then corrupted .emptyAlternative
  else return ⟨symbols, ← readAction⟩

/-- Read a rule; its alternatives stay in the order in which they were saved. -/
def readRule (lists : SymbolLists) : Decode Rule := do
  let lhs ← readSymbol lists
  if lhs.isTerminal then corrupted (.terminalLhs lhs)
  else return ⟨lhs, ← times (readAlternative lists) (← readLength)⟩

/-- Read a grammar. -/
def readGrammar (lists : SymbolLists) : Decode Grammar := do
  return ⟨← times (readRule lists) (← readLength)⟩

/-! ## Tables -/

/-- Put an entry into a table, where its slot must be free. -/
def insertInto {κ₁ κ₂ ν : Type} [DecidableEq κ₁] [DecidableEq κ₂] (m : Matrix κ₁ κ₂ ν) (k₁ : κ₁) (k₂ : κ₂) (v : ν)
    (duplicate : Corruption) : Decode (Matrix κ₁ κ₂ ν) :=
  match m.insert k₁ k₂ v with
  | .ok m => pure m
  | .error _ => corrupted duplicate

/-- Read an entry of a predictive table. -/
def readEntry (lists : SymbolLists) (g : Grammar) (table : LL.Table) : Decode LL.Table := do
  let nonterminal ← readSymbol lists
  let terminal ← readSymbol lists
  let id ← checkAlternative g (← readInt)
  insertInto table nonterminal terminal id .duplicateEntry

/-- Read a predictive parser. -/
def readLL (lists : SymbolLists) (g : Grammar) : Decode CompiledParser := do
  return .ll (.ofTable g (← timesInto (readEntry lists g) (← readLength) .empty))

/-- The action for a tag and a value. -/
def toAction (g : Grammar) (stateCount : Nat) (tag value : Int) : Decode LR.TableAction :=
  if tag = tagShift then do return .shift (← checkState stateCount value)
  else if tag = tagReduce then do return .reduce (← checkAlternative g value)
  else if tag = tagAccept then return .accept
  else corrupted (.unknownAction tag)

/-- Read an entry of the action table. -/
def readActionEntry (lists : SymbolLists) (g : Grammar) (stateCount : Nat) (actions : LR.Actions) :
    Decode LR.Actions := do
  let state ← checkState stateCount (← readInt)
  let terminal ← readSymbol lists
  let tag ← readInt
  let value ← readInt
  insertInto actions state terminal (← toAction g stateCount tag value) .duplicateAction

/-- Read an entry of the goto table. -/
def readGotoEntry (lists : SymbolLists) (stateCount : Nat) (gotos : LR.Gotos) : Decode LR.Gotos := do
  let state ← checkState stateCount (← readInt)
  let nonterminal ← readSymbol lists
  let target ← checkState stateCount (← readInt)
  insertInto gotos state nonterminal target .duplicateGoto

/-- Read a shift/reduce table. -/
def readLR (lists : SymbolLists) (g : Grammar) : Decode CompiledParser := do
  let stateCount ← readLength
  let actions ← timesInto (readActionEntry lists g stateCount) (← readLength) .empty
  let gotos ← timesInto (readGotoEntry lists stateCount) (← readLength) .empty
  return .lr (.ofEntries g actions gotos stateCount)

/-! ## Parsers -/

/-- Read the magic number and the kind. -/
def readKind : Decode Int := do
  let n ← readInt
  if n ≠ magic then throw (.badMagic n)
  let kind ← readInt
  if kind ≠ kindLL ∧ kind ≠ kindLR then throw (.unknownKind kind)
  return kind

/-- Read so many names and ask for their symbols as they come. -/
def readNames (kind : SymbolKind) : Nat → List UInt8 → Reported FormError (List Symbol × List UInt8)
  | 0, bytes => pure ([], bytes)
  | n + 1, bytes => do
    let (name, bytes) ← Trail.lift (readText bytes)
    Reported.intern (Symbol.ofKind kind name)
    let (symbols, bytes) ← readNames kind n bytes
    return (Symbol.ofKind kind name :: symbols, bytes)

/-- Read a list of names and ask for their symbols. -/
def readSymbols (kind : SymbolKind) (bytes : List UInt8) : Reported FormError (List Symbol × List UInt8) := do
  let (n, bytes) ← Trail.lift (readLength bytes)
  readNames kind n bytes

/-- Read the grammar and the table. -/
def readBody (kind : Int) (lists : SymbolLists) : Decode CompiledParser := do
  let g ← readGrammar lists
  if kind = kindLL then readLL lists g else readLR lists g

end Form

/-- Load a parser; bytes behind it are left alone. -/
def CompiledParser.load (bytes : List UInt8) : Reported FormError CompiledParser := do
  let (kind, bytes) ← Trail.lift (Form.readKind bytes)
  let (terminals, bytes) ← Form.readSymbols .terminal bytes
  let (nonterminals, bytes) ← Form.readSymbols .nonterminal bytes
  let (parser, _) ← Trail.lift (Form.readBody kind ⟨terminals, nonterminals⟩ bytes)
  return parser

end TableParser
