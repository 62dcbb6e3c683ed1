import TableParser.Compiled.Form

/-!
# Saving parsers

* **The fields of a parser** (`Form.Field.ofParser`) are written one after the other (`CompiledParser.save`).
* **A buffer of a given size** (`CompiledParser.saveWithin`) is filled up with zeros, or is too small.
-/

namespace TableParser

namespace Form

/-- A piece of the saved form. -/
inductive Field
  | int (n : Int)
  | text (s : String)
  | symbol (s : Symbol)
deriving DecidableEq, Repr

namespace Field

/-- The number of the elements in front of the elements. -/
def counted {α : Type} (fields : α → List Field) (items : List α) : List Field :=
  .int items.length :: items.flatMap fields

/-- The fields of an alternative. -/
def ofAlternative (a : Alternative) : List Field :=
  counted (fun s => [.symbol s]) a.symbols ++
    match a.action with
    | some action => [.int 1, .text action]
    | none => [.int 0]

/-- The fields of a rule. -/
def ofRule (r : Rule) : List Field := .symbol r.lhs :: counted ofAlternative r.alternatives

/-- The fields of an entry of a predictive table. -/
def ofEntry : Symbol × Symbol × AlternativeId → List Field
  | (nonterminal, terminal, id) => [.symbol nonterminal, .symbol terminal, .int id.toRaw]

/-- The fields of an action. -/
def ofAction : LR.TableAction → List Field
  | .shift target => [.int tagShift, .int target.number.toNat]
  | .reduce id => [.int tagReduce, .int id.toRaw]
  | .accept => [.int tagAccept, .int 0]

/-- The fields of an entry of the action table. -/
def ofActionEntry : LR.StateId × Symbol × LR.TableAction → List Field
  | (state, terminal, action) => .int state.number.toNat :: .symbol terminal :: ofAction action

/-- The fields of an entry of the goto table. -/
def ofGotoEntry : LR.StateId × Symbol × LR.StateId → List Field
  | (state, nonterminal, target) => [.int state.number.toNat, .symbol nonterminal, .int target.number.toNat]

/-- The kind of a parser. -/
def kindOf : CompiledParser → Int
  | .ll _ => kindLL
  | .lr _ => kindLR

/-- The fields of the table of a parser. -/
def ofTable : CompiledParser → List Field
  | .ll parser => counted ofEntry parser.entries.toList
  | .lr table =>
    .int table.stateCount :: counted ofActionEntry table.actions.toList ++ counted ofGotoEntry table.gotos.toList

/-- The fields of a parser. -/
def ofParser (p : CompiledParser) : List Field :=
  let lists := SymbolLists.ofGrammar p.grammar
  [.int magic, .int (kindOf p)] ++
    counted (fun s => [.text s.name]) lists.terminals ++
    counted (fun s => [.text s.name]) lists.nonterminals ++
    counted ofRule p.grammar.rules ++ ofTable p

/-- The bytes of a text: its length, and the text itself. -/
def encodeText (s : String) : List UInt8 := encodeInt s.utf8ByteSize ++ s.toUTF8.data.toList

/-- Write a field. -/
def write (lists : SymbolLists) : Field → Trail UInt8 FormError Unit
  | .int n => Trail.putAll (encodeInt n)
  | .text s => Trail.putAll (encodeText s)
  | .symbol s =>
    match lists.reference? s with
    | some reference => Trail.putAll (encodeInt reference)
    | none => Trail.stop (.corrupted (.unlistedSymbol s))

end Field
end Form

namespace CompiledParser

/-- Write a parser; a symbol that the grammar does not know stops the writing. -/
def save (p : CompiledParser) : Trail UInt8 FormError Unit :=
  Trail.all ((Form.Field.ofParser p).map (Form.Field.write (.ofGrammar p.grammar)))

/-- Write a parser into a buffer of zeros. -/
def saveWithin (p : CompiledParser) (size : Nat) : Except FormError (List UInt8) :=
  let written := p.save
  if size < written.emitted.length then .error (.transfer .bufferFull)
  else written.result.map fun _ => written.emitted ++ List.replicate (size - written.emitted.length) 0

end CompiledParser
end TableParser
