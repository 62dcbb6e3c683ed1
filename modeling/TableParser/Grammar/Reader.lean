import TableParser.Grammar.Definition
import TableParser.Text.Blank

/-!
# The text form of grammars

A grammar text is a sequence of records separated by blank lines. The first line of a record names a left-hand side,
every further line is one alternative: bars, colons, tabs and spaces at its front are dropped, and the first tab after
them separates the symbols from the action. Lines that begin with two slashes are comments. A symbol is a nonterminal
exactly when some record of the text defines it.

* **Records** (`Record.ofLines`) are read first, and then defined alternative by alternative (`Grammar.read`); what a
  definition refuses is reported with the number of the line.
-/

namespace TableParser

/-- One alternative of a record, with the number of its line. -/
structure RecordAlternative where
  line : Nat
  symbols : List String
  action : Option String
deriving DecidableEq, Repr

/-- A left-hand side with its alternatives. -/
structure Record where
  lhs : String
  alternatives : List RecordAlternative
deriving DecidableEq, Repr

namespace Record

/-- Whether the line is a comment. -/
def isComment (line : List Char) : Bool := ['/', '/'].isPrefixOf (Text.trimLeft line)

/-- Whether the character may stand in front of an alternative. -/
def isLead (c : Char) : Bool := c == ':' || c == '|' || c == '\t' || c == '\n' || c == ' '

/-- The action text behind the tab; blanks around it do not count, and an empty one is none. -/
def readAction (text : List Char) : Option String :=
  match text with
  | [] => none
  | _ :: action => if (Text.trim action).isEmpty then none else some (String.ofList (Text.trim action))

/-- Read a line as an alternative. -/
def readAlternative (number : Nat) (line : List Char) : Except DefinitionError RecordAlternative :=
  let body := line.dropWhile isLead
  let symbols := Text.words (body.takeWhile (· != '\t'))
  if symbols.isEmpty then .error (.atLine number .blankAlternative)
  else .ok ⟨number, symbols.map String.ofList, readAction (body.dropWhile (· != '\t'))⟩

/-- The records completed so far and the one under way. -/
structure Progress where
  done : List Record
  current : Option Record
deriving DecidableEq, Repr

namespace Progress

/-- Every record that was begun. -/
def records (p : Progress) : List Record := p.done ++ p.current.toList

/-- Take the next line. -/
def take (p : Progress) (number : Nat) (line : List Char) : Except DefinitionError Progress :=
  if isComment line then .ok p
  else if (Text.trim line).isEmpty then .ok ⟨p.records, none⟩
  else
    match p.current with
    | none =>
      let lhs := Text.trim line
      if lhs.any Text.isBlank then .error (.atLine number .malformedLhs)
      else if p.done.any fun r => r.lhs == String.ofList lhs then .error (.atLine number .duplicateLhs)
      else .ok ⟨p.done, some ⟨String.ofList lhs, []⟩⟩
    | some record =>
      (readAlternative number line).map fun a =>
        ⟨p.done, some ⟨record.lhs, record.alternatives ++ [a]⟩⟩

end Progress

/-- The records of a text, each of which has to have an alternative. -/
def ofLines (lines : List (List Char)) : Except DefinitionError (List Record) := do
  let progress ← lines.zipIdx.foldlM (fun p (line, i) => Progress.take p (i + 1) line) ⟨[], none⟩
  match progress.records.find? fun r => r.alternatives.isEmpty with
  | some r => .error (.flawed (.missingAlternatives r.lhs))
  | none => .ok progress.records

/-- The symbol that a name stands for, given the left-hand sides of the text. -/
def symbolOf (records : List Record) (name : String) : Symbol :=
  if records.any fun r => r.lhs == name then .nonterminal name else .terminal name

/-- The steps that define a record, each with the number of its line. -/
def steps (records : List Record) (r : Record) : List (Nat × DefinitionStep) :=
  r.alternatives.map fun a =>
    (a.line, .rule (symbolOf records r.lhs) (a.symbols.map (symbolOf records)) a.action)

end Record

/-- Read a grammar from its text. -/
def Grammar.read (text : List Char) : Reported DefinitionError Grammar := do
  let records ← Trail.lift (Record.ofLines (Text.lines text))
  Reported.internAll (records.map fun r => Symbol.nonterminal r.lhs)
  let draft ← (records.flatMap (Record.steps records)).foldlM
    (fun d (line, step) => (DefinitionStep.run d step).mapError (DefinitionError.atLine line)) Draft.empty
  Trail.lift draft.finish

end TableParser
