import TableParser.CommandLine.Directory
import TableParser.CommandLine.Options
import TableParser.Compiled.Load
import TableParser.Compiled.Save
import TableParser.Grammar.Reader
import TableParser.Scanner

/-!
# The program

A run builds or loads a parser, warns about conflicts, dumps and saves the parser if asked to, and parses the source
file if there is one. What it prints and writes is put out on the way, so that it stays when a later part fails.

* **A run** (`Program.run`) and **what is left of it** (`Outcome.ofRun`): exit code, output and files.
-/

namespace TableParser

/-- What a run does to the world. -/
inductive Effect
  | print (text : String)
  | write (path : String) (content : List UInt8)
deriving DecidableEq, Repr

/-- Why a run ends early. -/
inductive Interruption
  /-- The arguments are not well-formed. -/
  | usage
  /-- What could not be done, and the causes, the nearest first. -/
  | error (context : String) (causes : List String)
  | fault (f : Fault)
  /-- The parse takes more steps than were allowed. -/
  | unfinished
deriving DecidableEq, Repr

namespace Program

/-- A run puts out effects and may be interrupted. -/
abbrev Run (α : Type) : Type := Trail Effect Interruption α

/-- Print a text and a line break. -/
def print (text : String) : Run Unit := Trail.put (.print (text ++ "\n"))

/-- Give up what the context says for a cause. -/
def fail {α : Type} (context : String) (causes : List String) : Run α := Trail.stop (.error context causes)

/-- The result of a computation that may fault. -/
def orFault {α : Type} (r : Except Fault α) : Run α := Trail.lift (r.mapError .fault)

/-- The causes of an error of saving or loading; a transfer has a cause of its own. -/
def formCauses (e : FormError) : List String :=
  match e with
  | .transfer cause => [e.message, cause.message]
  | _ => [e.message]

/-- What is told about text that is no UTF-8. -/
def invalidText : String := "stream did not contain valid UTF-8"

/-- The text of a file. -/
def readText (d : Directory) (path : String) : Except String (List Char) :=
  match d.read path with
  | .error e => .error e.message
  | .ok bytes =>
    match String.fromUTF8? bytes.toByteArray with
    | none => .error invalidText
    | some text => .ok text.toList

/-- Read a grammar file. -/
def readGrammar (d : Directory) (path : String) : Reported DefinitionError Grammar :=
  match readText d path with
  | .error cause => Trail.stop (.unreadable cause)
  | .ok text => Grammar.read text

/-- Build the parser of a grammar file. -/
def buildParser (d : Directory) (o : Options) : Run CompiledParser := do
  let reading := readGrammar d o.grammar
  match reading.result with
  | .error e => fail s!"failed to read grammar {o.grammar}" [e.message]
  | .ok g =>
    match o.algorithm with
    | .ll =>
      let order := (Journal.start.recordAll reading.emitted).registry
      return .ll (← orFault (LL.Parser.build order g).result)
    | .lr => return .lr (← orFault (LR.Table.build g).result)

/-- Load a saved parser. -/
def loadParser (d : Directory) (path : String) : Run CompiledParser :=
  let context := s!"failed to load compiled parser from {path}"
  match d.read path with
  | .error e =>
    if e.isAtOpening then fail s!"failed to open {path}" [e.message]
    else fail context (formCauses (.transfer (.system e.message)))
  | .ok bytes =>
    match (CompiledParser.load bytes).result with
    | .error e => fail context (formCauses e)
    | .ok p => pure p

/-- The number of conflicts in the table of a parser. -/
def conflictCount : CompiledParser → Nat
  | .ll p => p.conflicts.length
  | .lr t => t.conflicts.length

/-- Warn about conflicts. -/
def warn (p : CompiledParser) : Run Unit :=
  match conflictCount p with
  | 0 => pure ()
  | 1 => print "[warning] The parsing table has 1 conflict. The first entry is used."
  | n => print s!"[warning] The parsing table has {n} conflicts. The first entry is used."

/-- Dump a parser. -/
def dump (p : CompiledParser) : Run Unit := do
  let dump := match p with
    | .ll p => p.dump
    | .lr t => t.dump
  Trail.putAll (dump.emitted.map .print)
  orFault dump.result
  print ""

/-- Save a parser; bytes written before a failure stay in the file. -/
def save (d : Directory) (p : CompiledParser) (path : String) : Run Directory := do
  let written := p.save
  match d.write path written.emitted with
  | .error e => fail s!"failed to create {path}" [e.message]
  | .ok d => do
    Trail.put (.write path written.emitted)
    match written.result with
    | .error e => fail s!"failed to save compiled parser to {path}" (formCauses e)
    | .ok () => return d

/-- Parse a text. -/
def parseText (p : CompiledParser) (fuel : Nat) (text : List Char) :
    Option (Except (Failure (ParseError ScanError)) (Tree Symbol)) :=
  match p with
  | .ll p => p.parse fuel (Scanner.ofText text)
  | .lr t => t.parse fuel (Scanner.ofText text)

/-- Parse a source file and print its tree. -/
def parse (d : Directory) (p : CompiledParser) (fuel : Nat) (path : String) : Run Unit :=
  match readText d path with
  | .error cause => fail s!"failed to read {path}" [cause]
  | .ok text =>
    match parseText p fuel text with
    | none => Trail.stop .unfinished
    | some (.error (.fault f)) => Trail.stop (.fault f)
    | some (.error (.error e)) => fail s!"failed to parse {path}" [e.message ScanError.message]
    | some (.ok tree) => print (tree.render Symbol.name)

/-- Do what the options ask for, with so many steps for the parse. -/
def execute (d : Directory) (fuel : Nat) (o : Options) : Run Unit := do
  let p ← if o.load then loadParser d o.grammar else buildParser d o
  warn p
  if o.dump then dump p
  let d ← match o.save with
    | none => pure d
    | some path => save d p path
  match o.source with
  | none => return
  | some path => parse d p fuel path

/-- Run the program with its arguments. -/
def run (d : Directory) (fuel : Nat) (arguments : List String) : Run Unit :=
  match Options.ofArguments arguments with
  | none => Trail.stop .usage
  | some o => execute d fuel o

end Program

/-! ## What is left of a run -/

/-- Exit code, output and files. -/
structure Outcome where
  code : Nat
  output : String
  errors : String
  directory : Directory
deriving DecidableEq, Repr

namespace Outcome

/-- A text with spaces in front of every line but the first. -/
def indentLines (width : Nat) (text : String) : String :=
  ("\n" ++ String.ofList (List.replicate width ' ')).intercalate
    ((Text.splitOn (· == '\n') text.toList).map String.ofList)

/-- The lines for the causes of an error, numbered if there are several. -/
def causeLines : List String → List String
  | [cause] => ["    " ++ indentLines 4 cause]
  | causes => causes.zipIdx.map fun (cause, n) => s!"    {n}: " ++ indentLines 7 cause

/-- The report on an error. -/
def errorReport (context : String) (causes : List String) : String :=
  s!"Error: {context}\n\nCaused by:\n" ++ String.join ((causeLines causes).map fun line => line ++ "\n")

/-- The exit code of a run. -/
def codeOf : Except Interruption Unit → Nat
  | .ok () => 0
  | .error .usage => 2
  | .error (.error _ _) => 1
  | .error (.fault _) | .error .unfinished => 101

/-- The report on the end of a run. -/
def errorsOf : Except Interruption Unit → String
  | .ok () => ""
  | .error .usage => "usage: [-a ll|lr] [--dump] [--save PATH] [--load] GRAMMAR [SOURCE]\n"
  | .error (.error context causes) => errorReport context causes
  | .error (.fault f) => f.message ++ "\n"
  | .error .unfinished => "unfinished\n"

/-- The files after an effect. -/
def apply (d : Directory) : Effect → Directory
  | .print _ => d
  | .write path content => ((d.write path content).toOption).getD d

/-- The text that an effect prints. -/
def printed : Effect → String
  | .print text => text
  | .write _ _ => ""

/-- What is left of a run. -/
def ofRun (d : Directory) (r : Program.Run Unit) : Outcome :=
  ⟨codeOf r.result, String.join (r.emitted.map printed), errorsOf r.result, r.emitted.foldl apply d⟩

end Outcome
end TableParser
