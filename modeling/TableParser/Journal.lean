import TableParser.Symbol.Table
import TableParser.Trail

/-!
# The journal

While grammars are read and parsers are built, events are reported: a symbol is asked for, or something worth telling
happened. The journal keeps the symbol table that the requests build up and the lines that the events leave.

* **Requests leave a line only once** (`Journal.record`): a symbol that is already known is passed over in silence.
-/

namespace TableParser

/-- How much an event matters, the most severe first. -/
inductive Level
  | error
  | warn
  | info
  | debug
  | trace
deriving DecidableEq, Repr

namespace Level

/-- Severity as a number: the smaller, the more severe. -/
def rank : Level → Nat
  | .error => 0
  | .warn => 1
  | .info => 2
  | .debug => 3
  | .trace => 4

/-- The label in front of a line. -/
def label : Level → String
  | .error => "ERROR"
  | .warn => "WARN"
  | .info => "INFO"
  | .debug => "DEBUG"
  | .trace => "TRACE"

end Level

/-- What a computation reports on its way. -/
inductive Event
  /-- A symbol is asked for. -/
  | intern (s : Symbol)
  /-- Something worth telling. -/
  | note (level : Level) (text : String)
deriving DecidableEq, Repr

/-- A computation that reports events. -/
abbrev Reported (ε α : Type) : Type := Trail Event ε α

namespace Reported

variable {ε : Type}

/-- Ask for a symbol. -/
def intern (s : Symbol) : Reported ε Unit := Trail.put (.intern s)

/-- Ask for several symbols, from left to right. -/
def internAll (symbols : List Symbol) : Reported ε Unit := Trail.putAll (symbols.map .intern)

/-- Tell something. -/
def note (level : Level) (text : String) : Reported ε Unit := Trail.put (.note level text)

end Reported

/-- One line of the journal. -/
structure Journal.Line where
  level : Level
  text : String
deriving DecidableEq, Repr

/-- The symbol table so far and the lines so far. -/
structure Journal where
  table : SymbolTable
  lines : List Journal.Line
deriving DecidableEq, Repr

namespace Journal

/-- Nothing has happened yet. -/
def start : Journal := ⟨.start, []⟩

/-- The symbols asked for so far, in the order of their first request. -/
def registry (j : Journal) : Registry := j.table.registry

/-- Take one event down. -/
def record (j : Journal) : Event → Journal
  | .intern s =>
    match j.table.find? s with
    | some _ => j
    | none => ⟨(j.table.intern s).1, j.lines ++ [⟨.trace, s!"intern {s.spelled}"⟩]⟩
  | .note level text => { j with lines := j.lines ++ [⟨level, text⟩] }

/-- Take several events down, in order. -/
def recordAll (j : Journal) (events : List Event) : Journal := events.foldl record j

/-- The line as text, its level in front. -/
def Line.render (line : Line) : String := s!"{line.level.label} {line.text}"

/-- The lines at the given level or a more severe one. -/
def linesUpTo (j : Journal) (level : Level) : List Line := j.lines.filter fun line => line.level.rank ≤ level.rank

end Journal
end TableParser
