import TableParser.Fault
import TableParser.Journal
import TableParser.Token

/-!
# Parse errors

Why a parse ends without a tree. Errors that concern the input are reported when they arise; those that concern the
table or the use of a parser are only returned.
-/

namespace TableParser

/-- Why a shift/reduce table refuses a lookahead. -/
inductive ActionError
  | incorrectState
  | incorrectSymbol
deriving DecidableEq, Repr

/-- What is told about a refused lookahead. -/
def ActionError.message : ActionError → String
  | .incorrectState => "incorrect state"
  | .incorrectSymbol => "incorrect symbol"

/-- Why a parse fails, `ε` being the errors of the token source. -/
inductive ParseError (ε : Type)
  /-- The source failed. -/
  | source (e : ε)
  /-- The token stands for no terminal. -/
  | invalidToken (text : String) (position : Position)
  /-- The token cannot come here. -/
  | unexpectedToken (text : String) (position : Position)
  /-- The input goes on behind a complete sentence. -/
  | invalidSyntax (position : Position)
  /-- The table has no state to go to. -/
  | table (cause : ActionError)
  /-- The table wants to consume the end of the input. -/
  | unexpectedEnd
  /-- The parser has accepted before. -/
  | alreadyAccepted
  /-- No state is left. -/
  | emptyNodeStack
  /-- Fewer items are left than the table wants to take. -/
  | emptyItemStack
deriving DecidableEq, Repr

namespace ParseError

variable {ε : Type}

/-- What is told about an error, given the texts of the errors of the source. -/
def message (describe : ε → String) : ParseError ε → String
  | .source e => s!"failed to read token: {describe e}"
  | .invalidToken text position => s!"invalid token {text} at {position.render}"
  | .unexpectedToken text position => s!"unexpected token {text} at {position.render}"
  | .invalidSyntax position => s!"invalid syntax at {position.render}"
  | .table cause => s!"from parser definition: {cause.message}"
  | .unexpectedEnd => "unexpected EOI"
  | .alreadyAccepted => "already accepted"
  | .emptyNodeStack => "empty node stack"
  | .emptyItemStack => "empty item stack"

/-- Whether the error concerns the input and is therefore reported. -/
def isReported : ParseError ε → Bool
  | .source _ | .invalidToken _ _ | .unexpectedToken _ _ | .invalidSyntax _ => true
  | _ => false

/-- The report on an error. -/
def events (describe : ε → String) (e : ParseError ε) : List Event :=
  if e.isReported then [.note .error (e.message describe)] else []

end ParseError

/-- The report on a failure; faults leave none. -/
def Failure.events {ε : Type} (describe : ε → String) : Failure (ParseError ε) → List Event
  | .error e => e.events describe
  | .fault _ => []

end TableParser
