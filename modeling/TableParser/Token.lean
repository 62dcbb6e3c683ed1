import TableParser.FixedWidth

/-!
# Tokens

What scanners produce and parsers consume: a token has a lexical class, a text and a position in the source. A token
source is pulled for one token at a time and keeps answering with an end-of-file token once its input is used up.

* **In-memory sources** (`TokenList`) place the end of the input right after the last token, which is a fault if the
  columns do not suffice.
-/

namespace TableParser

/-- The lexical class of a token. -/
inductive TokenKind
  | identifier
  | number
  | string
  | newline
  | sign
  | positive
  | negative
  | endOfFile
  | error
deriving DecidableEq, Repr

/-- A place in the source text; lines and columns count from one. -/
structure Position where
  line : UInt32
  column : UInt32
deriving DecidableEq, Repr

namespace Position

/-- The first place of every text. -/
def first : Position := ⟨1, 1⟩

/-- Line and column, with a colon between them. -/
def render (p : Position) : String := s!"{p.line}:{p.column}"

end Position

/-- A scanned piece of the source text. -/
structure Token where
  kind : TokenKind
  text : String
  position : Position
deriving DecidableEq, Repr

namespace Token

/-- The token that stands for the end of the input at the given place. -/
def endOfFile (p : Position) : Token := ⟨.endOfFile, "", p⟩

/-- Whether the token stands for the end of the input. -/
def isEndOfFile (t : Token) : Bool := t.kind == .endOfFile

/-- The token as messages and trees show it. -/
def render (t : Token) : String :=
  match t.kind with
  | .endOfFile => "<eof>"
  | .newline => "<newline>"
  | _ => t.text

end Token

/-! ## Token sources -/

/-- A supply of tokens, pulled one at a time; a pull may fail and leaves a source for the next pull either way. -/
class TokenSource (σ : Type) (ε : outParam Type) where
  next : σ → Except (Failure ε) Token × σ

/-- Tokens held in memory. -/
structure TokenList where
  rest : List Token
  /-- Where the end of the input is reported once no token is left. -/
  last : Position
deriving DecidableEq, Repr

namespace TokenList

/-- A source for the given tokens. -/
def ofList (tokens : List Token) : TokenList := ⟨tokens, .first⟩

/-- The place right after a token; an empty text counts as one column. -/
def after (t : Token) : Except Fault Position :=
  (sum32 t.position.column (max t.text.length 1).toUInt32).map fun column => ⟨t.position.line, column⟩

/-- Hand out the next token, or the end of the input. A token that no place comes after is used up all the same. -/
def next (source : TokenList) : Except (Failure Empty) Token × TokenList :=
  match source.rest with
  | [] => (.ok (.endOfFile source.last), source)
  | t :: rest =>
    match after t with
    | .ok last => (.ok t, ⟨rest, last⟩)
    | .error f => (.error (.fault f), ⟨rest, source.last⟩)

instance : TokenSource TokenList Empty where
  next := next

end TokenList
end TableParser
