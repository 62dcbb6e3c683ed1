import TableParser.Token

/-!
# The source scanner

Source text is split into identifiers, numbers, strings, line breaks and signs; blanks and comments, which run from `#`
to the end of the line, are left out.

* **Lexemes** (`Scanner.lexeme`): the longest one at the front of the text. A string that is not closed on its line is
  one unrecognized stretch up to the line break, any other character that begins no lexeme is one by itself.
* **Positions** (`Scanner.position`) count lines and characters from one, in thirty-two bits; a failed pull leaves the
  scanner behind the unrecognized stretch.
-/

namespace TableParser

/-- A stretch of text that is no token. -/
structure ScanError where
  text : String
  position : Position
deriving DecidableEq, Repr

/-- What is told about a stretch of text that is no token. -/
def ScanError.message (e : ScanError) : String := s!"unrecognized input `{e.text}' at {e.position.render}"

/-- The text to come, the line it begins on, and the number of characters of that line before it. -/
structure Scanner where
  rest : List Char
  line : UInt32
  column : Nat
deriving DecidableEq, Repr

namespace Scanner

/-- A scanner at the beginning of a text. -/
def ofText (text : List Char) : Scanner := ⟨text, 1, 0⟩

/-- Where the text to come begins. -/
def position (s : Scanner) : Except Fault Position :=
  (sum32 s.column.toUInt32 1).map fun column => ⟨s.line, column⟩

/-! ## Character classes -/

/-- Whether the character may stand between tokens. -/
def isBlank (c : Char) : Bool := c == ' ' || c == '\t' || c == '\r' || c == '\x0c'

/-- Whether an identifier may begin with the character. -/
def isNameStart (c : Char) : Bool := c.isAlpha || c == '_' || c == '$'

/-- Whether an identifier may go on with the character. -/
def isNamePart (c : Char) : Bool := c.isAlphanum || c == '_' || c == '$'

/-- The characters that are signs by themselves. -/
def signs : List Char := "!%&'()*+,-./:;<=>?@[\\]^`\x7b|\x7d~".toList

/-- Whether two characters make one sign. -/
def isDoubleSign (c d : Char) : Bool := d == '=' && (c == '=' || c == '<' || c == '>')

/-! ## Lexemes -/

/-- A stretch of text, with its class if it is a token. -/
structure Lexeme where
  kind : Option TokenKind
  slice : List Char
deriving DecidableEq, Repr

/-- The lexeme that begins with a quote, which closes on its line or is unrecognized. -/
def quoted (rest : List Char) : Lexeme :=
  let body := rest.takeWhile fun c => c != '"' && c != '\n'
  match rest.drop body.length with
  | '"' :: _ => ⟨some .string, '"' :: body ++ ['"']⟩
  | _ => ⟨none, '"' :: body⟩

/-- The lexeme that begins with a character other than a quote. -/
def unquoted (c : Char) (rest : List Char) : Lexeme :=
  if isNameStart c then ⟨some .identifier, c :: rest.takeWhile isNamePart⟩
  else if c.isDigit then ⟨some .number, c :: rest.takeWhile Char.isDigit⟩
  else if c == '\n' then ⟨some .newline, [c]⟩
  else
    match rest with
    | d :: _ => if isDoubleSign c d then ⟨some .sign, [c, d]⟩ else single c
    | [] => single c
where
  /-- The lexeme of a single character. -/
  single (c : Char) : Lexeme := if signs.contains c then ⟨some .sign, [c]⟩ else ⟨none, [c]⟩

/-- The lexeme at the front of a text that begins with the given character. -/
def lexeme (c : Char) (rest : List Char) : Lexeme := if c == '"' then quoted rest else unquoted c rest

namespace Lexeme

/-- The text of the token: a string goes without its quotes. -/
def text (l : Lexeme) : String :=
  String.ofList (if l.kind = some .string then l.slice.tail.dropLast else l.slice)

end Lexeme

/-! ## Pulling tokens -/

/-- Drop blanks and comments, counting columns on; the flag tells whether the text begins inside a comment. -/
def dropBlanks : Bool → Nat → List Char → Nat × List Char
  | _, column, [] => (column, [])
  | true, column, c :: rest => if c == '\n' then (column, c :: rest) else dropBlanks true (column + 1) rest
  | false, column, c :: rest =>
    if isBlank c then dropBlanks false (column + 1) rest
    else if c == '#' then dropBlanks true (column + 1) rest
    else (column, c :: rest)

/-- The scanner in front of the next lexeme. -/
def skip (s : Scanner) : Scanner :=
  let (column, rest) := dropBlanks false s.column s.rest
  { s with rest := rest, column := column }

/-- The scanner behind a lexeme at its front, on the same line. -/
def behind (s : Scanner) (l : Lexeme) : Scanner :=
  ⟨s.rest.drop l.slice.length, s.line, s.column + l.slice.length⟩

/-- The scanner at the beginning of the next line, behind the line break at its front. -/
def behindBreak (s : Scanner) (l : Lexeme) : Except Fault Scanner :=
  (sum32 s.line 1).map fun line => ⟨s.rest.drop l.slice.length, line, 0⟩

/-- Take the lexeme at the front. -/
def take (s : Scanner) (l : Lexeme) : Except (Failure ScanError) Token × Scanner :=
  match s.position, l.kind with
  | .error f, _ => (.error (.fault f), s.behind l)
  | .ok position, none => (.error (.error ⟨l.text, position⟩), s.behind l)
  | .ok position, some .newline =>
    match s.behindBreak l with
    | .error f => (.error (.fault f), s.behind l)
    | .ok next => (.ok ⟨.newline, l.text, position⟩, next)
  | .ok position, some kind => (.ok ⟨kind, l.text, position⟩, s.behind l)

/-- The end of the input at the front. -/
def finish (s : Scanner) : Except (Failure ScanError) Token :=
  match s.position with
  | .error f => .error (.fault f)
  | .ok position => .ok (.endOfFile position)

/-- Pull the next token. -/
def next (s : Scanner) : Except (Failure ScanError) Token × Scanner :=
  let s := s.skip
  match s.rest with
  | [] => (s.finish, s)
  | c :: rest => s.take (lexeme c rest)

instance : TokenSource Scanner ScanError where
  next := next

end Scanner
end TableParser
