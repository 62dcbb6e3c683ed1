import TableParser.Parse.Error
import TableParser.Parse.Run
import TableParser.Parse.Tree

/-!
# The predictive driver

A stack holds the symbols that the rest of the input has to be made of. A terminal on top consumes the token that it
matches, a nonterminal is replaced by the right-hand side that the table predicts for the lookahead. Line breaks that
are of no use are skipped. The parse succeeds when the stack gets empty right at the end of the input.

* **One step** (`PredictiveTable.step`), **the whole parse** (`PredictiveTable.parse`).
-/

namespace TableParser

/-- A predictive table with symbols `S` and names `P` for its productions. -/
structure PredictiveTable (S P : Type) where
  /-- The symbol that the input has to be derived from. -/
  start : Except Fault S
  isTerminal : S → Bool
  /-- Whether the symbol stands for the empty string. -/
  isEpsilon : S → Bool
  /-- Whether a terminal matches a token. -/
  accepts : S → Token → Except Fault Bool
  /-- The terminal that a token stands for. -/
  terminal : Token → Option S
  /-- The production for a nonterminal on a lookahead, with its right-hand side. -/
  predict : S → S → Except Fault (Option (P × List S))

/-- The configuration of the driver. -/
structure PredictiveState (S σ : Type) where
  tree : Tree S
  /-- The symbols to come, each with its node, the next one first. -/
  stack : List (S × Nat)
  token : Token
  source : σ

namespace PredictiveTable

variable {S P σ ε : Type}

/-- A step goes on or gives the result of the parse. -/
abbrev Step (S σ ε : Type) : Type := PredictiveState S σ ⊕ Except (Failure (ParseError ε)) (Tree S)

/-- End the parse with an error. -/
def fail (e : ParseError ε) : Step S σ ε := .inr (.error (.error e))

/-- Go on with the next token of the source. -/
def advance [TokenSource σ ε] (c : PredictiveState S σ) : Step S σ ε :=
  match TokenSource.next c.source with
  | (.error failure, _) => .inr (.error (failure.map .source))
  | (.ok token, source) => .inl { c with token := token, source := source }

/-- Consume the token for the terminal on top; the empty derivation consumes nothing. -/
def consume [TokenSource σ ε] (table : PredictiveTable S P) (c : PredictiveState S σ) (top : S) (node : Nat)
    (rest : List (S × Nat)) : Step S σ ε :=
  if table.isEpsilon top then .inl { c with stack := rest }
  else advance { c with tree := c.tree.setToken node c.token, stack := rest }

/-- Replace the nonterminal on top by a right-hand side. -/
def expand (c : PredictiveState S σ) (node : Nat) (rest : List (S × Nat)) (rhs : List S) : PredictiveState S σ :=
  let ids := List.range' c.tree.size rhs.length
  { c with tree := (c.tree.addNodes rhs).setChildren node ids, stack := rhs.zip ids ++ rest }

/-- The token is of no use: a line break is skipped, anything else is an error. -/
def refuse [TokenSource σ ε] (c : PredictiveState S σ) : Step S σ ε :=
  if c.token.kind = .newline then advance c else fail (.unexpectedToken c.token.render c.token.position)

/-- One step of the driver. -/
def step [TokenSource σ ε] (table : PredictiveTable S P) (c : PredictiveState S σ) : Step S σ ε :=
  match c.stack with
  | [] => if c.token.isEndOfFile then .inr (.ok c.tree) else fail (.invalidSyntax c.token.position)
  | (top, node) :: rest =>
    if table.isTerminal top then
      match table.accepts top c.token with
      | .error f => .inr (.error (.fault f))
      | .ok true => table.consume c top node rest
      | .ok false => refuse c
    else
      match table.terminal c.token with
      | none => fail (.invalidToken c.token.text c.token.position)
      | some lookahead =>
        match table.predict top lookahead with
        | .error f => .inr (.error (.fault f))
        | .ok (some (_, rhs)) => .inl (expand c node rest rhs)
        | .ok none => refuse c

/-- Parse the tokens of a source. -/
def parse [TokenSource σ ε] (table : PredictiveTable S P) (fuel : Nat) (source : σ) :
    Option (Except (Failure (ParseError ε)) (Tree S)) :=
  match table.start with
  | .error f => some (.error (.fault f))
  | .ok start =>
    match TokenSource.next source with
    | (.error failure, _) => some (.error (failure.map .source))
    | (.ok token, source) => run table.step fuel ⟨(Tree.empty.addNode start).setRoot 0, [(start, 0)], token, source⟩

end PredictiveTable
end TableParser
