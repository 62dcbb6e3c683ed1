import TableParser.Parse.Error
import TableParser.Parse.Run
import TableParser.Parse.Tree

/-!
# The shift/reduce driver

A machine with a stack of states and a stack of items is driven by a table. It reads tokens until the table asks for
a reduction or accepts; after a reduction the table is asked where to go on the new nonterminal. Line breaks that the
table has no use for are skipped.

* **One step** (`Machine.step`), **one event** (`Machine.nextEvent`), **the whole parse** (`ActionTable.parse`), which
  builds a tree from the reductions.
-/

namespace TableParser

/-- What a table wants to be done. -/
inductive Action (St S R : Type)
  /-- Consume the lookahead and go to a state. -/
  | shift (target : St)
  /-- Replace the last items by a nonterminal. -/
  | reduce (id : R) (lhs : S) (arity : Nat)
  /-- The input is a sentence. -/
  | accept
  /-- There is nothing to be done. -/
  | error (cause : ActionError)
deriving DecidableEq, Repr

/-- A shift/reduce table with states `St`, symbols `S` and names `R` for its reductions. -/
structure ActionTable (St S R : Type) where
  initial : St
  /-- The terminal that a token stands for. -/
  terminal : Token → Option S
  /-- What to do in a state on a lookahead; no lookahead is the end of the input. -/
  action : St → Option S → Except Fault (Action St S R)

/-- An item on the stack. -/
inductive StackItem (S : Type)
  | terminal (s : S) (token : Token)
  | nonterminal (s : S)
deriving DecidableEq, Repr

namespace StackItem

variable {S : Type}

/-- The symbol of an item. -/
def symbol : StackItem S → S
  | .terminal s _ => s
  | .nonterminal s => s

/-- Whether the item is a nonterminal. -/
def isNonterminal : StackItem S → Bool
  | .terminal _ _ => false
  | .nonterminal _ => true

end StackItem

/-- What the machine does next. -/
inductive Mode
  /-- Look at the next token. -/
  | reading
  /-- Find the state behind the nonterminal on top. -/
  | pendingGoto
  /-- Nothing: the input was accepted. -/
  | accepted
deriving DecidableEq, Repr

/-- The configuration of the driver; the top of a stack is the head of its list. -/
structure Machine (St S : Type) where
  states : List St
  items : List (StackItem S)
  mode : Mode
  /-- The token that was read and not consumed yet. -/
  peeked : Option Token
  /-- The items that the last event took from the stack, from left to right. -/
  args : List (StackItem S)
deriving DecidableEq, Repr

/-- What a driver tells its caller. -/
inductive ParseEvent (S R : Type)
  | reduce (id : R) (lhs : S)
  | accept
deriving DecidableEq, Repr

/-- How a pull for an event ends. -/
inductive Pulled (S R ε : Type)
  | event (e : ParseEvent S R)
  | failed (failure : Failure (ParseError ε))
deriving DecidableEq, Repr

namespace Machine

variable {St S R σ ε : Type}

/-- The machine before the first token. -/
def start (initial : St) : Machine St S := ⟨[initial], [], .reading, none, []⟩

/-- A step goes on with a machine and a source, or ends the pull with them. -/
abbrev Step (St S R σ ε : Type) : Type := (Machine St S × σ) ⊕ (Pulled S R ε × Machine St S × σ)

/-- End the pull with an error. -/
def fail (m : Machine St S) (source : σ) (e : ParseError ε) : Step St S R σ ε := .inr (.failed (.error e), m, source)

/-- Enter a state. In reading mode the lookahead goes onto the stack, which needs a token that stands for a symbol. -/
def shift (m : Machine St S) (source : σ) (target : St) (lookahead : Option S) : Step St S R σ ε :=
  match m.mode with
  | .pendingGoto => .inl ({ m with states := target :: m.states, mode := .reading }, source)
  | _ =>
    match m.peeked, lookahead with
    | some token, some s =>
      .inl ({ m with
        states := target :: m.states, items := .terminal s token :: m.items, mode := .reading,
        peeked := none }, source)
    | _, _ => fail { m with peeked := none } source .unexpectedEnd

/-- Take the last items from the stack and put a nonterminal in their place. -/
def reduce (m : Machine St S) (source : σ) (id : R) (lhs : S) (arity : Nat) : Step St S R σ ε :=
  if m.states.length < arity || m.items.length < arity then fail m source .emptyItemStack
  else
    .inr (.event (.reduce id lhs),
      { m with
        states := m.states.drop arity
        items := .nonterminal lhs :: m.items.drop arity
        mode := .pendingGoto
        args := (m.items.take arity).reverse },
      source)

/-- Take the last item and stop. -/
def accept (m : Machine St S) (source : σ) : Step St S R σ ε :=
  match m.items with
  | [] => fail m source .emptyItemStack
  | item :: items => .inr (.event .accept, { m with items := items, mode := .accepted, args := [item] }, source)

/-- The table refuses the lookahead: a line break is skipped, anything else is an error. -/
def refuse (m : Machine St S) (source : σ) (cause : ActionError) : Step St S R σ ε :=
  match m.mode, m.peeked with
  | .pendingGoto, _ => fail m source (.table cause)
  | _, none => fail m source .unexpectedEnd
  | _, some token =>
    if token.kind = .newline then .inl ({ m with peeked := none }, source)
    else fail m source (.unexpectedToken token.render token.position)

/-- Do what the table wants on a lookahead. -/
def act (table : ActionTable St S R) (m : Machine St S) (source : σ) (current : St) (lookahead : Option S) :
    Step St S R σ ε :=
  match table.action current lookahead with
  | .error f => .inr (.failed (.fault f), m, source)
  | .ok (.shift target) => m.shift source target lookahead
  | .ok (.reduce id lhs arity) => m.reduce source id lhs arity
  | .ok .accept => m.accept source
  | .ok (.error cause) => m.refuse source cause

/-- Look at a token in the current state. -/
def look (table : ActionTable St S R) (m : Machine St S) (source : σ) (current : St) (token : Token) :
    Step St S R σ ε :=
  if token.isEndOfFile then m.act table source current none
  else
    match table.terminal token with
    | some s => m.act table source current (some s)
    | none =>
      if token.kind = .newline then .inl ({ m with peeked := none }, source)
      else fail m source (.invalidToken token.text token.position)

/-- One step of the machine. -/
def step [TokenSource σ ε] (table : ActionTable St S R) (c : Machine St S × σ) : Step St S R σ ε :=
  let (m, source) := c
  match m.mode, m.states with
  | .accepted, _ => fail m source .alreadyAccepted
  | _, [] => fail m source .emptyNodeStack
  | .pendingGoto, current :: _ =>
    match m.items with
    | [] => fail m source .emptyItemStack
    | item :: _ => m.act table source current (some item.symbol)
  | .reading, current :: _ =>
    match m.peeked with
    | some token => m.look table source current token
    | none =>
      match TokenSource.next source with
      | (.error failure, source) => .inr (.failed (failure.map .source), m, source)
      | (.ok token, source) => { m with peeked := some token }.look table source current token

/-- Run the machine up to the next event or error. -/
def nextEvent [TokenSource σ ε] (table : ActionTable St S R) (fuel : Nat) (m : Machine St S) (source : σ) :
    Option (Pulled S R ε × Machine St S × σ) :=
  run (step table) fuel (m, source)

end Machine

/-! ## Building the tree -/

/-- The tree so far and the roots of the finished subtrees, the last one first. -/
structure TreeBuild (S : Type) where
  tree : Tree S
  completed : List Nat
deriving DecidableEq, Repr

namespace TreeBuild

variable {S : Type}

/-- Nothing is built yet. -/
def empty : TreeBuild S := ⟨.empty, []⟩

/-- Add the children for the items of a reduction, given the roots of its nonterminals from left to right. -/
def children (t : Tree S) : List (StackItem S) → List Nat → Tree S × List Nat
  | [], _ => (t, [])
  | .terminal s token :: items, roots =>
    let (result, ids) := children (t.addLeaf s token) items roots
    (result, t.size :: ids)
  | .nonterminal _ :: items, [] => children t items []
  | .nonterminal _ :: items, root :: roots =>
    let (result, ids) := children t items roots
    (result, root :: ids)

/-- Build the node of a reduction, or nothing if it lacks subtrees. -/
def reduce? (b : TreeBuild S) (lhs : S) (args : List (StackItem S)) : Option (TreeBuild S) :=
  let count := args.countP StackItem.isNonterminal
  if b.completed.length < count then none
  else
    let (tree, ids) := children b.tree args (b.completed.take count).reverse
    some ⟨tree.addInner lhs ids, tree.size :: b.completed.drop count⟩

/-- The tree whose root is the last finished subtree. -/
def finish? (b : TreeBuild S) : Option (Tree S) :=
  match b.completed with
  | [] => none
  | root :: _ => some (b.tree.setRoot root)

end TreeBuild

namespace ActionTable

variable {St S R σ ε : Type}

/-- What becomes of the tree when a pull ends. -/
def build (b : TreeBuild S) (pulled : Pulled S R ε) (m : Machine St S) (source : σ) :
    ((Machine St S × σ) × TreeBuild S) ⊕ Except (Failure (ParseError ε)) (Tree S) :=
  match pulled with
  | .failed failure => .inr (.error failure)
  | .event (.reduce _ lhs) =>
    match b.reduce? lhs m.args with
    | none => .inr (.error (.error .emptyItemStack))
    | some b => .inl ((m, source), b)
  | .event .accept =>
    match b.finish? with
    | none => .inr (.error (.error .emptyItemStack))
    | some tree => .inr (.ok tree)

/-- One step of a parse. -/
def parseStep [TokenSource σ ε] (table : ActionTable St S R) (c : (Machine St S × σ) × TreeBuild S) :
    ((Machine St S × σ) × TreeBuild S) ⊕ Except (Failure (ParseError ε)) (Tree S) :=
  match Machine.step table c.1 with
  | .inl next => .inl (next, c.2)
  | .inr (pulled, m, source) => build c.2 pulled m source

/-- Parse the tokens of a source. -/
def parse [TokenSource σ ε] (table : ActionTable St S R) (fuel : Nat) (source : σ) :
    Option (Except (Failure (ParseError ε)) (Tree S)) :=
  run table.parseStep fuel ((.start table.initial, source), .empty)

end ActionTable
end TableParser
