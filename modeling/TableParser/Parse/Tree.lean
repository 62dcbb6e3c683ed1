import TableParser.Token

/-!
# Syntax trees

A tree is an arena of nodes that are known by their numbers, in the order in which they were added. A node carries a
symbol, the token it was matched with if it is a terminal, and its children.

* **Leaves** (`Tree.leaves`) are the tokens from left to right, **`Tree.render`** shows a node a line.
-/

namespace TableParser

/-- A node of a syntax tree over symbols `S`. -/
structure TreeNode (S : Type) where
  symbol : S
  token : Option Token
  children : List Nat
deriving DecidableEq, Repr

/-- A syntax tree over symbols `S`. -/
structure Tree (S : Type) where
  nodes : Array (TreeNode S)
  root : Option Nat
deriving DecidableEq, Repr

namespace Tree

variable {S : Type}

/-- The tree without nodes. -/
def empty : Tree S := ⟨#[], none⟩

/-- The number of nodes, which is also the number of the next node. -/
def size (t : Tree S) : Nat := t.nodes.size

/-- Whether there is no node. -/
def isEmpty (t : Tree S) : Bool := t.nodes.isEmpty

/-- The node with a number. -/
def node? (t : Tree S) (id : Nat) : Option (TreeNode S) := t.nodes[id]?

/-- Add a node, which gets the next number. -/
def addNode (t : Tree S) (symbol : S) : Tree S := ⟨t.nodes.push ⟨symbol, none, []⟩, t.root⟩

/-- Add nodes for several symbols. -/
def addNodes (t : Tree S) (symbols : List S) : Tree S := symbols.foldl addNode t

/-- Attach a token to a node. -/
def setToken (t : Tree S) (id : Nat) (token : Token) : Tree S :=
  ⟨t.nodes.modify id fun n => { n with token := some token }, t.root⟩

/-- Give a node its children. -/
def setChildren (t : Tree S) (id : Nat) (children : List Nat) : Tree S :=
  ⟨t.nodes.modify id fun n => { n with children := children }, t.root⟩

/-- Make a node the root. -/
def setRoot (t : Tree S) (id : Nat) : Tree S := ⟨t.nodes, some id⟩

/-- Add a node with a token. -/
def addLeaf (t : Tree S) (symbol : S) (token : Token) : Tree S := ⟨t.nodes.push ⟨symbol, some token, []⟩, t.root⟩

/-- Add a node with children. -/
def addInner (t : Tree S) (symbol : S) (children : List Nat) : Tree S :=
  ⟨t.nodes.push ⟨symbol, none, children⟩, t.root⟩

/-- The tokens under a node, from left to right; the fuel bounds the depth. -/
def leavesFrom (t : Tree S) : Nat → Nat → List Token
  | 0, _ => []
  | fuel + 1, id =>
    match t.node? id with
    | none => []
    | some n => n.token.toList ++ n.children.flatMap (leavesFrom t fuel)

/-- The tokens of the tree, from left to right; no path is longer than the number of nodes. -/
def leaves (t : Tree S) : List Token :=
  match t.root with
  | none => []
  | some root => t.leavesFrom t.size root

/-- The lines for a node and everything under it, indented by its depth; the fuel bounds the depth. -/
def linesFrom (t : Tree S) (name : S → String) : Nat → Nat → Nat → List String
  | 0, _, _ => []
  | fuel + 1, depth, id =>
    match t.node? id with
    | none => []
    | some n =>
      let indent := String.ofList (List.replicate (2 * depth) ' ')
      let token := (n.token.map fun token => s!" '{token.render}'").getD ""
      (indent ++ name n.symbol ++ token ++ "\n") :: n.children.flatMap (linesFrom t name fuel (depth + 1))

/-- The tree as text: a node a line, children below their parent and further to the right. -/
def render (t : Tree S) (name : S → String) : String :=
  match t.root with
  | none => ""
  | some root => String.join (t.linesFrom name t.size 0 root)

end Tree
end TableParser
