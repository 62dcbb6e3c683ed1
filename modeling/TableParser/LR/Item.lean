import TableParser.Analysis.First

/-!
# Items and item sets

An item is an alternative with a dot that marks how much of it has been recognized. Item sets list their items in
ascending order, by alternative and then by dot, each once.

* **An empty alternative** is complete as soon as it is predicted (`Item.isComplete`).
* **Sets stay in order** (`ItemSet.insert`), so that equal sets are equal lists.
-/

namespace TableParser.LR

/-- An alternative with a dot. -/
structure Item where
  alternative : AlternativeId
  dot : UInt16
deriving DecidableEq, Repr

namespace Item

/-- The place of an item in the order by alternative and dot. -/
def rank (i : Item) : Nat := i.alternative.toRaw * wordLimit + i.dot.toNat

/-- The place of an item in the order by dot and alternative. -/
def dotRank (i : Item) : Nat := i.dot.toNat * (wordLimit * wordLimit) + i.alternative.toRaw

/-- The item with its dot one symbol further, if there is a number for the place. -/
def advance (i : Item) : Except Fault Item := (sum16 i.dot 1).map fun dot => ⟨i.alternative, dot⟩

/-- The symbol right after the dot of an alternative. -/
def nextIn (i : Item) (a : Alternative) : Option Symbol := a.symbols[i.dot.toNat]?

/-- The symbol right after the dot. -/
def next (i : Item) (g : Grammar) : Except Fault (Option Symbol) :=
  (g.target i.alternative).map fun (_, a) => i.nextIn a

/-- Whether an alternative with this dot has been recognized as a whole. -/
def isCompleteIn (i : Item) (a : Alternative) : Bool := a.isEpsilon || a.symbols.length ≤ i.dot.toNat

/-- Whether the whole alternative has been recognized. -/
def isComplete (i : Item) (g : Grammar) : Except Fault Bool :=
  (g.target i.alternative).map fun (_, a) => i.isCompleteIn a

/-- The symbols of an alternative with the dot among them. -/
def dotted (symbols : List Symbol) (dot : Nat) : List String :=
  (symbols.take dot).map Symbol.name ++ "." :: (symbols.drop dot).map Symbol.name

/-- The left-hand side, and the symbols with the dot among them. -/
def render (i : Item) (g : Grammar) : Except Fault String :=
  (g.target i.alternative).map fun (r, a) =>
    s!"{r.lhs.name} -> [ " ++ " ".intercalate (dotted a.symbols i.dot.toNat) ++ " ]"

end Item

/-- A set of items, in ascending order. -/
abbrev ItemSet : Type := List Item

namespace ItemSet

/-- Add an item in its place unless it is there already. -/
def insert (item : Item) : ItemSet → ItemSet
  | [] => [item]
  | other :: rest =>
    if item.rank < other.rank then item :: other :: rest
    else if item = other then other :: rest
    else other :: insert item rest

/-- Add several items, from right to left: items in ascending order never pass each other. -/
def insertAll (set : ItemSet) (items : List Item) : ItemSet := items.foldr insert set

/-- The set of several items. -/
def ofList (items : List Item) : ItemSet := insertAll [] items

theorem mem_insert {i j : Item} {set : ItemSet} : j ∈ insert i set ↔ j = i ∨ j ∈ set := by
  induction set with
  | nil => simp [insert]
  | cons other rest ih =>
    unfold insert
    split
    · simp
    · split
      · rename_i h
        subst h
        simp
      · simp only [List.mem_cons, ih]
        exact or_left_comm

theorem mem_insertAll {set : ItemSet} {items : List Item} {j : Item} :
    j ∈ insertAll set items ↔ j ∈ set ∨ j ∈ items := by
  induction items with
  | nil => simp [insertAll]
  | cons i items ih => rw [insertAll, List.foldr_cons, ← insertAll, mem_insert, ih, List.mem_cons, or_left_comm]

theorem mem_ofList {items : List Item} {j : Item} : j ∈ ofList items ↔ j ∈ items := by
  simp [ofList, mem_insertAll]

end ItemSet

end TableParser.LR
