import TableParser.Text.Split

/-!
# Blank characters

The characters with the Unicode property `White_Space`, and the operations on text that go by them.
-/

namespace TableParser.Text

/-- The ranges of blank characters, first and last of each. -/
def blankRanges : List (Nat × Nat) :=
  [(0x09, 0x0D), (0x20, 0x20), (0x85, 0x85), (0xA0, 0xA0), (0x1680, 0x1680), (0x2000, 0x200A), (0x2028, 0x2029),
    (0x202F, 0x202F), (0x205F, 0x205F), (0x3000, 0x3000)]

/-- Whether the character is blank. -/
def isBlank (c : Char) : Bool := blankRanges.any fun (first, last) => first ≤ c.toNat && c.toNat ≤ last

/-- Drop the blanks at the front. -/
def trimLeft (text : List Char) : List Char := text.dropWhile isBlank

/-- Drop the blanks at both ends. -/
def trim (text : List Char) : List Char := (trimLeft (trimLeft text).reverse).reverse

/-- The longest blank-free stretches of a text. -/
def words (text : List Char) : List (List Char) := (splitOn isBlank text).filter (! ·.isEmpty)

/-- Every character that core counts as blank is blank. -/
theorem isBlank_of_isWhitespace {c : Char} (h : c.isWhitespace = true) : isBlank c = true := by
  simp only [Char.isWhitespace, Bool.or_eq_true, decide_eq_true_eq] at h
  rcases h with ((rfl | rfl) | rfl) | rfl <;> decide

end TableParser.Text
