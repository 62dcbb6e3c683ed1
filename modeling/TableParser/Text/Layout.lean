/-!
# Text layout

The shapes shared by all dumps: columns of a fixed width, and headings over the sections.
-/

namespace TableParser.Text

/-- Fill up with spaces on the right; a text that is wide enough stays as it is. -/
def padRight (width : Nat) (text : String) : String :=
  text ++ String.ofList (List.replicate (width - text.length) ' ')

/-- The line over a section. -/
def heading (title : String) : String := s!"== {title} ==\n"

/-- The width of the column that holds a left-hand side. -/
def nameWidth : Nat := 22

/-- The width of the column that holds a table slot. -/
def slotWidth : Nat := 28

end TableParser.Text
