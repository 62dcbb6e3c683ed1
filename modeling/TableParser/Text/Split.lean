/-!
# Splitting text

Text is cut at separator characters, which are dropped. Lines are cut at line feeds; a carriage return right before a
line feed belongs to the line end.
-/

namespace TableParser.Text

/-- Cut at every separator; `n` separators give `n + 1` pieces. -/
def splitOn (isSeparator : Char → Bool) : List Char → List (List Char)
  | [] => [[]]
  | c :: cs =>
    match splitOn isSeparator cs with
    | [] => [[c]]
    | piece :: pieces => if isSeparator c then [] :: piece :: pieces else (c :: piece) :: pieces

/-- Drop a final carriage return. -/
def dropReturn (line : List Char) : List Char := if line.getLast? = some '\r' then line.dropLast else line

/-- The lines of a text, without their ends; a last line that is empty is no line. -/
def lines (text : List Char) : List (List Char) :=
  let pieces := splitOn (· == '\n') text
  pieces.dropLast.map dropReturn ++
    match pieces.getLast? with
    | none | some [] => []
    | some line => [line]

/-- Cutting loses nothing but the separators. -/
theorem flatten_splitOn (isSeparator : Char → Bool) (text : List Char) :
    (splitOn isSeparator text).flatten = text.filter (! isSeparator ·) := by
  induction text with
  | nil => rfl
  | cons c cs ih =>
    unfold splitOn
    cases h : splitOn isSeparator cs with
    | nil =>
      rw [h] at ih
      cases cs with
      | nil => simp [splitOn] at h
      | cons d ds =>
        unfold splitOn at h
        split at h
        · cases h
        · split at h <;> cases h
    | cons piece pieces =>
      rw [h] at ih
      cases hc : isSeparator c <;> simp [hc, ← ih]

end TableParser.Text
