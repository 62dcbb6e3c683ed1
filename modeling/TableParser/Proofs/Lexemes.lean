import TableParser.Scanner

/-!
# Lexemes are longest matches

The scanner finds a lexeme by its first characters. What it finds is what the patterns of the tokens say
(`Scanner.read_lexeme`): the longest match of any pattern, and only where none matches a string without an end or a
single character.

* **Patterns** (`Scanner.Pattern`) say what the tokens of each class look like, character by character.
* **The first character decides** which patterns may match: a name (`Scanner.Pattern.length_le_of_isNameStart`), a
  number (`Scanner.Pattern.length_le_of_isDigit`), a string (`Scanner.Pattern.eq_of_quote`), or at most two characters
  (`Scanner.Pattern.eq_of_plain`).
-/

namespace TableParser

namespace Scanner

/-! ## Patterns -/

/-- A Latin letter. -/
def IsLetter (c : Char) : Prop := 'A' ≤ c ∧ c ≤ 'Z' ∨ 'a' ≤ c ∧ c ≤ 'z'

/-- A decimal digit. -/
def IsDigit (c : Char) : Prop := '0' ≤ c ∧ c ≤ '9'

/-- A character that may stand between tokens. -/
def IsSpace (c : Char) : Prop := c = ' ' ∨ c = '\t' ∨ c = '\r' ∨ c = '\x0c'

/-- What the tokens of each class look like. -/
inductive Pattern : TokenKind → List Char → Prop
  | identifier {c : Char} {w : List Char} (hc : IsLetter c ∨ c = '_' ∨ c = '$')
      (hw : ∀ d ∈ w, IsLetter d ∨ IsDigit d ∨ d = '_' ∨ d = '$') : Pattern .identifier (c :: w)
  | number {c : Char} {w : List Char} (hc : IsDigit c) (hw : ∀ d ∈ w, IsDigit d) : Pattern .number (c :: w)
  | string {body : List Char} (h : ∀ c ∈ body, c ≠ '"' ∧ c ≠ '\n') : Pattern .string ('"' :: (body ++ ['"']))
  | newline : Pattern .newline ['\n']
  | doubleSign {c : Char} (h : c = '=' ∨ c = '<' ∨ c = '>') : Pattern .sign [c, '=']
  | sign {c : Char} (h : c ∈ signs) : Pattern .sign [c]

/-- The text of a token: its slice, but without the quotes for a string. -/
def content : TokenKind → List Char → List Char
  | .string, slice => slice.tail.dropLast
  | _, slice => slice

/-- The slice matches a pattern, and no pattern matches more of the text that it is in front of. -/
structure LongestMatch (kind : TokenKind) (slice rest : List Char) : Prop where
  pattern : Pattern kind slice
  longest : ∀ kind' w, Pattern kind' w → w <+: slice ++ rest → w.length ≤ slice.length

/-- The end of a line or of the whole text. -/
def AtLineEnd (rest : List Char) : Prop := ∀ c ∈ rest.head?, c = '\n'

/-- No pattern matches the text in front. The slice is a string up to the end of the line that does not close it, or
else a single character that may not stand between tokens. -/
structure Unrecognized (slice rest : List Char) : Prop where
  noPattern : ∀ kind w, Pattern kind w → ¬w <+: slice ++ rest
  extent : (∃ body, slice = '"' :: body ∧ (∀ c ∈ body, c ≠ '"' ∧ c ≠ '\n') ∧ AtLineEnd rest) ∨
    ∃ c, slice = [c] ∧ c ≠ '"' ∧ c ≠ '#' ∧ ¬IsSpace c

/-! ### Classes of characters -/

section Classes

variable {c : Char}

theorem isDigit_iff : c.isDigit = true ↔ IsDigit c := by
  simp [Char.isDigit, IsDigit, Char.le_def]

theorem isAlpha_iff : c.isAlpha = true ↔ IsLetter c := by
  have halpha : c.isAlpha = (c.isUpper || c.isLower) := rfl
  have hupper : c.isUpper = true ↔ 'A' ≤ c ∧ c ≤ 'Z' := decide_eq_true_iff
  have hlower : c.isLower = (decide ('a' ≤ c) && decide (c ≤ 'z')) := rfl
  simp [halpha, hupper, hlower, IsLetter]

theorem isNameStart_iff : isNameStart c = true ↔ IsLetter c ∨ c = '_' ∨ c = '$' := by
  simp [isNameStart, isAlpha_iff, or_assoc]

theorem isNamePart_iff : isNamePart c = true ↔ IsLetter c ∨ IsDigit c ∨ c = '_' ∨ c = '$' := by
  have halphanum : c.isAlphanum = (c.isAlpha || c.isDigit) := rfl
  simp [isNamePart, halphanum, isAlpha_iff, isDigit_iff, or_assoc]

theorem isBlank_iff : isBlank c = true ↔ IsSpace c := by
  simp [isBlank, IsSpace, or_assoc]

theorem isDoubleSign_iff {d : Char} : isDoubleSign c d = true ↔ (c = '=' ∨ c = '<' ∨ c = '>') ∧ d = '=' := by
  simp [isDoubleSign, or_assoc, and_comm]

/-- A digit does not begin an identifier. -/
theorem isNameStart_eq_false_of_isDigit (h : c.isDigit = true) : isNameStart c = false := by
  rw [Bool.eq_false_iff, Ne, isNameStart_iff]
  obtain ⟨hfirst, hlast⟩ := isDigit_iff.mp h
  rintro ((⟨hc, _⟩ | ⟨hc, _⟩) | rfl | rfl)
  · exact absurd (Char.le_trans hc hlast) (by decide)
  · exact absurd (Char.le_trans hc hlast) (by decide)
  · exact absurd hlast (by decide)
  · exact absurd hfirst (by decide)

/-- A sign is a sign and nothing else. -/
theorem plain_of_mem_signs (h : c ∈ signs) : isNameStart c = false ∧ c.isDigit = false ∧ c ≠ '"' ∧ c ≠ '\n' := by
  have hall : (signs.all fun c => !isNameStart c && !c.isDigit && c != '"' && c != '\n') = true := by decide
  simpa [and_assoc] using List.all_eq_true.mp hall c h

theorem mem_signs_of_double (h : c = '=' ∨ c = '<' ∨ c = '>') : c ∈ signs := by
  rcases h with rfl | rfl | rfl <;> decide

end Classes

/-! ### Lexemes are longest matches -/

/-- What a lexeme is in front of some text. -/
def Lexeme.Reads (l : Lexeme) (rest : List Char) : Prop :=
  match l.kind with
  | some kind => LongestMatch kind l.slice rest
  | none => Unrecognized l.slice rest

section Lexemes

variable {c : Char} {w slice rest : List Char} {kind : TokenKind} {p : Char → Bool} {l : Lexeme}

/-- A text begins with characters of one kind, up to one that is not. -/
theorem exists_span (p : Char → Bool) (text : List Char) : ∃ w rest, text = w ++ rest ∧ text.takeWhile p = w ∧
    (∀ d ∈ w, p d = true) ∧ ∀ d ∈ rest.head?, p d = false := by
  induction text with
  | nil => exact ⟨[], [], rfl, rfl, by simp, by simp⟩
  | cons c text ih =>
    cases hc : p c with
    | false => exact ⟨[], c :: text, rfl, by simp [hc], by simp, by simpa using hc⟩
    | true =>
      obtain ⟨w, rest, htext, htake, hw, hrest⟩ := ih
      exact ⟨c :: w, rest, by rw [htext, List.cons_append], by rw [List.takeWhile_cons_of_pos hc, htake],
        List.forall_mem_cons.mpr ⟨hc, hw⟩, hrest⟩

theorem length_le_of_prefix (hw : ∀ d ∈ w, p d = true) (h : w <+: rest) : w.length ≤ (rest.takeWhile p).length := by
  obtain ⟨t, rfl⟩ := h
  rw [List.takeWhile_append_of_pos hw, List.length_append]
  omega

theorem Pattern.length_pos (h : Pattern kind w) : 0 < w.length := by
  cases h <;> simp

/-- Every match begins with the first character of the text. -/
theorem Pattern.exists_cons (h : Pattern kind w) (hw : w <+: c :: rest) : ∃ w', w = c :: w' ∧ w' <+: rest :=
  (List.prefix_cons_iff.mp hw).resolve_left (List.ne_nil_of_length_pos h.length_pos)

/-- What matches at the beginning of a name. -/
theorem Pattern.length_le_of_isNameStart (h : Pattern kind (c :: w)) (hc : isNameStart c = true) (hw : w <+: rest) :
    w.length ≤ (rest.takeWhile isNamePart).length := by
  cases h with
  | identifier _ hparts => exact length_le_of_prefix (fun d hd => isNamePart_iff.mpr (hparts d hd)) hw
  | number hd _ =>
    rw [isNameStart_eq_false_of_isDigit (isDigit_iff.mpr hd)] at hc
    cases hc
  | string _ => exact absurd hc (by decide)
  | doubleSign hd =>
    rw [(plain_of_mem_signs (mem_signs_of_double hd)).1] at hc
    cases hc
  | newline => exact Nat.zero_le _
  | sign => exact Nat.zero_le _

/-- What matches at the beginning of a number. -/
theorem Pattern.length_le_of_isDigit (h : Pattern kind (c :: w)) (hc : c.isDigit = true) (hw : w <+: rest) :
    w.length ≤ (rest.takeWhile Char.isDigit).length := by
  cases h with
  | identifier hd _ =>
    rw [← isNameStart_iff, isNameStart_eq_false_of_isDigit hc] at hd
    cases hd
  | number _ hdigits => exact length_le_of_prefix (fun d hd => isDigit_iff.mpr (hdigits d hd)) hw
  | string _ => exact absurd hc (by decide)
  | doubleSign hd =>
    rw [(plain_of_mem_signs (mem_signs_of_double hd)).2.1] at hc
    cases hc
  | newline => exact Nat.zero_le _
  | sign => exact Nat.zero_le _

/-- What matches at a quote. -/
theorem Pattern.eq_of_quote (h : Pattern kind ('"' :: w)) :
    ∃ body, w = body ++ ['"'] ∧ ∀ d ∈ body, d ≠ '"' ∧ d ≠ '\n' := by
  cases h with
  | identifier hd _ => exact absurd (isNameStart_iff.mpr hd) (by decide)
  | number hd _ => exact absurd (isDigit_iff.mpr hd) (by decide)
  | string hbody => exact ⟨_, rfl, hbody⟩
  | doubleSign hd => exact absurd rfl (plain_of_mem_signs (mem_signs_of_double hd)).2.2.1
  | sign hd => exact absurd rfl (plain_of_mem_signs hd).2.2.1

/-- What matches at any other character: itself, or two signs. -/
theorem Pattern.eq_of_plain (h : Pattern kind (c :: w)) (hname : isNameStart c = false) (hdigit : c.isDigit = false)
    (hquote : c ≠ '"') : w = [] ∧ (c = '\n' ∨ c ∈ signs) ∨ w = ['='] ∧ (c = '=' ∨ c = '<' ∨ c = '>') := by
  cases h with
  | identifier hd _ =>
    rw [← isNameStart_iff, hname] at hd
    cases hd
  | number hd _ =>
    rw [← isDigit_iff, hdigit] at hd
    cases hd
  | string _ => exact absurd rfl hquote
  | newline => exact .inl ⟨rfl, .inl rfl⟩
  | doubleSign hd => exact .inr ⟨rfl, hd⟩
  | sign hd => exact .inl ⟨rfl, .inr hd⟩

/-- Where a string is closed does not depend on the pattern. -/
theorem takeWhile_of_closed {body : List Char} (hbody : ∀ d ∈ body, d ≠ '"' ∧ d ≠ '\n') (h : body ++ ['"'] <+: rest) :
    rest.takeWhile (fun c => c != '"' && c != '\n') = body := by
  obtain ⟨after, rfl⟩ := h
  have hplain : ∀ d ∈ body, (d != '"' && d != '\n') = true := fun d hd => by simpa using hbody d hd
  rw [List.append_assoc, List.takeWhile_append_of_pos hplain]
  simp

/-- No pattern matches a string that is not closed on its line. -/
theorem unrecognized_unclosed {body after : List Char} (hbody : ∀ d ∈ body, d ≠ '"' ∧ d ≠ '\n')
    (htake : (body ++ after).takeWhile (fun c => c != '"' && c != '\n') = body) (hafter : AtLineEnd after) :
    Unrecognized ('"' :: body) after where
  noPattern := by
    intro kind w h hw
    obtain ⟨w, rfl, hclosed⟩ := h.exists_cons hw
    obtain ⟨body', rfl, hbody'⟩ := h.eq_of_quote
    obtain rfl : body = body' := htake.symm.trans (takeWhile_of_closed hbody' hclosed)
    cases after with
    | nil => exact absurd hclosed.length_le (by simp)
    | cons d after =>
      obtain rfl : d = '\n' := hafter d rfl
      have hquote := (List.prefix_append_right_inj body).mp hclosed
      exact absurd (List.cons_prefix_cons.mp hquote).1 (by decide)
  extent := .inl ⟨body, rfl, hbody, hafter⟩

/-- A string that is closed on its line is all that a pattern matches. -/
theorem longestMatch_closed {body after : List Char} (hbody : ∀ d ∈ body, d ≠ '"' ∧ d ≠ '\n')
    (htake : (body ++ '"' :: after).takeWhile (fun c => c != '"' && c != '\n') = body) :
    LongestMatch .string ('"' :: (body ++ ['"'])) after where
  pattern := .string hbody
  longest := by
    intro kind w h hw
    rw [List.cons_append, List.append_assoc, List.singleton_append] at hw
    obtain ⟨w, rfl, hclosed⟩ := h.exists_cons hw
    obtain ⟨body', rfl, hbody'⟩ := h.eq_of_quote
    obtain rfl : body = body' := htake.symm.trans (takeWhile_of_closed hbody' hclosed)
    exact Nat.le_refl _

/-- A string is closed on its line, or it is not recognized. -/
theorem read_quoted (rest : List Char) :
    ∃ rest', '"' :: rest = (quoted rest).slice ++ rest' ∧ (quoted rest).Reads rest' := by
  obtain ⟨body, after, rfl, htake, hbody, hafter⟩ := exists_span (fun c => c != '"' && c != '\n') rest
  have hplain : ∀ d ∈ body, d ≠ '"' ∧ d ≠ '\n' := fun d hd => by simpa using hbody d hd
  unfold quoted
  simp only [htake, List.drop_left]
  cases after with
  | nil => exact ⟨[], rfl, unrecognized_unclosed hplain htake (by simp [AtLineEnd])⟩
  | cons d after =>
    have hd : d = '"' ∨ d = '\n' := Decidable.or_iff_not_imp_left.mpr (by simpa using hafter d rfl)
    rcases hd with rfl | rfl
    · exact ⟨after, by simp, longestMatch_closed hplain htake⟩
    · exact ⟨'\n' :: after, rfl, unrecognized_unclosed hplain htake (by simp [AtLineEnd])⟩

theorem longestMatch_identifier {after : List Char} (hc : isNameStart c = true) (hw : ∀ d ∈ w, isNamePart d = true)
    (htake : (w ++ after).takeWhile isNamePart = w) : LongestMatch .identifier (c :: w) after where
  pattern := .identifier (isNameStart_iff.mp hc) fun d hd => isNamePart_iff.mp (hw d hd)
  longest := by
    intro kind w' h hw'
    obtain ⟨w', rfl, hprefix⟩ := h.exists_cons hw'
    have hlength := h.length_le_of_isNameStart hc hprefix
    rw [List.append_eq, htake] at hlength
    exact Nat.succ_le_succ hlength

theorem longestMatch_number {after : List Char} (hc : c.isDigit = true) (hw : ∀ d ∈ w, d.isDigit = true)
    (htake : (w ++ after).takeWhile Char.isDigit = w) : LongestMatch .number (c :: w) after where
  pattern := .number (isDigit_iff.mp hc) fun d hd => isDigit_iff.mp (hw d hd)
  longest := by
    intro kind w' h hw'
    obtain ⟨w', rfl, hprefix⟩ := h.exists_cons hw'
    have hlength := h.length_le_of_isDigit hc hprefix
    rw [List.append_eq, htake] at hlength
    exact Nat.succ_le_succ hlength

/-- A single character is the longest match if it does not go on to be a double sign. -/
theorem longestMatch_single (h : Pattern kind [c]) (hname : isNameStart c = false) (hdigit : c.isDigit = false)
    (hquote : c ≠ '"') (hdouble : (c = '=' ∨ c = '<' ∨ c = '>') → rest.head? ≠ some '=') :
    LongestMatch kind [c] rest where
  pattern := h
  longest := by
    intro kind' w h' hw
    obtain ⟨w, rfl, hprefix⟩ := h'.exists_cons hw
    rcases h'.eq_of_plain hname hdigit hquote with ⟨rfl, _⟩ | ⟨rfl, hc⟩
    · exact Nat.le_refl _
    · obtain ⟨t, rfl⟩ := hprefix
      exact absurd rfl (hdouble hc)

/-- What a single character is that begins no longer lexeme. -/
theorem read_single (hname : isNameStart c = false) (hdigit : c.isDigit = false) (hquote : c ≠ '"') (hcomment : c ≠ '#')
    (hspace : ¬IsSpace c) (hbreak : c ≠ '\n') (hdouble : (c = '=' ∨ c = '<' ∨ c = '>') → rest.head? ≠ some '=') :
    (unquoted.single c).slice = [c] ∧ (unquoted.single c).Reads rest := by
  unfold unquoted.single
  split
  · rename_i hsign
    exact ⟨rfl, longestMatch_single (.sign (by simpa using hsign)) hname hdigit hquote hdouble⟩
  · rename_i hsign
    refine ⟨rfl, ⟨fun kind w h hw => ?_, .inr ⟨c, rfl, hquote, hcomment, hspace⟩⟩⟩
    obtain ⟨w, rfl, _⟩ := h.exists_cons hw
    rcases h.eq_of_plain hname hdigit hquote with ⟨_, hc | hc⟩ | ⟨_, hc⟩
    · exact hbreak hc
    · exact hsign (by simpa using hc)
    · exact hsign (by simpa using mem_signs_of_double hc)

/-- **Other lexemes are longest matches** too, unless nothing matches. -/
theorem read_unquoted (hquote : c ≠ '"') (hcomment : c ≠ '#') (hspace : ¬IsSpace c) (rest : List Char) :
    ∃ rest', c :: rest = (unquoted c rest).slice ++ rest' ∧ (unquoted c rest).Reads rest' := by
  unfold unquoted
  split
  · rename_i hname
    obtain ⟨w, after, rfl, htake, hw, _⟩ := exists_span isNamePart rest
    rw [htake]
    exact ⟨after, rfl, longestMatch_identifier hname hw htake⟩
  rename_i hname
  rw [Bool.not_eq_true] at hname
  split
  · rename_i hdigit
    obtain ⟨w, after, rfl, htake, hw, _⟩ := exists_span Char.isDigit rest
    rw [htake]
    exact ⟨after, rfl, longestMatch_number hdigit hw htake⟩
  rename_i hdigit
  rw [Bool.not_eq_true] at hdigit
  split
  · rename_i hbreak
    obtain rfl := beq_iff_eq.mp hbreak
    exact ⟨rest, rfl, longestMatch_single .newline hname hdigit hquote (by simp)⟩
  rename_i hbreak
  have hsingle := fun hdouble =>
    @read_single c rest hname hdigit hquote hcomment hspace (by simpa using hbreak) hdouble
  cases rest with
  | nil =>
    obtain ⟨hslice, hreads⟩ := hsingle (by simp)
    exact ⟨[], by rw [hslice]; rfl, hreads⟩
  | cons d rest =>
    dsimp only
    split
    · rename_i hdouble
      obtain ⟨hc, rfl⟩ := isDoubleSign_iff.mp hdouble
      refine ⟨rest, rfl, .doubleSign hc, fun kind w h hw => ?_⟩
      obtain ⟨w, rfl, _⟩ := h.exists_cons hw
      rcases h.eq_of_plain hname hdigit hquote with ⟨rfl, _⟩ | ⟨rfl, _⟩ <;> simp
    · rename_i hdouble
      obtain ⟨hslice, hreads⟩ := hsingle fun hc heq =>
        hdouble (isDoubleSign_iff.mpr ⟨hc, Option.some.inj heq⟩)
      exact ⟨d :: rest, by rw [hslice]; rfl, hreads⟩

/-- **A lexeme is the longest match** of a pattern at its place; it is unrecognized only if there is no match. -/
theorem read_lexeme (hcomment : c ≠ '#') (hspace : ¬IsSpace c) (rest : List Char) :
    ∃ rest', c :: rest = (lexeme c rest).slice ++ rest' ∧ (lexeme c rest).Reads rest' := by
  unfold lexeme
  split
  · rename_i hquote
    obtain rfl := beq_iff_eq.mp hquote
    exact read_quoted rest
  · rename_i hquote
    exact read_unquoted (by simpa using hquote) hcomment hspace rest

/-! ### What slices consist of -/

theorem Unrecognized.length_pos (h : Unrecognized slice rest) : 0 < slice.length := by
  obtain ⟨body, rfl, _⟩ | ⟨c, rfl, _⟩ := h.extent <;> simp

/-- Only the line break has a line break in it. -/
theorem Pattern.not_mem (h : Pattern kind slice) (hkind : kind ≠ .newline) : '\n' ∉ slice := by
  intro hmem
  cases h with
  | identifier hc hw =>
    rcases List.mem_cons.mp hmem with rfl | hmem
    · exact absurd (isNameStart_iff.mpr hc) (by decide)
    · exact absurd (isNamePart_iff.mpr (hw _ hmem)) (by decide)
  | number hc hw =>
    rcases List.mem_cons.mp hmem with rfl | hmem
    · exact absurd (isDigit_iff.mpr hc) (by decide)
    · exact absurd (isDigit_iff.mpr (hw _ hmem)) (by decide)
  | string hbody =>
    exact (hbody '\n' (by simpa using hmem)).2 rfl
  | newline => exact hkind rfl
  | doubleSign hc =>
    have hc' := plain_of_mem_signs (mem_signs_of_double hc)
    simp only [List.mem_cons, List.not_mem_nil, or_false] at hmem
    rcases hmem with rfl | heq
    · exact hc'.2.2.2 rfl
    · exact absurd heq (by decide)
  | sign hc =>
    obtain rfl := List.mem_singleton.mp hmem
    exact (plain_of_mem_signs hc).2.2.2 rfl

theorem Pattern.eq_newline (h : Pattern .newline slice) : slice = ['\n'] := by
  cases h
  rfl

theorem Unrecognized.not_mem (h : Unrecognized slice rest) : '\n' ∉ slice := by
  obtain ⟨body, rfl, hbody, _⟩ | ⟨c, rfl, _⟩ := h.extent
  · intro hmem
    rcases List.mem_cons.mp hmem with heq | hmem
    · exact absurd heq (by decide)
    · exact (hbody _ hmem).2 rfl
  · intro hmem
    obtain rfl := List.mem_singleton.mp hmem
    exact h.noPattern _ _ .newline (List.prefix_append _ _)

theorem text_eq (hkind : l.kind = some kind) : l.text = String.ofList (content kind l.slice) := by
  unfold Lexeme.text content
  cases kind <;> simp [hkind]

end Lexemes

end Scanner

end TableParser
