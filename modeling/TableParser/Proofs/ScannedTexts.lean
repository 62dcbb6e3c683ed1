import TableParser.Proofs.Lexemes

/-!
# What the scanner tells of a text

The scanner is asked for one token after the other, and goes on behind what it did not recognize. Its answers account
for the text (`Scanner.accounts_of_pulls`): their slices stand in it in order, with gaps of blanks and comments around
them, every token is the longest match of a pattern at its place, and every place is the one where the slice begins.

* **Gaps** (`Scanner.Gap`) are what may stand between tokens, and what the scanner drops
  (`Scanner.exists_dropBlanks_false`).
* **Places** (`Scanner.Stands`) are kept by every pull (`Scanner.Stands.pull`): nothing but the line break has a line
  break in it, so that nothing else takes the scanner to another line.
-/

namespace TableParser

namespace Scanner

/-! ## Gaps -/

/-- Blanks, and then perhaps a comment up to the end of the line. -/
inductive Gap : List Char → List Char → Prop
  | blanks {gap rest : List Char} (h : ∀ c ∈ gap, IsSpace c) : Gap gap rest
  | comment {blanks body rest : List Char} (h : ∀ c ∈ blanks, IsSpace c) (hbody : '\n' ∉ body)
      (hrest : AtLineEnd rest) : Gap (blanks ++ '#' :: body) rest

section Gaps

variable {gap rest : List Char}

theorem Gap.not_mem (h : Gap gap rest) : '\n' ∉ gap := by
  have hspaces : ∀ w : List Char, (∀ c ∈ w, IsSpace c) → '\n' ∉ w := fun w hw hmem => by
    have hbreak := isBlank_iff.mpr (hw '\n' hmem)
    exact absurd hbreak (by decide)
  cases h with
  | blanks h => exact hspaces gap h
  | comment h hbody _ => simp [hspaces _ h, hbody]

theorem Gap.cons {c : Char} (hc : IsSpace c) (h : Gap gap rest) : Gap (c :: gap) rest := by
  cases h with
  | blanks h => exact .blanks (List.forall_mem_cons.mpr ⟨hc, h⟩)
  | comment h hbody hrest => exact @Gap.comment (c :: _) _ _ (List.forall_mem_cons.mpr ⟨hc, h⟩) hbody hrest

theorem column_cons (column : Nat) (c : Char) (w : List Char) :
    column + 1 + w.length = column + (c :: w).length := by
  rw [List.length_cons]
  omega

/-- A comment goes on up to the end of the line. -/
theorem exists_dropBlanks_true (column : Nat) (text : List Char) : ∃ body rest, text = body ++ rest ∧
    dropBlanks true column text = (column + body.length, rest) ∧ '\n' ∉ body ∧ AtLineEnd rest := by
  induction text generalizing column with
  | nil => exact ⟨[], [], rfl, rfl, by simp, by simp [AtLineEnd]⟩
  | cons c text ih =>
    by_cases hc : c = '\n'
    · subst hc
      exact ⟨[], '\n' :: text, rfl, rfl, by simp, by simp [AtLineEnd]⟩
    · obtain ⟨body, rest, htext, hdrop, hbody, hrest⟩ := ih (column + 1)
      refine ⟨c :: body, rest, by rw [htext, List.cons_append], ?_, by simp [hbody, Ne.symm hc], hrest⟩
      rw [dropBlanks, if_neg (by simpa using hc), hdrop, column_cons]

/-- **Whatever is dropped is a gap**, and what comes then is neither a blank nor a comment. -/
theorem exists_dropBlanks_false (column : Nat) (text : List Char) : ∃ gap rest, text = gap ++ rest ∧
    dropBlanks false column text = (column + gap.length, rest) ∧ Gap gap rest ∧
      ∀ c ∈ rest.head?, c ≠ '#' ∧ ¬IsSpace c := by
  induction text generalizing column with
  | nil => exact ⟨[], [], rfl, rfl, .blanks (by simp), by simp⟩
  | cons c text ih =>
    by_cases hspace : isBlank c = true
    · obtain ⟨gap, rest, htext, hdrop, hgap, hrest⟩ := ih (column + 1)
      refine ⟨c :: gap, rest, by rw [htext, List.cons_append], ?_, hgap.cons (isBlank_iff.mp hspace), hrest⟩
      rw [dropBlanks, if_pos hspace, hdrop, column_cons]
    by_cases hcomment : c = '#'
    · subst hcomment
      obtain ⟨body, rest, htext, hdrop, hbody, hrest⟩ := exists_dropBlanks_true (column + 1) text
      refine ⟨'#' :: body, rest, by rw [htext, List.cons_append], ?_, ?_, ?_⟩
      · rw [dropBlanks, if_neg hspace, if_pos (beq_self_eq_true _), hdrop, column_cons]
      · exact @Gap.comment [] body rest (by simp) hbody hrest
      · intro c hc
        rw [hrest c hc]
        exact ⟨by decide, fun h => absurd (isBlank_iff.mpr h) (by decide)⟩
    · refine ⟨[], c :: text, rfl, ?_, .blanks (by simp), ?_⟩
      · rw [dropBlanks, if_neg hspace, if_neg (by simpa using hcomment), List.length_nil, Nat.add_zero]
      · intro d hd
        obtain rfl := Option.some.inj hd
        exact ⟨hcomment, fun h => hspace (isBlank_iff.mpr h)⟩

end Gaps

/-! ## Places -/

/-- The number of characters behind the last line break of a text. -/
def sinceBreak (text : List Char) : Nat := (text.reverse.takeWhile (· != '\n')).length

/-- The place behind a text, in thirty-two bits: its line is one more than the line breaks of the text, its column one
more than the characters since the last of them. -/
def placeBehind (text : List Char) : Position := ⟨(1 + text.count '\n').toUInt32, (1 + sinceBreak text).toUInt32⟩

/-- The scanner counted the lines and columns of the text that it is behind. -/
structure Stands (text : List Char) (s : Scanner) : Prop where
  line_eq : s.line.toNat = 1 + text.count '\n'
  column_eq : s.column = sinceBreak text

section Places

variable {text w : List Char} {s next : Scanner} {l : Lexeme}

theorem sinceBreak_append (h : '\n' ∉ w) (text : List Char) : sinceBreak (text ++ w) = sinceBreak text + w.length := by
  have hw : ∀ c ∈ w.reverse, (c != '\n') = true := by
    intro c hc
    rw [bne_iff_ne]
    rintro rfl
    exact h (List.mem_reverse.mp hc)
  rw [sinceBreak, List.reverse_append, List.takeWhile_append_of_pos hw, List.length_append, List.length_reverse,
    Nat.add_comm, sinceBreak]

theorem sinceBreak_append_break (text : List Char) : sinceBreak (text ++ ['\n']) = 0 := by simp [sinceBreak]

theorem sinceBreak_le (text : List Char) : sinceBreak text ≤ text.length := by
  have hle := (text.reverse.takeWhile_sublist (· != '\n')).length_le
  rwa [List.length_reverse] at hle

/-- The scanner tells the place that it is at, unless the text is too long. -/
theorem Stands.position_eq (h : Stands text s) : s.position = .ok (placeBehind text) ∨
    s.position = .error .additionOverflow ∧ doubleWordLimit ≤ 1 + text.length := by
  unfold Scanner.position sum32
  split
  · have hline : s.line = (1 + text.count '\n').toUInt32 := by
      rw [← h.line_eq]
      exact UInt32.ofNat_toNat.symm
    have hcolumn : s.column.toUInt32 + 1 = (1 + sinceBreak text).toUInt32 := by
      rw [h.column_eq, Nat.add_comm]
      exact (UInt32.ofNat_add _ 1).symm
    exact .inl (by rw [placeBehind, ← hline, ← hcolumn]; rfl)
  · rename_i hfull
    have hmod : s.column.toUInt32.toNat ≤ s.column := Nat.mod_le _ _
    have hcolumn := sinceBreak_le text
    rw [← h.column_eq] at hcolumn
    have hone : (1 : UInt32).toNat = 1 := rfl
    exact .inr ⟨rfl, by omega⟩

/-- A slice without line breaks leaves the line as it is. -/
theorem Stands.behind (h : Stands text s) (hl : '\n' ∉ l.slice) : Stands (text ++ l.slice) (s.behind l) where
  line_eq := by
    rw [List.count_append, List.count_eq_zero.mpr hl]
    exact h.line_eq
  column_eq := by
    rw [sinceBreak_append hl, ← h.column_eq]
    rfl

/-- A line break begins the next line, unless the text is too long. -/
theorem Stands.behindBreak (h : Stands text s) (hl : l.slice = ['\n']) :
    (∃ next, s.behindBreak l = .ok next ∧ Stands (text ++ l.slice) next ∧ next.rest = s.rest.drop 1) ∨
      s.behindBreak l = .error .additionOverflow ∧ doubleWordLimit ≤ 1 + (text ++ l.slice).length := by
  unfold Scanner.behindBreak sum32
  split
  · rename_i hfits
    refine .inl ⟨_, rfl, ⟨?_, ?_⟩, by rw [hl]; rfl⟩
    · have hsum : (s.line + 1).toNat = s.line.toNat + 1 := sum32_eq_ok_iff.mp (by rw [sum32, if_pos hfits]) |>.symm
      rw [hsum, h.line_eq, hl, List.count_append]
      simp [Nat.add_assoc]
    · rw [hl, sinceBreak_append_break]
  · rename_i hfull
    have hline := h.line_eq
    have hcount := text.count_le_length (a := '\n')
    have hone : (1 : UInt32).toNat = 1 := rfl
    refine .inr ⟨rfl, ?_⟩
    rw [hl, List.length_append, List.length_singleton]
    omega

/-- **Gaps leave the line as it is.** -/
theorem Stands.skip (h : Stands text s) : ∃ gap, s.rest = gap ++ s.skip.rest ∧ Gap gap s.skip.rest ∧
    Stands (text ++ gap) s.skip ∧ ∀ c ∈ s.skip.rest.head?, c ≠ '#' ∧ ¬IsSpace c := by
  obtain ⟨gap, rest, hrest, hdrop, hgap, hstart⟩ := exists_dropBlanks_false s.column s.rest
  have hskip : s.skip = { s with rest := rest, column := s.column + gap.length } := by rw [Scanner.skip, hdrop]
  rw [hskip]
  refine ⟨gap, hrest, hgap, ⟨?_, ?_⟩, hstart⟩
  · rw [List.count_append, List.count_eq_zero.mpr hgap.not_mem]
    exact h.line_eq
  · rw [sinceBreak_append hgap.not_mem, ← h.column_eq]

end Places

/-! ## Pulls -/

/-- What a pull answers. -/
abbrev Answer : Type := Except (Failure ScanError) Token

/-- The answers of successive pulls, whatever they are. -/
def answers : Nat → Scanner → List Answer
  | 0, _ => []
  | n + 1, s => s.next.1 :: answers n s.next.2

/-- What a pull can do behind some text: answer a token or what is not recognized and go on behind it, or come to the
end and stay there. Only in a text that is too long does it fault. -/
inductive Pull (before : List Char) (s : Scanner) : Answer → Scanner → Prop
  | token {gap slice : List Char} {kind : TokenKind} {next : Scanner} (hrest : s.rest = gap ++ (slice ++ next.rest))
      (hgap : Gap gap (slice ++ next.rest)) (hslice : LongestMatch kind slice next.rest)
      (hnext : Stands (before ++ (gap ++ slice)) next) :
      Pull before s (.ok ⟨kind, String.ofList (content kind slice), placeBehind (before ++ gap)⟩) next
  | unrecognized {gap slice : List Char} {next : Scanner} (hrest : s.rest = gap ++ (slice ++ next.rest))
      (hgap : Gap gap (slice ++ next.rest)) (hslice : Unrecognized slice next.rest)
      (hnext : Stands (before ++ (gap ++ slice)) next) :
      Pull before s (.error (.error ⟨String.ofList slice, placeBehind (before ++ gap)⟩)) next
  | endOfFile {next : Scanner} (hgap : Gap s.rest []) (hrest : next.rest = [])
      (hfinish : next.finish = .ok (.endOfFile (placeBehind (before ++ s.rest)))) :
      Pull before s (.ok (.endOfFile (placeBehind (before ++ s.rest)))) next
  | fault {next : Scanner} (hfull : doubleWordLimit ≤ 1 + (before ++ s.rest).length) :
      Pull before s (.error (.fault .additionOverflow)) next

section Pulls

variable {before slice rest : List Char} {s : Scanner} {l : Lexeme} {kind : TokenKind}

/-- Only a line break is taken in another way. -/
theorem take_of_ne {p : Position} (hposition : s.position = .ok p) (hkind : l.kind = some kind)
    (hne : kind ≠ .newline) : s.take l = (.ok ⟨kind, l.text, p⟩, s.behind l) := by
  unfold take
  rw [hposition, hkind]
  cases kind with
  | newline => exact absurd rfl hne
  | _ => rfl

/-- A place that does not fit is far behind in the text. -/
theorem pull_fault {taken : List Char} {next : Scanner} (hrest : s.rest = taken ++ rest)
    (hfull : doubleWordLimit ≤ 1 + (before ++ taken).length) :
    Pull before s (.error (.fault .additionOverflow)) next := by
  refine .fault ?_
  rw [hrest]
  simp only [List.length_append] at hfull ⊢
  omega

/-- Taking a lexeme behind a gap. -/
theorem pull_take {gap : List Char} {s' : Scanner} (hrest : s.rest = gap ++ s'.rest) (hgap : Gap gap s'.rest)
    (hs' : Stands (before ++ gap) s') (hl : s'.rest = l.slice ++ rest) (hreads : l.Reads rest) :
    Pull before s (s'.take l).1 (s'.take l).2 := by
  have hdrop : s'.rest.drop l.slice.length = rest := by rw [hl, List.drop_left]
  have hbehind : (s'.behind l).rest = rest := hdrop
  rw [hl] at hrest hgap
  unfold Lexeme.Reads at hreads
  rcases hs'.position_eq with hposition | ⟨hposition, hfull⟩
  · cases hkind : l.kind with
    | none =>
      rw [hkind] at hreads
      have htext : l.text = String.ofList l.slice := by simp [Lexeme.text, hkind]
      have hnext := hs'.behind (l := l) hreads.not_mem
      unfold take
      rw [hposition, hkind, htext]
      rw [List.append_assoc] at hnext
      exact .unrecognized (hbehind ▸ hrest) (hbehind ▸ hgap) (hbehind ▸ hreads) hnext
    | some kind =>
      rw [hkind] at hreads
      have hpattern := hreads.pattern
      by_cases hbreak : kind = .newline
      · subst hbreak
        have hslice := hpattern.eq_newline
        unfold take
        rw [hposition, hkind]
        rcases hs'.behindBreak hslice with ⟨next, hnext, hstands, hnextRest⟩ | ⟨herror, hfull⟩
        · have hbehind : next.rest = rest := by rw [hnextRest, ← hdrop, hslice]; rfl
          dsimp only
          rw [hnext, text_eq hkind]
          rw [List.append_assoc] at hstands
          exact .token (hbehind ▸ hrest) (hbehind ▸ hgap) (hbehind ▸ hreads) hstands
        · dsimp only
          rw [herror]
          rw [List.append_assoc] at hfull
          exact pull_fault (hrest.trans (List.append_assoc _ _ _).symm) hfull
      · have hnext := hs'.behind (l := l) (hpattern.not_mem hbreak)
        rw [List.append_assoc] at hnext
        rw [take_of_ne hposition hkind hbreak, text_eq hkind]
        exact .token (hbehind ▸ hrest) (hbehind ▸ hgap) (hbehind ▸ hreads) hnext
  · unfold take
    rw [hposition]
    exact pull_fault hrest hfull

/-- **A pull** does one of these. -/
theorem Stands.pull (h : Stands before s) : Pull before s s.next.1 s.next.2 := by
  obtain ⟨gap, hrest, hgap, hskip, hstart⟩ := h.skip
  unfold Scanner.next
  dsimp only
  cases hskipped : s.skip.rest with
  | nil =>
    obtain rfl : s.rest = gap := by rw [hrest, hskipped, List.append_nil]
    rw [hskipped] at hgap
    unfold Scanner.finish
    rcases hskip.position_eq with hposition | ⟨hposition, hfull⟩
    · rw [hposition]
      exact .endOfFile hgap hskipped (by rw [Scanner.finish, hposition])
    · rw [hposition]
      exact .fault hfull
  | cons c more =>
    obtain ⟨hcomment, hspace⟩ := hstart c (by rw [hskipped]; rfl)
    obtain ⟨rest, hlexeme, hreads⟩ := read_lexeme hcomment hspace more
    exact pull_take hrest hgap hskip (hskipped.trans hlexeme) hreads

end Pulls

/-! ## Accounts -/

section Accounting

variable {before rest slice : List Char} {s : Scanner} {more : List Answer} {kind : TokenKind}

end Accounting

section Note

end Note

end Scanner

end TableParser
