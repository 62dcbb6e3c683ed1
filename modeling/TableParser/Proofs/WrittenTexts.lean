import TableParser.Proofs.Drafts

/-!
# Reading what was written

A list of records may be laid out as a text in many ways: every alternative has either separator in front, any number of
spaces between its symbols, and lines of comments and blanks may stand around it. The reader sees through the layout: it
makes of every such text the grammar of the records (`Grammar.read_of_written`).

* **Layouts** (`Written`) are built up from names to lines (`AlternativeText.Line`), records (`Paragraphs`), comments
  (`Commented`) and line ends (`Text.Ended`).
* **One line** takes the reader from some records to some more (`Record.Takes`), whatever its number is; comments take
  it nowhere, so that a run of lines (`Record.Run`) may be interspersed with them.
-/

namespace TableParser

/-! ## Pieces of text -/

namespace Text

variable {p : Char → Bool} {c : Char} {w rest line text : List Char}

theorem splitOn_ne_nil (p : Char → Bool) (text : List Char) : splitOn p text ≠ [] := by
  cases text with
  | nil => simp [splitOn]
  | cons c rest =>
    unfold splitOn
    split
    · simp
    · split <;> simp

theorem splitOn_cons_of_pos (h : p c = true) (rest : List Char) : splitOn p (c :: rest) = [] :: splitOn p rest := by
  obtain ⟨piece, pieces, hpieces⟩ := List.exists_cons_of_ne_nil (splitOn_ne_nil p rest)
  simp [splitOn, hpieces, h]

theorem splitOn_cons_of_neg (h : p c = false) {piece : List Char} {pieces : List (List Char)}
    (hrest : splitOn p rest = piece :: pieces) : splitOn p (c :: rest) = (c :: piece) :: pieces := by
  simp [splitOn, hrest, h]

/-- A stretch without separators is in front of the first piece. -/
theorem splitOn_append (hw : ∀ c ∈ w, p c = false) {piece : List Char} {pieces : List (List Char)}
    (hrest : splitOn p rest = piece :: pieces) : splitOn p (w ++ rest) = (w ++ piece) :: pieces := by
  induction w with
  | nil => exact hrest
  | cons c w ih =>
    obtain ⟨hc, hw⟩ := List.forall_mem_cons.mp hw
    exact splitOn_cons_of_neg hc (ih hw)

theorem splitOn_append_cons (hw : ∀ c ∈ w, p c = false) (hc : p c = true) (rest : List Char) :
    splitOn p (w ++ c :: rest) = w :: splitOn p rest := by
  rw [splitOn_append hw (splitOn_cons_of_pos hc rest), List.append_nil]

theorem splitOn_eq_singleton (hw : ∀ c ∈ w, p c = false) : splitOn p w = [w] := by
  simpa using @splitOn_append p w [] hw [] [] rfl

/-! ### Lines -/

/-- A text with its lines: each is ended by a line feed or by a carriage return and a line feed, but the last one may be
unended. A carriage return in front of a line feed always belongs to the line end. -/
inductive Ended : List (List Char) → List Char → Prop
  | none : Ended [] []
  | lf {line rest : List Char} {lines : List (List Char)} (h : '\n' ∉ line) (hreturn : line.getLast? ≠ some '\r')
      (hrest : Ended lines rest) : Ended (line :: lines) (line ++ '\n' :: rest)
  | crlf {line rest : List Char} {lines : List (List Char)} (h : '\n' ∉ line) (hrest : Ended lines rest) :
      Ended (line :: lines) (line ++ '\r' :: '\n' :: rest)
  | unended {line : List Char} (h : '\n' ∉ line) (hne : line ≠ []) : Ended [line] line

theorem beq_lineFeed_eq_false (h : '\n' ∉ line) : ∀ c ∈ line, (c == '\n') = false := by
  intro c hc
  rw [beq_eq_false_iff_ne]
  rintro rfl
  exact h hc

/-- The first line of a text, up to its line feed. -/
theorem lines_append_cons (h : '\n' ∉ line) (rest : List Char) :
    lines (line ++ '\n' :: rest) = dropReturn line :: lines rest := by
  have hne := splitOn_ne_nil (fun c => c == '\n') rest
  have hsplit := splitOn_append_cons (p := fun c => c == '\n') (beq_lineFeed_eq_false h) (beq_self_eq_true _) rest
  simp only [lines, hsplit, List.dropLast_cons_of_ne_nil hne, List.map_cons, List.cons_append,
    List.getLast?_cons_of_ne_nil hne]

theorem dropReturn_concat (line : List Char) : dropReturn (line ++ ['\r']) = line := by
  simp [dropReturn]

theorem dropReturn_eq_self (h : line.getLast? ≠ some '\r') : dropReturn line = line := if_neg h

/-- **The lines of a text** are those that it was put together from. -/
theorem Ended.lines_eq {lines : List (List Char)} (h : Ended lines text) : Text.lines text = lines := by
  induction h with
  | none => rfl
  | lf h hreturn _ ih => rw [lines_append_cons h, dropReturn_eq_self hreturn, ih]
  | crlf h _ ih =>
    rename_i line rest lines _
    have hfeed : '\n' ∉ line ++ ['\r'] := by simp [h]
    rw [List.append_cons, lines_append_cons hfeed, dropReturn_concat, ih]
  | unended h hne =>
    rename_i line
    have hsplit := splitOn_eq_singleton (p := fun c => c == '\n') (beq_lineFeed_eq_false h)
    cases line with
    | nil => exact absurd rfl hne
    | cons c line => simp [Text.lines, hsplit]

/-! ### Words -/

/-- Something to see, and no blanks in it. -/
structure IsWord (w : List Char) : Prop where
  ne_nil : w ≠ []
  isBlank_eq_false : ∀ c ∈ w, isBlank c = false

/-- Something to see that has no blanks around it. -/
structure IsTrimmed (w : List Char) : Prop where
  ne_nil : w ≠ []
  front : ∀ c ∈ w.head?, isBlank c = false
  back : ∀ c ∈ w.getLast?, isBlank c = false

instance (w : List Char) : Decidable (IsWord w) :=
  decidable_of_iff (w ≠ [] ∧ (w.all fun c => !isBlank c) = true)
    ⟨fun h => ⟨h.1, by simpa using h.2⟩, fun h => ⟨h.ne_nil, by simpa using h.isBlank_eq_false⟩⟩

instance (w : List Char) : Decidable (IsTrimmed w) :=
  decidable_of_iff
    (w ≠ [] ∧ (w.head?.all fun c => !isBlank c) = true ∧ (w.getLast?.all fun c => !isBlank c) = true)
    ⟨fun h => ⟨h.1, by simpa [Option.all_eq_true] using h.2.1, by simpa [Option.all_eq_true] using h.2.2⟩,
      fun h => ⟨h.ne_nil, by simpa [Option.all_eq_true] using h.front, by simpa [Option.all_eq_true] using h.back⟩⟩

theorem IsWord.isTrimmed (h : IsWord w) : IsTrimmed w where
  ne_nil := h.ne_nil
  front c hc := h.isBlank_eq_false c (List.mem_of_mem_head? hc)
  back c hc := h.isBlank_eq_false c (List.mem_of_mem_getLast? hc)

theorem trimLeft_eq_self (h : ∀ c ∈ w.head?, isBlank c = false) : trimLeft w = w := by
  cases w with
  | nil => rfl
  | cons c w => exact List.dropWhile_cons_of_neg (by simp [h c rfl])

theorem IsTrimmed.trim_eq (h : IsTrimmed w) : trim w = w := by
  rw [trim, trimLeft_eq_self h.front, trimLeft_eq_self (by simpa using h.back), List.reverse_reverse]

theorem trimLeft_eq_nil_iff : trimLeft text = [] ↔ ∀ c ∈ text, isBlank c = true := List.dropWhile_eq_nil_iff

/-- A text is trimmed to nothing if there is nothing but blanks in it. -/
theorem trim_eq_nil_iff : trim text = [] ↔ ∀ c ∈ text, isBlank c = true := by
  rw [trim, List.reverse_eq_nil_iff, trimLeft_eq_nil_iff]
  constructor
  · intro h c hc
    rw [← List.takeWhile_append_dropWhile (p := isBlank) (l := text), List.mem_append] at hc
    rcases hc with hc | hc
    · exact List.mem_takeWhile_imp hc
    · exact h c (List.mem_reverse.mpr hc)
  · intro h c hc
    exact h c ((List.dropWhile_sublist isBlank).subset (List.mem_reverse.mp hc))

theorem words_eq_singleton (h : IsWord w) : words w = [w] := by
  simp [words, splitOn_eq_singleton h.isBlank_eq_false, h.ne_nil]

theorem words_cons_of_blank (h : isBlank c = true) (rest : List Char) : words (c :: rest) = words rest := by
  simp [words, splitOn_cons_of_pos h]

theorem words_append_cons (h : IsWord w) (hc : isBlank c = true) (rest : List Char) :
    words (w ++ c :: rest) = w :: words rest := by
  simp [words, splitOn_append_cons h.isBlank_eq_false hc, h.ne_nil]

theorem words_replicate_append (n : Nat) (rest : List Char) :
    words (List.replicate n ' ' ++ rest) = words rest := by
  induction n with
  | zero => rfl
  | succ n ih => rw [List.replicate_succ, List.cons_append, words_cons_of_blank (by decide), ih]

/-- Words with one or more spaces between them. -/
inductive Spaced : List (List Char) → List Char → Prop
  | single (w : List Char) : Spaced [w] w
  | cons (w : List Char) (n : Nat) {ws : List (List Char)} {text : List Char} (h : Spaced ws text) :
      Spaced (w :: ws) (w ++ (List.replicate (n + 1) ' ' ++ text))

namespace Spaced

variable {ws : List (List Char)}

/-- Spaces separate words, whatever their number. -/
theorem words_eq (h : Spaced ws text) (hws : ∀ w ∈ ws, IsWord w) : words text = ws := by
  induction h with
  | single w => exact words_eq_singleton (hws w List.mem_cons_self)
  | cons w n _ ih =>
    obtain ⟨hw, hws⟩ := List.forall_mem_cons.mp hws
    rw [List.replicate_succ, List.cons_append, words_append_cons hw (by decide), words_replicate_append, ih hws]

theorem mem (h : Spaced ws text) {c : Char} (hc : c ∈ text) : c = ' ' ∨ ∃ w ∈ ws, c ∈ w := by
  induction h with
  | single w => exact .inr ⟨w, List.mem_cons_self, hc⟩
  | cons w n _ ih =>
    simp only [List.mem_append, List.mem_replicate] at hc
    rcases hc with hc | ⟨_, hc⟩ | hc
    · exact .inr ⟨w, List.mem_cons_self, hc⟩
    · exact .inl hc
    · rcases ih hc with hc | ⟨w', hw', hc⟩
      · exact .inl hc
      · exact .inr ⟨w', List.mem_cons_of_mem _ hw', hc⟩

/-- The first word is at the front. -/
theorem head?_eq (h : Spaced ws text) (hws : ∀ w ∈ ws, IsWord w) : text.head? = ws.head?.bind List.head? := by
  cases h with
  | single w => rfl
  | cons w n _ =>
    obtain ⟨c, w, rfl⟩ := List.exists_cons_of_ne_nil (hws w List.mem_cons_self).ne_nil
    rfl

end Spaced

end Text

/-! ## Texts of records -/

/-- One alternative as it is meant. -/
structure AlternativeText where
  symbols : List String
  action : Option String
deriving DecidableEq, Repr

/-- A left-hand side and its alternatives as they are meant. -/
structure RecordText where
  lhs : String
  alternatives : List AlternativeText
deriving DecidableEq, Repr

namespace AlternativeText

/-- What can be written: words, the first of which does not look like a separator, with the empty derivation alone at
most, and an action on one line that has no blanks around it. -/
structure Regular (a : AlternativeText) : Prop where
  symbols_ne_nil : a.symbols ≠ []
  isWord : ∀ name ∈ a.symbols, Text.IsWord name.toList
  front : ∀ name ∈ a.symbols.head?, ∀ c ∈ name.toList.head?, c ≠ ':' ∧ c ≠ '|'
  epsilon_alone : "epsilon" ∈ a.symbols → a.symbols = ["epsilon"]
  isTrimmed : ∀ action ∈ a.action, Text.IsTrimmed action.toList ∧ '\n' ∉ action.toList

instance (a : AlternativeText) : Decidable a.Regular :=
  decidable_of_iff (a.symbols ≠ [] ∧ (∀ name ∈ a.symbols, Text.IsWord name.toList) ∧
      (∀ name ∈ a.symbols.head?, (name.toList.head?.all fun c => c != ':' && c != '|') = true) ∧
      ("epsilon" ∈ a.symbols → a.symbols = ["epsilon"]) ∧
      ∀ action ∈ a.action, Text.IsTrimmed action.toList ∧ '\n' ∉ action.toList)
    ⟨fun h => ⟨h.1, h.2.1, by simpa [Option.all_eq_true] using h.2.2.1, h.2.2.2.1, h.2.2.2.2⟩,
      fun h => ⟨h.symbols_ne_nil, h.isWord, by simpa [Option.all_eq_true] using h.front, h.epsilon_alone, h.isTrimmed⟩⟩

theorem Regular.isWord_of_mem_map {a : AlternativeText} (ha : a.Regular) :
    ∀ w ∈ a.symbols.map String.toList, Text.IsWord w := List.forall_mem_map.mpr ha.isWord

/-- What is written behind the symbols. -/
def tail (a : AlternativeText) : List Char :=
  match a.action with
  | none => []
  | some action => '\t' :: action.toList

/-- The lines that may be written for an alternative. -/
inductive Line (a : AlternativeText) : List Char → Prop
  | mk (bar : Char) (text : List Char) (hbar : bar = ':' ∨ bar = '|')
      (h : Text.Spaced (a.symbols.map String.toList) text) : Line a ('\t' :: bar :: ' ' :: (text ++ a.tail))

end AlternativeText

namespace RecordText

/-- What can be written: a word that does not look like a comment, and alternatives with different symbols. -/
structure Regular (r : RecordText) : Prop where
  isWord : Text.IsWord r.lhs.toList
  notComment : ¬['/', '/'] <+: r.lhs.toList
  alternatives_ne_nil : r.alternatives ≠ []
  regular : ∀ a ∈ r.alternatives, a.Regular
  nodup : (r.alternatives.map AlternativeText.symbols).Nodup

instance (r : RecordText) : Decidable r.Regular :=
  decidable_of_iff (Text.IsWord r.lhs.toList ∧ ¬['/', '/'] <+: r.lhs.toList ∧ r.alternatives ≠ [] ∧
      (∀ a ∈ r.alternatives, a.Regular) ∧ (r.alternatives.map AlternativeText.symbols).Nodup)
    ⟨fun h => ⟨h.1, h.2.1, h.2.2.1, h.2.2.2.1, h.2.2.2.2⟩,
      fun h => ⟨h.isWord, h.notComment, h.alternatives_ne_nil, h.regular, h.nodup⟩⟩

/-- The lines that may be written for a record: its left-hand side, then its alternatives. -/
def Lines (r : RecordText) (lines : List (List Char)) : Prop :=
  ∃ rows, lines = r.lhs.toList :: rows ∧ List.Forall₂ AlternativeText.Line r.alternatives rows

/-- The symbol that a name stands for: a nonterminal exactly if one of the records has it as its left-hand side. -/
def symbolOf (records : List RecordText) (name : String) : Symbol :=
  if name ∈ records.map lhs then .nonterminal name else .terminal name

/-- The calls that define a record, one for each alternative. -/
def calls (records : List RecordText) (r : RecordText) : List DefinitionStep :=
  r.alternatives.map fun a => .rule (.nonterminal r.lhs) (a.symbols.map (symbolOf records)) a.action

end RecordText

/-- A line with nothing to see. -/
def IsBlankLine (line : List Char) : Prop := ∀ c ∈ line, Text.isBlank c = true

instance (line : List Char) : Decidable (IsBlankLine line) :=
  decidable_of_iff (line.all Text.isBlank = true) List.all_eq_true

/-- A line with a comment, which may be indented. -/
def IsCommentLine (line : List Char) : Prop := ∃ indent text, IsBlankLine indent ∧ line = indent ++ '/' :: '/' :: text

/-- Records with one or more blank lines between them. -/
inductive Paragraphs : List RecordText → List (List Char) → Prop
  | single {r : RecordText} {lines : List (List Char)} (h : r.Lines lines) : Paragraphs [r] lines
  | cons {r : RecordText} {records : List RecordText} {lines gap more : List (List Char)} (h : r.Lines lines)
      (hgap : gap ≠ []) (hblank : ∀ line ∈ gap, IsBlankLine line) (hmore : Paragraphs records more) :
      Paragraphs (r :: records) (lines ++ (gap ++ more))

/-- Comment lines are inserted anywhere between the given lines. -/
inductive Commented : List (List Char) → List (List Char) → Prop
  | nil : Commented [] []
  | keep (line : List Char) {plain lines : List (List Char)} (h : Commented plain lines) :
      Commented (line :: plain) (line :: lines)
  | insert {comment : List Char} {plain lines : List (List Char)} (hc : IsCommentLine comment)
      (h : Commented plain lines) : Commented plain (comment :: lines)

/-- The texts of a list of records. Blank lines may also stand in front of all and behind all. -/
def Written (records : List RecordText) (text : List Char) : Prop :=
  ∃ front body back lines, (∀ line ∈ front, IsBlankLine line) ∧ Paragraphs records body ∧
    (∀ line ∈ back, IsBlankLine line) ∧ Commented (front ++ (body ++ back)) lines ∧ Text.Ended lines text

/-- Records that can be written: there are some, with different left-hand sides. -/
structure RegularRecords (records : List RecordText) : Prop where
  ne_nil : records ≠ []
  regular : ∀ r ∈ records, r.Regular
  nodup : (records.map RecordText.lhs).Nodup

instance (records : List RecordText) : Decidable (RegularRecords records) :=
  decidable_of_iff (records ≠ [] ∧ (∀ r ∈ records, r.Regular) ∧ (records.map RecordText.lhs).Nodup)
    ⟨fun h => ⟨h.1, h.2.1, h.2.2⟩, fun h => ⟨h.ne_nil, h.regular, h.nodup⟩⟩

/-! ## Reading lines -/

namespace Record

/-- What a record that was read says, without the numbers of its lines. -/
def text (r : Record) : RecordText := ⟨r.lhs, r.alternatives.map fun a => ⟨a.symbols, a.action⟩⟩

/-- What the records say that are complete, and what the one under way does. -/
def Progress.texts (p : Progress) : List RecordText × Option RecordText := (p.done.map text, p.current.map text)

/-- A line takes the reader from some records to some more, whatever its number is. -/
def Takes (line : List Char) (s s' : List RecordText × Option RecordText) : Prop :=
  ∀ (n : Nat) (p : Progress), p.texts = s → ∃ p', p.take n line = .ok p' ∧ p'.texts = s'

section Lines

variable {line : List Char} {done : List RecordText} {current : Option RecordText}
  {s s' : List RecordText × Option RecordText} {a : AlternativeText} {r : RecordText}

theorem isComment_of_isCommentLine (h : IsCommentLine line) : isComment line = true := by
  obtain ⟨indent, rest, hindent, rfl⟩ := h
  have hslash : Text.trimLeft ('/' :: '/' :: rest) = '/' :: '/' :: rest := Text.trimLeft_eq_self (by simp; decide)
  rw [isComment, Text.trimLeft, List.dropWhile_append_of_pos hindent, ← Text.trimLeft, hslash]
  rfl

theorem isComment_of_isBlankLine (h : IsBlankLine line) : isComment line = false := by
  rw [isComment, Text.trimLeft_eq_nil_iff.mpr h]
  rfl

/-- Comments are passed over. -/
theorem takes_of_isCommentLine (h : IsCommentLine line) (s : List RecordText × Option RecordText) : Takes line s s := by
  intro n p hp
  exact ⟨p, by rw [Progress.take, if_pos (isComment_of_isCommentLine h)], hp⟩

/-- A blank line completes the record under way. -/
theorem takes_of_isBlankLine (h : IsBlankLine line) (done : List RecordText) (current : Option RecordText) :
    Takes line (done, current) (done ++ current.toList, none) := by
  intro n p hp
  have hempty : (Text.trim line).isEmpty = true := by rw [Text.trim_eq_nil_iff.mpr h]; rfl
  refine ⟨⟨p.records, none⟩, ?_, ?_⟩
  · rw [Progress.take, isComment_of_isBlankLine h, if_neg Bool.false_ne_true, if_pos hempty]
  · obtain ⟨rfl, rfl⟩ := Prod.mk.inj hp
    cases hcurrent : p.current <;> simp [Progress.texts, Progress.records, hcurrent]

/-- The left-hand side of a record begins it. -/
theorem takes_lhs (hr : r.Regular) (hnew : r.lhs ∉ done.map RecordText.lhs) :
    Takes r.lhs.toList (done, none) (done, some ⟨r.lhs, []⟩) := by
  rintro n ⟨read, current⟩ hp
  obtain ⟨rfl, hcurrent⟩ := Prod.mk.inj hp
  obtain rfl : current = none := Option.map_eq_none_iff.mp hcurrent
  have htrim := hr.isWord.isTrimmed.trim_eq
  have hcomment : isComment r.lhs.toList = false := by
    rw [isComment, Text.trimLeft_eq_self hr.isWord.isTrimmed.front, Bool.eq_false_iff]
    exact fun h => hr.notComment (List.isPrefixOf_iff_prefix.mp h)
  have hblank : r.lhs.toList.any Text.isBlank = false := List.any_eq_false.mpr fun c hc => by
    simp [hr.isWord.isBlank_eq_false c hc]
  have hfresh : (read.any fun r' => r'.lhs == r.lhs) = false := by
    refine List.any_eq_false.mpr fun r' hr' heq => hnew ?_
    rw [← beq_iff_eq.mp heq, List.map_map]
    exact List.mem_map.mpr ⟨r', hr', rfl⟩
  refine ⟨⟨read, some ⟨r.lhs, []⟩⟩, ?_, rfl⟩
  simp [Progress.take, hcomment, htrim, hblank, hfresh, hr.isWord.ne_nil]

theorem readAction_tail (h : a.Regular) : readAction a.tail = a.action := by
  unfold AlternativeText.tail
  cases haction : a.action with
  | none => rfl
  | some action =>
    obtain ⟨htrimmed, _⟩ := h.isTrimmed action haction
    simp [readAction, htrimmed.trim_eq, htrimmed.ne_nil]

theorem isLead_eq_false {c : Char} (hc : c ≠ ':' ∧ c ≠ '|') (hblank : Text.isBlank c = false) : isLead c = false := by
  simp only [isLead, Bool.or_eq_false_iff, beq_eq_false_iff_ne]
  refine ⟨⟨⟨⟨hc.1, hc.2⟩, ?_⟩, ?_⟩, ?_⟩
  all_goals
    rintro rfl
    exact absurd hblank (by decide)

/-- The symbols of an alternative begin with a character that is not dropped. -/
theorem dropWhile_isLead_append {text : List Char} (ha : a.Regular)
    (h : Text.Spaced (a.symbols.map String.toList) text) (rest : List Char) :
    (text ++ rest).dropWhile isLead = text ++ rest := by
  obtain ⟨name, names, hnames⟩ := List.exists_cons_of_ne_nil ha.symbols_ne_nil
  have hword := ha.isWord name (by simp [hnames])
  obtain ⟨c, w, hname⟩ := List.exists_cons_of_ne_nil hword.ne_nil
  have hhead : text.head? = some c := by
    rw [h.head?_eq ha.isWord_of_mem_map, hnames, List.map_cons, List.head?_cons, Option.bind_some, hname,
      List.head?_cons]
  obtain ⟨text', rfl⟩ := List.head?_eq_some_iff.mp hhead
  refine List.dropWhile_cons_of_neg ?_
  rw [Bool.not_eq_true]
  exact isLead_eq_false (ha.front name (by simp [hnames]) c (by simp [hname]))
    (hword.isBlank_eq_false c (by simp [hname]))

/-- **A line of an alternative** is read as the alternative. -/
theorem readAlternative_eq (ha : a.Regular) (h : a.Line line) (n : Nat) :
    readAlternative n line = .ok ⟨n, a.symbols, a.action⟩ := by
  obtain ⟨bar, text, hbar, hspaced⟩ := h
  have hlead : ('\t' :: bar :: ' ' :: (text ++ a.tail)).dropWhile isLead = text ++ a.tail := by
    have hbarLead : isLead bar = true := by rcases hbar with rfl | rfl <;> rfl
    rw [List.dropWhile_cons_of_pos rfl, List.dropWhile_cons_of_pos hbarLead, List.dropWhile_cons_of_pos rfl,
      dropWhile_isLead_append ha hspaced]
  have htabs : ∀ c ∈ text, (c != '\t') = true := by
    intro c hc
    rw [bne_iff_ne]
    rintro rfl
    rcases hspaced.mem hc with htab | ⟨w, hw, hc⟩
    · cases htab
    · exact absurd ((ha.isWord_of_mem_map w hw).isBlank_eq_false _ hc) (by decide)
  have htail : a.tail.takeWhile (· != '\t') = [] ∧ a.tail.dropWhile (· != '\t') = a.tail := by
    unfold AlternativeText.tail
    cases a.action <;> exact ⟨rfl, rfl⟩
  have hnames : (a.symbols.map String.toList).map String.ofList = a.symbols := by simp
  have hne : (a.symbols.map String.toList).isEmpty = false := by simp [ha.symbols_ne_nil]
  rw [readAlternative, hlead, List.takeWhile_append_of_pos htabs, List.dropWhile_append_of_pos htabs, htail.1, htail.2,
    List.append_nil, hspaced.words_eq ha.isWord_of_mem_map, hnames, readAction_tail ha, hne]
  rfl

/-- A line of an alternative adds it to the record under way. -/
theorem takes_alternative (ha : a.Regular) (h : a.Line line) (lhs : String) (before : List AlternativeText) :
    Takes line (done, some ⟨lhs, before⟩) (done, some ⟨lhs, before ++ [a]⟩) := by
  rintro n ⟨read, current⟩ hp
  obtain ⟨rfl, hcurrent⟩ := Prod.mk.inj hp
  obtain ⟨record, rfl, htext⟩ := Option.map_eq_some_iff.mp hcurrent
  obtain ⟨rfl, hbefore⟩ := RecordText.mk.inj htext
  have hread := readAlternative_eq ha h n
  obtain ⟨bar, text, hbar, hspaced⟩ := h
  have hbarBlank : Text.isBlank bar = false := by rcases hbar with rfl | rfl <;> rfl
  have hcomment : isComment ('\t' :: bar :: ' ' :: (text ++ a.tail)) = false := by
    have hslash : (bar == '/') = false := by rcases hbar with rfl | rfl <;> rfl
    have hleft : Text.trimLeft ('\t' :: bar :: ' ' :: (text ++ a.tail)) = bar :: ' ' :: (text ++ a.tail) := by
      rw [Text.trimLeft, List.dropWhile_cons_of_pos rfl, List.dropWhile_cons_of_neg (by simp [hbarBlank])]
    rw [isComment, hleft]
    rcases hbar with rfl | rfl <;> rfl
  have hempty : (Text.trim ('\t' :: bar :: ' ' :: (text ++ a.tail))).isEmpty = false := by
    rw [List.isEmpty_eq_false_iff, Ne, Text.trim_eq_nil_iff]
    intro hall
    exact absurd (hall bar (by simp)) (by simp [hbarBlank])
  refine ⟨⟨read, some ⟨record.lhs, record.alternatives ++ [⟨n, a.symbols, a.action⟩]⟩⟩, ?_, ?_⟩
  · rw [Progress.take, hcomment, hempty]
    simp [hread, Except.map]
  · simp [Progress.texts, Record.text, hbefore]

end Lines

/-! ### Runs of lines -/

/-- Several lines take the reader from some records to some more. -/
inductive Run : List (List Char) → List RecordText × Option RecordText → List RecordText × Option RecordText → Prop
  | nil (s : List RecordText × Option RecordText) : Run [] s s
  | cons {line : List Char} {lines : List (List Char)} {s s' s'' : List RecordText × Option RecordText}
      (h : Takes line s s') (hrest : Run lines s' s'') : Run (line :: lines) s s''

section Runs

variable {lines more : List (List Char)} {s s' s'' : List RecordText × Option RecordText} {done : List RecordText}
  {records : List RecordText} {r : RecordText}

theorem Run.append (h : Run lines s s') (hmore : Run more s' s'') : Run (lines ++ more) s s'' := by
  induction h with
  | nil => exact hmore
  | cons htakes _ ih => exact .cons htakes (ih hmore)

/-- Comments do not change where a run leads. -/
theorem Run.of_commented {plain : List (List Char)} (hc : Commented plain lines) (h : Run plain s s') :
    Run lines s s' := by
  induction hc generalizing s with
  | nil => exact h
  | keep line _ ih =>
    cases h with
    | cons htakes hrest => exact .cons htakes (ih hrest)
  | insert hcomment _ ih => exact .cons (takes_of_isCommentLine hcomment s) (ih h)

/-- Blank lines between records lead nowhere. -/
theorem run_of_blank (h : ∀ line ∈ lines, IsBlankLine line) (done : List RecordText) :
    Run lines (done, none) (done, none) := by
  induction lines with
  | nil => exact .nil _
  | cons line lines ih =>
    obtain ⟨hline, hlines⟩ := List.forall_mem_cons.mp h
    have htakes := takes_of_isBlankLine hline done none
    rw [Option.toList_none, List.append_nil] at htakes
    exact .cons htakes (ih hlines)

/-- Blank lines behind a record complete it. -/
theorem run_of_gap (hne : lines ≠ []) (h : ∀ line ∈ lines, IsBlankLine line) (done : List RecordText) (r : RecordText) :
    Run lines (done, some r) (done ++ [r], none) := by
  cases lines with
  | nil => exact absurd rfl hne
  | cons line lines =>
    obtain ⟨hline, hlines⟩ := List.forall_mem_cons.mp h
    exact .cons (takes_of_isBlankLine hline done (some r)) (run_of_blank hlines _)

theorem run_of_alternatives {alternatives : List AlternativeText} {rows : List (List Char)}
    (h : List.Forall₂ AlternativeText.Line alternatives rows) (hregular : ∀ a ∈ alternatives, a.Regular) (lhs : String)
    (before : List AlternativeText) :
    Run rows (done, some ⟨lhs, before⟩) (done, some ⟨lhs, before ++ alternatives⟩) := by
  induction h generalizing before with
  | nil =>
    rw [List.append_nil]
    exact .nil _
  | cons hline _ ih =>
    obtain ⟨ha, hregular⟩ := List.forall_mem_cons.mp hregular
    rw [List.append_cons]
    exact .cons (takes_alternative ha hline lhs before) (ih hregular _)

/-- The lines of a record lead to the record. -/
theorem run_of_record (hr : r.Regular) (hnew : r.lhs ∉ done.map RecordText.lhs) (h : r.Lines lines) :
    Run lines (done, none) (done, some r) := by
  obtain ⟨rows, rfl, hrows⟩ := h
  exact .cons (takes_lhs hr hnew) (run_of_alternatives hrows hr.regular r.lhs [])

theorem lhs_not_mem (hnodup : ((done ++ r :: records).map RecordText.lhs).Nodup) :
    r.lhs ∉ done.map RecordText.lhs := by
  intro hmem
  rw [List.map_append] at hnodup
  exact (List.nodup_append.mp hnodup).2.2 _ hmem _ List.mem_cons_self rfl

/-- **The lines of records lead to the records**, the last of which is still under way. -/
theorem run_of_paragraphs (h : Paragraphs records lines) (hregular : ∀ r ∈ records, r.Regular)
    (hnodup : ((done ++ records).map RecordText.lhs).Nodup) :
    ∃ before last, records = before ++ [last] ∧ Run lines (done, none) (done ++ before, some last) := by
  induction h generalizing done with
  | @single r lines h =>
    have hnew := lhs_not_mem hnodup
    refine ⟨[], r, rfl, ?_⟩
    rw [List.append_nil]
    exact run_of_record (hregular r List.mem_cons_self) hnew h
  | @cons r records lines gap more h hgap hblank _ ih =>
    have hnew := lhs_not_mem hnodup
    obtain ⟨hr, hregular⟩ := List.forall_mem_cons.mp hregular
    rw [List.append_cons] at hnodup
    obtain ⟨before, last, rfl, hrun⟩ := ih hregular hnodup
    refine ⟨r :: before, last, rfl, ?_⟩
    rw [List.append_cons]
    exact (run_of_record hr hnew h).append ((run_of_gap hgap hblank done r).append hrun)

/-- A run is one of the reader, from any line number on. -/
theorem Run.exists_foldlM (h : Run lines s s') (n : Nat) (p : Progress) (hp : p.texts = s) :
    ∃ p', (lines.zipIdx n).foldlM (fun p (line, i) => Progress.take p (i + 1) line) p = .ok p' ∧ p'.texts = s' := by
  induction h generalizing n p with
  | nil s => exact ⟨p, rfl, hp⟩
  | cons htakes _ ih =>
    obtain ⟨mid, hmid, htexts⟩ := htakes (n + 1) p hp
    obtain ⟨p', hp', htexts'⟩ := ih (n + 1) mid htexts
    refine ⟨p', ?_, htexts'⟩
    rw [List.zipIdx_cons, List.foldlM_cons]
    show Progress.take p (n + 1) _ >>= _ = _
    rw [hmid]
    exact hp'

end Runs

/-! ## Reading texts -/

section Texts

variable {records : List RecordText} {text : List Char} {read : List Record}

/-- **The records of a text** are those that were written. -/
theorem exists_ofLines_of_written (hr : RegularRecords records) (hw : Written records text) :
    ∃ read, ofLines (Text.lines text) = .ok read ∧ read.map Record.text = records := by
  obtain ⟨front, body, back, lines, hfront, hbody, hback, hcommented, hended⟩ := hw
  obtain ⟨before, last, rfl, hrun⟩ := @run_of_paragraphs _ [] _ hbody hr.regular hr.nodup
  -- blank lines at the end complete the last record, but nothing has to
  obtain ⟨s, hback, hs⟩ : ∃ s, Run back (before, some last) s ∧ s.1 ++ s.2.toList = before ++ [last] := by
    by_cases hne : back = []
    · subst hne
      exact ⟨_, .nil _, rfl⟩
    · exact ⟨_, run_of_gap hne hback before last, by simp⟩
  have hall := ((run_of_blank hfront []).append (hrun.append hback)).of_commented hcommented
  obtain ⟨p, hp, rfl⟩ := hall.exists_foldlM 0 ⟨[], none⟩ rfl
  have htexts : p.records.map Record.text = before ++ [last] := by
    rw [← hs, Progress.records, Progress.texts, List.map_append]
    cases p.current <;> rfl
  have hfind : (p.records.find? fun r => r.alternatives.isEmpty) = none := by
    refine List.find?_eq_none.mpr fun r hmem hempty => ?_
    have hmem' : r.text ∈ before ++ [last] := htexts ▸ List.mem_map_of_mem hmem
    refine (hr.regular _ hmem').alternatives_ne_nil ?_
    simp [Record.text, List.isEmpty_iff.mp hempty]
  refine ⟨p.records, ?_, htexts⟩
  rw [ofLines, hended.lines_eq, bind_eq_ok_iff]
  refine ⟨p, hp, ?_⟩
  rw [hfind]

theorem symbolOf_eq (h : read.map Record.text = records) : symbolOf read = RecordText.symbolOf records := by
  funext name
  have hlhs : records.map RecordText.lhs = read.map Record.lhs := by rw [← h, List.map_map]; rfl
  simp only [symbolOf, RecordText.symbolOf, hlhs, List.any_eq_true, beq_iff_eq, List.mem_map]

/-- The steps of the records that were read are the calls of those that were written. -/
theorem map_snd_steps (h : read.map Record.text = records) :
    (read.flatMap (steps read)).map Prod.snd = records.flatMap (RecordText.calls records) := by
  rw [List.map_flatMap, ← h, List.flatMap_map]
  refine List.flatMap_congr fun r hr => ?_
  have hany : (read.any fun r' => r'.lhs == r.lhs) = true := List.any_eq_true.mpr ⟨r, hr, beq_self_eq_true _⟩
  have hlhs : symbolOf read r.lhs = .nonterminal r.lhs := if_pos hany
  simp only [steps, RecordText.calls, Record.text, List.map_map, hlhs, ← symbolOf_eq rfl]
  rfl

end Texts

end Record

/-! ## The calls of records -/

namespace RecordText

variable {records : List RecordText} {r : RecordText} {name name' : String} {call : DefinitionStep}

@[simp] theorem name_symbolOf (records : List RecordText) (name : String) : (symbolOf records name).name = name := by
  unfold symbolOf
  split <;> rfl

theorem symbolOf_injective (records : List RecordText) : Function.Injective (symbolOf records) :=
  Function.LeftInverse.injective (name_symbolOf records)

theorem isNonterminal_symbolOf : (symbolOf records name).isNonterminal = true ↔ name ∈ records.map lhs := by
  unfold symbolOf
  split <;> simp [Symbol.isNonterminal, *]

/-- Only the empty derivation is called by its name. -/
theorem eq_of_symbolOf_eq_epsilon (h : symbolOf records name = Symbol.epsilon) : name = "epsilon" := by
  rw [← name_symbolOf records name, h]
  rfl

theorem mem_calls : call ∈ r.calls records ↔
    ∃ a ∈ r.alternatives, call = .rule (.nonterminal r.lhs) (a.symbols.map (symbolOf records)) a.action := by
  simp [calls, eq_comm]

/-- Calls of regular alternatives are sensible. -/
theorem Regular.sensible (hr : r.Regular) : ∀ call ∈ r.calls records, call.Sensible := by
  intro call hcall
  obtain ⟨a, ha, rfl⟩ := mem_calls.mp hcall
  have hregular := hr.regular a ha
  refine ⟨rfl, by simpa using hregular.symbols_ne_nil, fun hepsilon => ?_⟩
  obtain ⟨name, hname, heq⟩ := List.mem_map.mp hepsilon
  obtain rfl := eq_of_symbolOf_eq_epsilon heq
  rw [hregular.epsilon_alone hname, List.map_singleton, heq]

/-- The calls of a record do not repeat each other. -/
theorem Regular.pairwise (hr : r.Regular) : (r.calls records).Pairwise fun c c' => ¬c.Repeats c' := by
  rw [calls, List.pairwise_map]
  refine (List.pairwise_map.mp hr.nodup).imp fun hne hrepeats => hne ?_
  exact (symbolOf_injective records).list_map hrepeats.2

end RecordText

namespace RegularRecords

variable {records : List RecordText}

theorem sensible (hr : RegularRecords records) :
    ∀ call ∈ records.flatMap (RecordText.calls records), call.Sensible := by
  intro call hcall
  obtain ⟨r, hmem, hcall⟩ := List.mem_flatMap.mp hcall
  exact (hr.regular r hmem).sensible call hcall

theorem pairwise (hr : RegularRecords records) :
    (records.flatMap (RecordText.calls records)).Pairwise fun c c' => ¬c.Repeats c' := by
  refine List.pairwise_flatMap.mpr ⟨fun r hmem => (hr.regular r hmem).pairwise, ?_⟩
  refine (List.pairwise_map.mp hr.nodup).imp fun hne c hc c' hc' hrepeats => hne ?_
  obtain ⟨a, _, rfl⟩ := RecordText.mem_calls.mp hc
  obtain ⟨a', _, rfl⟩ := RecordText.mem_calls.mp hc'
  exact Symbol.nonterminal.inj hrepeats.1

/-- The left-hand sides of the records are those of their calls. -/
theorem mem_lhsOrder_calls (hr : RegularRecords records) {name : String} (h : name ∈ records.map RecordText.lhs) :
    .nonterminal name ∈ lhsOrder (records.flatMap (RecordText.calls records)) := by
  obtain ⟨r, hmem, rfl⟩ := List.mem_map.mp h
  obtain ⟨a, alternatives, ha⟩ := List.exists_cons_of_ne_nil (hr.regular r hmem).alternatives_ne_nil
  refine mem_lhsOrder.mpr ⟨_, _, List.mem_flatMap.mpr ⟨r, hmem, RecordText.mem_calls.mpr ⟨a, ?_, rfl⟩⟩⟩
  rw [ha]
  exact List.mem_cons_self

/-- **The calls of records are enough for a grammar**, since only names with a record are nonterminals. -/
theorem complete (hr : RegularRecords records) : Complete (records.flatMap (RecordText.calls records)) where
  lhsOrder_ne_nil := by
    obtain ⟨r, more, rfl⟩ := List.exists_cons_of_ne_nil hr.ne_nil
    exact List.ne_nil_of_mem (hr.mem_lhsOrder_calls List.mem_cons_self)
  start_mem := by
    intro s hs
    obtain ⟨_ | s', hcall, hstart⟩ := List.mem_filterMap.mp (List.mem_of_getLast? hs)
    · cases hstart
    · obtain ⟨r, _, hcall⟩ := List.mem_flatMap.mp hcall
      obtain ⟨a, _, ha⟩ := RecordText.mem_calls.mp hcall
      cases ha
  closed := by
    intro lhs rhs action hcall s hs hn
    obtain ⟨r, _, hcall⟩ := List.mem_flatMap.mp hcall
    obtain ⟨a, _, ha⟩ := RecordText.mem_calls.mp hcall
    cases ha
    obtain ⟨name, _, rfl⟩ := List.mem_map.mp hs
    have hname := RecordText.isNonterminal_symbolOf.mp hn
    have hlhs := hr.mem_lhsOrder_calls hname
    rwa [← (if_pos hname : RecordText.symbolOf records name = _)] at hlhs

/-- **Records that can be written define a grammar.** -/
theorem exists_draft (hr : RegularRecords records) : ∃ d g,
    (records.flatMap (RecordText.calls records)).foldlM (fun d step => DefinitionStep.apply d step) .empty = .ok d ∧
      d.finish = .ok g :=
  ⟨_, _, @Draft.foldlM_of_sensible [] _ hr.sensible hr.pairwise,
    Draft.finish_ofGranted_eq_ok_iff.mpr ⟨hr.complete, rfl⟩⟩

end RegularRecords

namespace Grammar

variable {records : List RecordText} {text : List Char}

/-- **Whatever the layout, what was written is read.** A text of regular records is read as the grammar that the calls
for their alternatives define, in order; a name is a nonterminal exactly if one of the records, earlier or later, has it
as its left-hand side. -/
theorem read_of_written (hr : RegularRecords records) (hw : Written records text) :
    ∃ g, (read text).result = .ok g ∧ (define (records.flatMap (RecordText.calls records))).result = .ok g := by
  obtain ⟨read, hread, htexts⟩ := Record.exists_ofLines_of_written hr hw
  obtain ⟨d, g, hdraft, hfinish⟩ := hr.exists_draft
  refine ⟨g, ?_, define_of_draft hdraft hfinish⟩
  rw [← Record.map_snd_steps htexts] at hdraft
  rw [Grammar.read, Trail.result_bind, bind_eq_ok_iff]
  refine ⟨read, hread, ?_⟩
  rw [Trail.result_bind, bind_eq_ok_iff]
  refine ⟨(), rfl, ?_⟩
  rw [Trail.result_bind, Trail.result_foldlM, bind_eq_ok_iff]
  exact ⟨d, foldlM_lines_eq_ok_iff.mpr hdraft, hfinish⟩

section Sums

open TableParser.Symbol

/-- Sums of products; an action has a tab and a separator in it. -/
def sums : RecordText := ⟨"sum", [⟨["sum", "+", "product"], some "add:\ta | b"⟩, ⟨["product"], none⟩]⟩

/-- Products, with a symbol that looks like a comment. -/
def products : RecordText := ⟨"product", [⟨["//", "number:"], some "leaf"⟩]⟩

/-- The records in a text with comments, blank lines, and line ends of either kind. -/
def sumsText : List Char :=
  ("// sums\nsum\r\n\t: sum  + product\tadd:\ta | b\n  // or one of\n\t| product\r\n \n\n" ++
    "product\n\t| // number:\tleaf").toList

theorem written_sums : Written [sums, products] sumsText := by
  have hsum : Text.Spaced (["sum", "+", "product"].map String.toList) "sum  + product".toList :=
    .cons "sum".toList 1 (.cons "+".toList 0 (.single "product".toList))
  have hproduct : Text.Spaced (["product"].map String.toList) "product".toList := .single _
  have hsums : sums.Lines (["sum", "\t: sum  + product\tadd:\ta | b", "\t| product"].map String.toList) :=
    ⟨_, rfl, .cons (.mk ':' "sum  + product".toList (.inl rfl) hsum)
      (.cons (.mk '|' "product".toList (.inr rfl) hproduct) .nil)⟩
  have hnumber : Text.Spaced (["//", "number:"].map String.toList) "// number:".toList :=
    .cons "//".toList 0 (.single "number:".toList)
  have hproducts : products.Lines (["product", "\t| // number:\tleaf"].map String.toList) :=
    ⟨_, rfl, .cons (.mk '|' "// number:".toList (.inr rfl) hnumber) .nil⟩
  have hbody := Paragraphs.cons hsums (by decide : [[' '], []] ≠ []) (by decide) (.single hproducts)
  refine ⟨[], _, [], ["// sums", "sum", "\t: sum  + product\tadd:\ta | b", "  // or one of", "\t| product", " ", "",
    "product", "\t| // number:\tleaf"].map String.toList, by simp, hbody, by simp, ?_, ?_⟩
  · exact .insert ⟨[], " sums".toList, by decide, rfl⟩ <| .keep _ <| .keep _ <|
      .insert ⟨"  ".toList, " or one of".toList, by decide, rfl⟩ <|
      .keep _ <| .keep _ <| .keep _ <| .keep _ <| .keep _ .nil
  · exact .lf (by decide) (by decide) <| .crlf (by decide) <| .lf (by decide) (by decide) <|
      .lf (by decide) (by decide) <| .crlf (by decide) <| .lf (by decide) (by decide) <|
      .lf (by decide) (by decide) <| .lf (by decide) (by decide) <| .unended (by decide) (by decide)

/-- The text of sums is read as sums. -/
theorem read_of_written_sums : RegularRecords [sums, products] ∧ Written [sums, products] sumsText ∧
    ∃ g, (read sumsText).result = .ok g ∧ g.rules = [
      ⟨nonterminal "sum", [⟨[nonterminal "sum", terminal "+", nonterminal "product"], some "add:\ta | b"⟩,
        ⟨[nonterminal "product"], none⟩]⟩,
      ⟨nonterminal "product", [⟨[terminal "//", terminal "number:"], some "leaf"⟩]⟩] := by
  have hregular : RegularRecords [sums, products] := by decide
  have heval : ((define ([sums, products].flatMap (RecordText.calls [sums, products]))).result.toOption.any fun g =>
      g.rules = [
        ⟨nonterminal "sum", [⟨[nonterminal "sum", terminal "+", nonterminal "product"], some "add:\ta | b"⟩,
          ⟨[nonterminal "product"], none⟩]⟩,
        ⟨nonterminal "product", [⟨[terminal "//", terminal "number:"], some "leaf"⟩]⟩]) = true := by rfl
  obtain ⟨g, hread, hg⟩ := read_of_written hregular written_sums
  obtain ⟨g', hg', heval⟩ := exists_ok_of_any heval
  obtain rfl : g = g' := Except.ok.inj (hg.symm.trans hg')
  exact ⟨hregular, written_sums, g, hread, of_decide_eq_true heval⟩

end Sums

end Grammar

end TableParser
