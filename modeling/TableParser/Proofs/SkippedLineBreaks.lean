import TableParser.Proofs.LineBreaks
import TableParser.Proofs.SlrSafety

/-!
# Line breaks that a table has no use for

The shift/reduce driver skips a line break wherever its table refuses it, before it acts on the token behind. So if the
table has no use for line breaks (`ActionTable.Overlooks`), parses of two lists that differ in line breaks only go
abreast (`ActionTable.Abreast`): a parse that skips a line break waits for no one, and in front of any other token, or
after a reduction, both do the same.

* **One step** of the one parse is caught up with by some steps of the other (`ActionTable.Abreast.catches`).
* **Built tables** overlook line breaks if no alternative of the grammar has any (`LR.Table.Exact.overlooks`), so whole
  parses have the same outcome (`LR.Table.parse_of_lineBreaks`), unless there is no place behind one of the line breaks
  (`LR.Table.not_same_last_column`).
-/

namespace TableParser

open TokenList (Reading withoutLineBreaks)

/-! ## Tokens at hand and to come -/

namespace TokenList

variable {St S : Type} {tokens ahead : List Token} {source : TokenList} {t : Token}

/-- The tokens to come, if one of them may be at hand, when so much of a list was read. -/
def Coming (tokens : List Token) (peeked : Option Token) (source : TokenList) (ahead : List Token) : Prop :=
  match peeked with
  | some t => Reading tokens t source ahead
  | none => source.rest <:+ tokens ∧ source.endPosition = (ofList tokens).endPosition ∧ ahead = source.rest

theorem coming_start (tokens : List Token) : Coming tokens none (ofList tokens) tokens := ⟨List.suffix_rfl, rfl, rfl⟩

/-- Behind the token at hand come the others. -/
theorem Reading.coming_tail (h : Reading tokens t source ahead) : Coming tokens none source ahead.tail := by
  cases h with
  | listed t hcoming hend => exact ⟨(List.suffix_cons t _).trans hcoming, hend, rfl⟩
  | ended h => exact ⟨List.nil_suffix, h.symm, rfl⟩

/-- Looking at the next token fails for want of columns, or goes on reading the list. -/
theorem Coming.peeks {m : Machine St S} (h : Coming tokens m.peeked source ahead) :
    (m.peeked = none ∧ ∃ behind, TokenSource.next source = (.error (.fault .additionOverflow), behind)) ∨
      ∃ t behind, m.Peeks source t behind ∧ Reading tokens t behind ahead := by
  cases hp : m.peeked with
  | some t =>
    rw [hp] at h
    exact .inr ⟨t, source, .inl ⟨hp, rfl⟩, h⟩
  | none =>
    rw [hp] at h
    obtain ⟨hcoming, hend, rfl⟩ := h
    rcases Reading.pull hcoming hend with hoverflow | ⟨t, behind, hn, hreading⟩
    · exact .inl ⟨rfl, hoverflow⟩
    · exact .inr ⟨t, behind, .inr ⟨hp, hn⟩, hreading⟩

end TokenList

open TokenList (Coming)

/-- The same outcome of parses of two lists: the same tree or the same error, which may tell where its list ends. -/
inductive ListResult.Matches (tokens tokens' : List Token) : ListResult → ListResult → Prop
  | same (r : ListResult) : Matches tokens tokens' r r
  | invalidToken (text : String) {place place' : Position} (h : SamePlace tokens tokens' place place') :
      Matches tokens tokens' (.error (.error (.invalidToken text place))) (.error (.error (.invalidToken text place')))
  | unexpectedToken (text : String) {place place' : Position} (h : SamePlace tokens tokens' place place') :
      Matches tokens tokens' (.error (.error (.unexpectedToken text place)))
        (.error (.error (.unexpectedToken text place')))

/-! ## Steps side by side -/

namespace Machine

variable {St R : Type} {table : ActionTable St Symbol R} {tokens tokens' ahead ahead' : List Token}
  {m m' : Machine St Symbol} {source source' : TokenList} {q : St} {lookahead : Option Symbol}

/-- Two machines on two lists that differ in the line breaks to come only. -/
structure Abreast (tokens tokens' : List Token) (c c' : Machine St Symbol × TokenList) : Prop where
  states : c.1.states = c'.1.states
  items : c.1.items = c'.1.items
  mode : c.1.mode = c'.1.mode
  coming : ∃ ahead ahead', Coming tokens c.1.peeked c.2 ahead ∧ Coming tokens' c'.1.peeked c'.2 ahead' ∧
    withoutLineBreaks ahead = withoutLineBreaks ahead'

/-- Both steps fail, tell the same or go on, and leave the machines abreast. -/
inductive Together (tokens tokens' : List Token) :
    Step St Symbol R TokenList Empty → Step St Symbol R TokenList Empty → Prop
  | fails {failure failure' : Failure (ParseError Empty)}
      (h : ListResult.Matches tokens tokens' (.error failure) (.error failure')) (c c' : Machine St Symbol × TokenList) :
      Together tokens tokens' (.inr (.failed failure, c)) (.inr (.failed failure', c'))
  | event (e : ParseEvent Symbol R) {c c' : Machine St Symbol × TokenList} (hargs : c.1.args = c'.1.args)
      (h : Abreast tokens tokens' c c') : Together tokens tokens' (.inr (.event e, c)) (.inr (.event e, c'))
  | goes {c c' : Machine St Symbol × TokenList} (h : Abreast tokens tokens' c c') :
      Together tokens tokens' (.inl c) (.inl c')

/-- No line break is at hand, and nothing is looked up for the end of the input. -/
structure Sees (m : Machine St Symbol) (lookahead : Option Symbol) (t : Token) : Prop where
  peeked : m.peeked = some t
  kind_ne : t.kind ≠ .newline
  not_eof : lookahead ≠ none → t.isEndOfFile = false

/-- A token that is no line break is refused with an error. -/
theorem Sees.refuse_eq {t : Token} {cause : ActionError} (h : m.Sees lookahead t) (hm : m.mode ≠ .pendingGoto) :
    (refuse m source cause : Step St Symbol R TokenList Empty) =
      fail m source (.unexpectedToken t.render t.position) := by
  unfold refuse
  rw [h.peeked]
  cases hmode : m.mode with
  | pendingGoto => exact absurd hmode hm
  | reading => exact if_neg h.kind_ne
  | accepted => exact if_neg h.kind_ne

/-- What machines abreast have at hand, if both see a token. -/
theorem Abreast.sameToken {t u : Token} (h : Abreast tokens tokens' (m, source) (m', source')) (ht : m.Sees lookahead t)
    (hu : m'.Sees lookahead u) : SameToken tokens tokens' t u ∧ (lookahead ≠ none → t = u) ∧
      ∃ ahead ahead', Coming tokens none source ahead ∧ Coming tokens' none source' ahead' ∧
        withoutLineBreaks ahead = withoutLineBreaks ahead' := by
  obtain ⟨_, _, _, ahead, ahead', hc, hc', hsame⟩ := h
  dsimp only at hc hc'
  rw [ht.peeked] at hc
  rw [hu.peeked] at hc'
  have hreading : Reading tokens t source ahead := hc
  have hreading' : Reading tokens' u source' ahead' := hc'
  obtain ⟨htoken, htail⟩ := hreading.sameToken hreading' hsame ht.kind_ne hu.kind_ne
  refine ⟨htoken, fun hl => ?_, _, _, hreading.coming_tail, hreading'.coming_tail, htail⟩
  cases htoken with
  | listed t => rfl
  | ends _ _ => cases ht.not_eof hl

section Acts

variable (h : Abreast tokens tokens' (m, source) (m', source'))
  (hsees : m.mode ≠ .pendingGoto → ∃ t u, m.Sees lookahead t ∧ m'.Sees lookahead u)
include h hsees

theorem together_shift (r : St) :
    Together (R := R) tokens tokens' (shift m source r lookahead) (shift m' source' r lookahead) := by
  obtain ⟨hstates, hitems, hmode, hcoming⟩ := id h
  dsimp only at hstates hitems hmode hcoming
  by_cases hm : m.mode = .pendingGoto
  · simp only [shift, ← hmode, hm]
    apply Together.goes
    exact ⟨congrArg (r :: ·) hstates, hitems, rfl, hcoming⟩
  · obtain ⟨t, u, ht, hu⟩ := hsees hm
    obtain ⟨htoken, hlookahead, hcoming'⟩ := h.sameToken ht hu
    unfold shift
    rw [← hmode, ht.peeked, hu.peeked]
    cases lookahead with
    | none =>
      split
      · contradiction
      · exact .fails (.same _) _ _
    | some s =>
      obtain rfl := hlookahead (Option.some_ne_none s)
      split
      · contradiction
      · apply Together.goes
        exact ⟨congrArg (r :: ·) hstates, congrArg (StackItem.terminal s t :: ·) hitems, rfl, hcoming'⟩

theorem together_refuse (cause : ActionError) :
    Together (R := R) tokens tokens' (refuse m source cause) (refuse m' source' cause) := by
  have hmode : m.mode = m'.mode := h.mode
  by_cases hm : m.mode = .pendingGoto
  · simp only [refuse, ← hmode, hm]
    exact .fails (.same _) _ _
  · obtain ⟨t, u, ht, hu⟩ := hsees hm
    obtain ⟨htoken, _⟩ := h.sameToken ht hu
    rw [ht.refuse_eq hm, hu.refuse_eq (hmode ▸ hm), ← htoken.render_eq]
    exact .fails (.unexpectedToken t.render htoken.samePlace) _ _

omit hsees in
theorem together_reduce (id : R) (lhs : Symbol) (arity : Nat) :
    Together tokens tokens' (reduce m source id lhs arity) (reduce m' source' id lhs arity) := by
  obtain ⟨hstates, hitems, _, hcoming⟩ := h
  dsimp only at hstates hitems hcoming
  unfold reduce
  rw [← hstates, ← hitems]
  split
  · exact .fails (.same _) _ _
  · exact .event _ rfl ⟨rfl, rfl, rfl, hcoming⟩

omit hsees in
theorem together_accept : Together (R := R) tokens tokens' (accept m source) (accept m' source') := by
  obtain ⟨hstates, hitems, _, hcoming⟩ := h
  dsimp only at hstates hitems hcoming
  unfold accept
  rw [← hitems]
  split
  · exact .fails (.same _) _ _
  · exact .event _ rfl ⟨hstates, rfl, rfl, hcoming⟩

/-- **Machines abreast do the same**, after a reduction or in front of a token that is no line break. -/
theorem together_act : Together tokens tokens' (act table m source q lookahead) (act table m' source' q lookahead) := by
  unfold act
  cases table.action q lookahead with
  | error f => exact .fails (.same _) _ _
  | ok action =>
    cases action with
    | shift r => exact together_shift h hsees r
    | reduce id lhs arity => exact together_reduce h id lhs arity
    | accept => exact together_accept h
    | error cause => exact together_refuse h hsees cause

end Acts

end Machine

namespace ActionTable

variable {St R : Type} {table : ActionTable St Symbol R} {tokens tokens' ahead ahead' : List Token}
  {m m' : Machine St Symbol} {source source' behind behind' : TokenList} {b : TreeBuild Symbol} {q : St}
  {states : List St} {t u : Token} {lookahead : Option Symbol}

/-- A table that has no use for line breaks, and asks for the classes and the texts of tokens only. -/
structure Overlooks (table : ActionTable St Symbol R) : Prop where
  newline : ∀ q t s, t.kind = .newline → table.terminal t = some s →
    ∃ cause, table.action q (some s) = .ok (.error cause)
  terminal_congr : ∀ t u, t.kind = u.kind → t.text = u.text → table.terminal t = table.terminal u

/-- Two configurations of parses of two lists that differ in the line breaks to come only. -/
def Abreast (tokens tokens' : List Token) (c c' : ParseConfig St Symbol TokenList) : Prop :=
  Machine.Abreast tokens tokens' c.1 c'.1 ∧ c.2 = c'.2

/-- How the second parse catches up with a step of the first one. -/
abbrev Catches (table : ActionTable St Symbol R) (tokens tokens' : List Token) :=
  CatchesUp table.parseStep (Abreast tokens tokens') (ListResult.Matches tokens tokens') ListResult.overflow

/-- Machines that do the same keep their parses abreast. -/
theorem catches_of_together {x x' : Machine.Step St Symbol R TokenList Empty} {c' : ParseConfig St Symbol TokenList}
    (h : Machine.Together tokens tokens' x x') (hstep : table.parseStep c' = outcome b x') :
    Catches table tokens tokens' c' (outcome b x) := by
  cases h with
  | fails h c c' => exact .answers (answers_of_step hstep) h
  | goes h => exact .goes (reaches_of_step hstep) ⟨h, rfl⟩
  | event e hargs h =>
    cases e with
    | reduce id lhs =>
      simp only [outcome, build, ← hargs] at hstep ⊢
      cases hb : b.reduce? lhs _ with
      | none =>
        rw [hb] at hstep
        exact .answers (answers_of_step hstep) (.same _)
      | some b' =>
        rw [hb] at hstep
        exact .goes (reaches_of_step hstep) ⟨h, rfl⟩
    | accept =>
      simp only [outcome, build] at hstep ⊢
      cases hb : b.finish? with
      | none =>
        rw [hb] at hstep
        exact .answers (answers_of_step hstep) (.same _)
      | some tree =>
        rw [hb] at hstep
        exact .answers (answers_of_step hstep) (.same _)

/-! ## One step -/

/-- For want of columns a parse ends when it looks at the next token. -/
theorem parseStep_overflow (hm : m.mode = .reading) (hs : m.states = q :: states) (hp : m.peeked = none)
    (hn : TokenSource.next source = (.error (.fault .additionOverflow), behind)) :
    table.parseStep ((m, source), b) = .inr ListResult.overflow := by
  unfold parseStep Machine.step
  simp only [hm, hs, hp, hn]
  rfl

/-- The line breaks at hand are skipped. -/
theorem reaches_behind_newlines (ho : table.Overlooks) (hm : m.mode = .reading) (hs : m.states = q :: states)
    (h : Coming tokens m.peeked source ahead) :
    Answers table.parseStep ((m, source), b) ListResult.overflow ∨
      ∃ peeked source' u behind ahead',
        Reaches table.parseStep ((m, source), b) (({ m with peeked := peeked }, source'), b) ∧
        Machine.Peeks { m with peeked := peeked } source' u behind ∧ Reading tokens u behind ahead' ∧
        withoutLineBreaks ahead' = withoutLineBreaks ahead ∧ u.kind ≠ .newline := by
  induction ahead generalizing m source with
  | nil =>
    rcases h.peeks with ⟨hp, behind, hn⟩ | ⟨t, behind, hp, hreading⟩
    · exact .inl (answers_of_step (parseStep_overflow hm hs hp hn))
    · refine .inr ⟨m.peeked, source, t, behind, [], .refl, hp, hreading, rfl, ?_⟩
      cases hreading
      exact nofun
  | cons first ahead ih =>
    rcases h.peeks with ⟨hp, behind, hn⟩ | ⟨t, behind, hp, hreading⟩
    · exact .inl (answers_of_step (parseStep_overflow hm hs hp hn))
    by_cases ht : t.kind = .newline
    · obtain ⟨_, hahead⟩ := hreading.of_newline ht
      obtain rfl := (List.cons.inj hahead).1
      have hstep : table.parseStep ((m, source), b) = .inl (({ m with peeked := none }, behind), b) :=
        parseStep_skip hm hs hp ht fun s hl => ho.newline q first s ht hl
      have htail : Coming tokens none behind ahead := hreading.coming_tail
      rw [TokenList.withoutLineBreaks_cons_newline ht]
      rcases ih (m := { m with peeked := none }) hm hs htail with
        hoverflow | ⟨peeked, source', u, behind', ahead', hreach, hrest⟩
      · exact .inl ((reaches_of_step hstep).answers hoverflow)
      · exact .inr ⟨peeked, source', u, behind', ahead', (reaches_of_step hstep).trans hreach, hrest⟩
    · exact .inr ⟨m.peeked, source, t, behind, first :: ahead, .refl, hp, hreading, rfl, ht⟩

/-- In front of something else than a line break, parses that are abreast do the same. -/
theorem catches_of_peeks (ho : table.Overlooks) (hm : m.mode = .reading) (hm' : m'.mode = .reading)
    (hs : m.states = q :: states) (hs' : m'.states = q :: states) (hitems : m.items = m'.items)
    (hp : m.Peeks source t behind) (hp' : m'.Peeks source' u behind') (h : Reading tokens t behind ahead)
    (h' : Reading tokens' u behind' ahead') (hsame : withoutLineBreaks ahead = withoutLineBreaks ahead')
    (ht : t.kind ≠ .newline) (hu : u.kind ≠ .newline) :
    Catches table tokens tokens' ((m', source'), b) (table.parseStep ((m, source), b)) := by
  obtain ⟨htoken, _⟩ := h.sameToken h' hsame ht hu
  have heof : t.isEndOfFile = u.isEndOfFile := congrArg (· == TokenKind.endOfFile) htoken.kind_eq
  have hterminal := ho.terminal_congr t u htoken.kind_eq htoken.text_eq
  have habreast : Machine.Abreast tokens tokens' (holding m t, behind) (holding m' u, behind') :=
    ⟨hs.trans hs'.symm, hitems, hm.trans hm'.symm, ahead, ahead', h, h', hsame⟩
  by_cases hlooks : ∃ lookahead, table.Looks t lookahead
  · obtain ⟨lookahead, hl⟩ := hlooks
    have hl' : table.Looks u lookahead := by
      unfold Looks at hl ⊢
      rwa [← heof, ← hterminal]
    have hnot : lookahead ≠ none → t.isEndOfFile = false := by
      rcases hl with ⟨_, hnone⟩ | ⟨he, _⟩
      · exact fun hne => absurd hnone hne
      · exact fun _ => he
    have hsees : (holding m t).mode ≠ .pendingGoto → ∃ x y, (holding m t).Sees lookahead x ∧
        (holding m' u).Sees lookahead y := fun _ => ⟨t, u, ⟨rfl, ht, hnot⟩, rfl, hu, heof ▸ hnot⟩
    rw [parseStep_eq_outcome, step_eq_act hm hs hp hl]
    apply catches_of_together (Machine.together_act habreast hsees)
    rw [parseStep_eq_outcome, step_eq_act hm' hs' hp' hl']
  · -- neither token stands for a terminal
    obtain ⟨he, hnone⟩ := not_looks hlooks
    have hstep' : table.parseStep ((m', source'), b) =
        .inr (.error (.error (.invalidToken t.text u.position))) := by
      rw [parseStep_eq_outcome, step_eq_look hm' hs' hp']
      simp only [Machine.look, ← heof, he, ← hterminal, hnone, hu, htoken.text_eq, if_false, Bool.false_eq_true]
      rfl
    have hstep : table.parseStep ((m, source), b) = .inr (.error (.error (.invalidToken t.text t.position))) := by
      rw [parseStep_eq_outcome, step_eq_look hm hs hp]
      simp only [Machine.look, he, hnone, ht, if_false, Bool.false_eq_true]
      rfl
    rw [hstep]
    exact .answers (answers_of_step hstep') (.invalidToken t.text htoken.samePlace)

/-- A parse that is not about to look at a token does the same as one that is abreast. -/
theorem catches_of_not_reading {c' : ParseConfig St Symbol TokenList} (h : Abreast tokens tokens' ((m, source), b) c')
    (hm : m.mode ≠ .reading ∨ m.states = []) : Catches table tokens tokens' c' (table.parseStep ((m, source), b)) := by
  obtain ⟨⟨m', source'⟩, b'⟩ := c'
  obtain ⟨h, rfl⟩ := h
  rw [parseStep_eq_outcome]
  refine catches_of_together ?_ (parseStep_eq_outcome table m' source' b)
  obtain ⟨hstates, hitems, hmode, _⟩ := id h
  dsimp only at hstates hitems hmode
  unfold Machine.step
  simp only [← hstates, ← hitems, ← hmode]
  cases hmode : m.mode with
  | accepted => exact .fails (.same _) _ _
  | pendingGoto =>
    cases hs : m.states with
    | nil => exact .fails (.same _) _ _
    | cons q states =>
      cases hi : m.items with
      | nil => exact .fails (.same _) _ _
      | cons item items => exact Machine.together_act h fun hne => absurd hmode hne
  | reading =>
    cases hs : m.states with
    | nil => exact .fails (.same _) _ _
    | cons q states =>
      rcases hm with hm | hm
      · exact absurd hmode hm
      · cases hs.symm.trans hm

/-- **A step of the one parse is caught up with by the other.** -/
theorem Abreast.catches (ho : table.Overlooks) {c c' : ParseConfig St Symbol TokenList} (h : Abreast tokens tokens' c c') :
    Catches table tokens tokens' c' (table.parseStep c) := by
  obtain ⟨⟨m, source⟩, b⟩ := c
  by_cases hm : m.mode = .reading
  swap
  · exact catches_of_not_reading h (.inl hm)
  cases hs : m.states with
  | nil => exact catches_of_not_reading h (.inr hs)
  | cons q states =>
    obtain ⟨⟨m', source'⟩, b'⟩ := c'
    obtain ⟨⟨hstates, hitems, hmode, ahead, ahead', hc, hc', hsame⟩, rfl⟩ := h
    dsimp only at hstates hitems hmode hc hc'
    rcases hc.peeks with ⟨hp, behind, hn⟩ | ⟨t, behind, hp, hreading⟩
    · rw [parseStep_overflow hm hs hp hn]
      exact .stops
    by_cases ht : t.kind = .newline
    · -- the second parse waits
      rw [parseStep_skip hm hs hp ht fun s hl => ho.newline q t s ht hl]
      rw [(hreading.of_newline ht).2, TokenList.withoutLineBreaks_cons_newline ht] at hsame
      exact .goes .refl ⟨⟨hstates, hitems, hmode, ahead.tail, ahead', hreading.coming_tail, hc', hsame⟩, rfl⟩
    · -- the second parse first skips its line breaks
      have hm' := hmode.symm.trans hm
      have hs' := hstates.symm.trans hs
      rcases reaches_behind_newlines ho hm' hs' hc' with
        hoverflow | ⟨peeked, source'', u, behind', ahead'', hreach, hp', hreading', hsame', hu⟩
      · exact .stopped hoverflow
      · refine .of_reaches hreach ?_
        exact catches_of_peeks ho hm hm' hs hs' hitems hp hp' hreading hreading' (hsame.trans hsame'.symm) ht hu

/-- Parses of a table that overlooks line breaks have the same outcome on lists with the same other tokens. -/
theorem parse_of_overlooks (ho : table.Overlooks) (hsame : withoutLineBreaks tokens = withoutLineBreaks tokens')
    {fuel : Nat} {r : ListResult} (h : table.parse fuel (TokenList.ofList tokens) = some r) (hr : r ≠ ListResult.overflow) :
    ∃ fuel' r', table.parse fuel' (TokenList.ofList tokens') = some r' ∧
      (r' = ListResult.overflow ∨ ListResult.Matches tokens tokens' r r') := by
  have hstart : Abreast tokens tokens' ((.start table.initial, TokenList.ofList tokens), .empty)
      ((.start table.initial, TokenList.ofList tokens'), .empty) :=
    ⟨⟨rfl, rfl, rfl, tokens, tokens', TokenList.coming_start tokens, TokenList.coming_start tokens', hsame⟩, rfl⟩
  obtain ⟨r', ⟨fuel', hf⟩, hr'⟩ := Answers.of_catchesUp (fun _ _ hc => hc.catches ho) hstart ⟨fuel, h⟩ hr
  exact ⟨fuel', r', hf, hr'⟩

end ActionTable

/-! ## Built tables -/

namespace LR.Table

variable {g : Grammar} {start accept : Symbol} {follow : FollowSets} {sets : List ItemSet} {a : Automaton} {t : Table}
  {tokens tokens' : List Token}

/-- Actions are on terminals of the grammar and on the end marker. -/
theorem Exact.mem_of_action (ht : Table.Exact g start accept follow sets a t) {q : StateId} {s : Symbol}
    {act : TableAction} (h : t.actions.get? q s = some act) : s ∈ Symbol.endMarker :: t.grammar.terminals := by
  cases ht.action q s act h with
  | shift hedge hs =>
    obtain ⟨i, rule, b, _, htarget, _, hnext⟩ := Automaton.Has.exists_of_edge ht.automaton rfl hedge
    have hproduces := (Grammar.produces_of_target? htarget).2
    apply List.mem_cons_of_mem
    exact Grammar.mem_terminals.mpr ⟨hs, rule.lhs, b, hproduces, List.mem_of_getElem? hnext⟩
  | reduce _ _ _ _ hs _ =>
    exact FollowSets.members_ofGrammar_subset (FirstSets.members_ofGrammar_subset t.grammar) ht.follow_eq _ s hs
  | accept _ _ _ _ hs =>
    rw [hs]
    exact List.mem_cons_self

/-- **Built tables overlook line breaks** if the grammar has none. -/
theorem Exact.overlooks (ht : Table.Exact g start accept follow sets a t) (hn : Symbol.newline ∉ g.terminals) :
    t.table.Overlooks := by
  constructor
  · intro q token s hkind hs
    have hfind : t.terminals.find? token = some s := hs
    have hnewline : t.terminals.find? token = some Symbol.newline := by
      unfold TerminalMap.find?
      rw [hkind]
    obtain rfl := Option.some.inj (hnewline.symm.trans hfind)
    cases hget : t.actions.get? q Symbol.newline with
    | none =>
      have haction : t.action q (some Symbol.newline) = _ := action_terminal rfl
      rw [Option.getD_some, hget] at haction
      exact ⟨.incorrectSymbol, haction⟩
    | some act =>
      have hmem := (List.mem_cons.mp (ht.mem_of_action hget)).resolve_left (by decide)
      rw [ht.augmented.terminals_eq] at hmem
      exact absurd hmem hn
  · intro token token' hkind htext
    show t.terminals.find? token = t.terminals.find? token'
    unfold TerminalMap.find?
    rw [hkind, htext]

/-- A parse ends for want of columns only if no place comes after one of the tokens. -/
theorem exists_after_of_overflow (hg : g.WellFormed) (ht : (Table.build g).result = .ok t) {fuel : Nat}
    (h : t.parse fuel (TokenList.ofList tokens) = some ListResult.overflow) :
    ∃ u ∈ tokens, TokenList.after u = .error .additionOverflow := by
  obtain ⟨done, last, behind, hpulls, hn⟩ := fault_of_parse hg ht h
  exact (TokenList.exists_after_of_failure hpulls hn).2

/-- **Line breaks do not change the outcome of a shift/reduce parse** if the grammar has none, conflicts or not: whenever
the parse of a list ends, and not for want of columns, so does that of every list with the same tokens but for line
breaks, in the same way or for want of columns there. -/
theorem parse_of_lineBreaks {steps : List DefinitionStep} (hg : (Grammar.define steps).result = .ok g)
    (ht : (Table.build g).result = .ok t) (hn : Symbol.newline ∉ g.terminals)
    (hsame : withoutLineBreaks tokens = withoutLineBreaks tokens') {fuel : Nat} {r : ListResult}
    (h : t.parse fuel (TokenList.ofList tokens) = some r) (hr : r ≠ ListResult.overflow) :
    ∃ fuel' r', t.parse fuel' (TokenList.ofList tokens') = some r' ∧
      (r' = ListResult.overflow ∧ (∃ u ∈ tokens', TokenList.after u = .error .additionOverflow) ∨
        ListResult.Matches tokens tokens' r r') := by
  have hwell := wellFormed_of_define hg
  obtain ⟨start, accept, follow, sets, a, hexact⟩ := exact_of_build hwell ht
  obtain ⟨fuel', r', hf, rfl | hmatches⟩ := ActionTable.parse_of_overlooks (hexact.overlooks hn) hsame h hr
  · exact ⟨fuel', ListResult.overflow, hf, .inl ⟨rfl, exists_after_of_overflow hwell ht hf⟩⟩
  · exact ⟨fuel', r', hf, .inr hmatches⟩

section Samples

open TableParser.Symbol

/-- A sum of two letters. -/
def letterSum : List Token := [⟨.identifier, "a", ⟨1, 1⟩⟩, ⟨.positive, "+", ⟨1, 3⟩⟩, ⟨.identifier, "a", ⟨1, 5⟩⟩]

/-- The same sum with line breaks in front, in the middle and at the end. -/
def letterSumLines : List Token := [⟨.newline, "\n", ⟨1, 1⟩⟩, ⟨.identifier, "a", ⟨1, 1⟩⟩, ⟨.newline, "\n", ⟨1, 2⟩⟩,
  ⟨.positive, "+", ⟨1, 3⟩⟩, ⟨.newline, "\n", ⟨1, 4⟩⟩, ⟨.newline, "\n", ⟨2, 1⟩⟩, ⟨.identifier, "a", ⟨1, 5⟩⟩,
  ⟨.newline, "\n", ⟨1, 6⟩⟩]

set_option maxRecDepth 10000 in
/-- A sum is parsed in the same way when it is spread over several lines, by a table with conflicts. -/
theorem parse_of_lineBreaks_sum : ∃ g t tree, (Grammar.define ambiguousSteps).result = .ok g ∧
    (Table.build g).result = .ok t ∧ t.conflicts.length = 3 ∧ newline ∉ g.terminals ∧
    withoutLineBreaks letterSum = withoutLineBreaks letterSumLines ∧
    t.parse 30 (TokenList.ofList letterSum) = some (.ok tree) ∧ (.ok tree : ListResult) ≠ ListResult.overflow ∧
    ∃ fuel' r', t.parse fuel' (TokenList.ofList letterSumLines) = some r' ∧
      (r' = ListResult.overflow ∧ (∃ u ∈ letterSumLines, TokenList.after u = .error .additionOverflow) ∨
        ListResult.Matches letterSum letterSumLines (.ok tree) r') := by
  have heval : ((Grammar.define ambiguousSteps).result.toOption.any fun g =>
      (Table.build g).result.toOption.any fun t => t.conflicts.length == 3 && decide (newline ∉ g.terminals) &&
        ((t.parse 30 (TokenList.ofList letterSum)).bind Except.toOption).isSome) = true := by rfl
  obtain ⟨g, hg, heval⟩ := exists_ok_of_any heval
  obtain ⟨t, ht, heval⟩ := exists_ok_of_any heval
  simp only [Bool.and_eq_true, beq_iff_eq, decide_eq_true_eq] at heval
  obtain ⟨⟨hconflicts, hn⟩, hparse⟩ := heval
  obtain ⟨tree, hparse⟩ := exists_answer_of_isSome hparse
  have hsame : withoutLineBreaks letterSum = withoutLineBreaks letterSumLines := by decide
  exact ⟨g, t, tree, hg, ht, hconflicts, hn, hsame, hparse, nofun, parse_of_lineBreaks hg ht hn hsame hparse nofun⟩

/-- A letter and a line break in the last column. -/
def lastColumn : List Token := [⟨.identifier, "a", ⟨1, 1⟩⟩, ⟨.newline, "\n", ⟨1, 4294967295⟩⟩]

/-- A line break without a place behind it does not go unnoticed. -/
theorem not_same_last_column : ∃ g t tree, (Grammar.define (LL.Parser.sentenceSteps [terminal "a"])).result = .ok g ∧
    (Table.build g).result = .ok t ∧ newline ∉ g.terminals ∧
    withoutLineBreaks LL.Parser.letter = withoutLineBreaks lastColumn ∧
    t.parse 9 (TokenList.ofList LL.Parser.letter) = some (.ok tree) ∧
    t.parse 9 (TokenList.ofList lastColumn) = some ListResult.overflow := by
  have heval : ((Grammar.define (LL.Parser.sentenceSteps [terminal "a"])).result.toOption.any fun g =>
      (Table.build g).result.toOption.any fun t => decide (newline ∉ g.terminals) &&
        ((t.parse 9 (TokenList.ofList LL.Parser.letter)).bind Except.toOption).isSome &&
        t.parse 9 (TokenList.ofList lastColumn) == some ListResult.overflow) = true := by rfl
  obtain ⟨g, hg, heval⟩ := exists_ok_of_any heval
  obtain ⟨t, ht, heval⟩ := exists_ok_of_any heval
  simp only [Bool.and_eq_true, beq_iff_eq, decide_eq_true_eq] at heval
  obtain ⟨⟨hn, hletter⟩, hlast⟩ := heval
  obtain ⟨tree, hletter⟩ := exists_answer_of_isSome hletter
  exact ⟨g, t, tree, hg, ht, hn, by decide, hletter, hlast⟩

end Samples

end LR.Table
end TableParser
