import TableParser.Proofs.Resaving
import TableParser.Proofs.SlrTermination

/-!
# What loaded parsers fault for

The references of a loaded parser all lead somewhere, so its driver and its dump never fault for a number that names
nothing. What loading does not ask for are the other conditions of their faults: that there is a rule to start with, that
the end marker stands on no right-hand side, and that the states have numbers of sixteen bits.

* **Parses** (`CompiledParser.Unasked`): a loaded LL(1) parser faults for the first two, a table for neither.
* **Dumps** (`LR.Table.Resolved.dump_cases`): only the dump of a table with too many states stops.
* **All of them happen** (`CompiledParser.not_runnable_files`).
-/

namespace TableParser

/-! ## Running all parts -/

namespace Trail

variable {ω ε : Type} {parts : List (Trail ω ε Unit)}

theorem result_all_cons (t : Trail ω ε Unit) (rest : List (Trail ω ε Unit)) :
    (all (t :: rest)).result = t.result >>= fun _ => (all rest).result := result_bind t fun _ => all rest

/-- All parts succeed when each of them does. -/
theorem result_all_iff : (all parts).result = .ok () ↔ ∀ t ∈ parts, t.result = .ok () := by
  induction parts with
  | nil => exact iff_of_true rfl nofun
  | cons t rest ih =>
    rw [result_all_cons, bind_eq_ok_iff, List.forall_mem_cons, ← ih]
    exact ⟨fun ⟨_, ht, hrest⟩ => ⟨ht, hrest⟩, fun ⟨ht, hrest⟩ => ⟨(), ht, hrest⟩⟩

/-- They fail as one of them does. -/
theorem exists_of_result_all {e : ε} (h : (all parts).result = .error e) : ∃ t ∈ parts, t.result = .error e := by
  induction parts with
  | nil => cases h
  | cons t rest ih =>
    rw [result_all_cons] at h
    cases ht : t.result with
    | error e' =>
      rw [ht] at h
      cases h
      exact ⟨t, List.mem_cons_self, ht⟩
    | ok _ =>
      rw [ht] at h
      obtain ⟨u, hu, hfails⟩ := ih h
      exact ⟨u, List.mem_cons_of_mem t hu, hfails⟩

end Trail

/-! ## Loaded LL(1) parsers -/

theorem Grammar.exists_renderAlternative {g : Grammar} {id : AlternativeId} (h : g.hasAlternative id = true) :
    ∃ text, g.renderAlternative id = .ok text := by
  obtain ⟨⟨r, a⟩, htarget⟩ := Option.isSome_iff_exists.mp h
  exact ⟨_, map_eq_ok_iff.mpr ⟨(r, a), Grammar.target_eq_ok.mpr htarget, rfl⟩⟩

namespace LL.Parser

variable {p : Parser} {lists : Form.SymbolLists}

theorem Resolved.grounded (h : p.Resolved lists) : p.Grounded where
  hasAlternative lhs t id hget := (h.entry lhs t id (Matrix.mem_toList_of_get? hget)).2.2
  start_nonterminal start hstart := by
    unfold Grammar.start at hstart
    split at hstart
    · cases hstart
    · rename_i r rules hrules
      cases hstart
      exact (h.grammar r (hrules ▸ List.mem_cons_self)).lhs_nonterminal

/-- A loaded LL(1) parser can always be dumped. -/
theorem Resolved.result_dump (h : p.Resolved lists) : p.dump.result = .ok () := by
  have hentries : (Trail.all (p.entries.toList.map p.dumpEntry)).result = .ok () := by
    refine Trail.result_all_iff.mpr fun t ht => ?_
    obtain ⟨⟨lhs, terminal, id⟩, hmem, rfl⟩ := List.mem_map.mp ht
    obtain ⟨text, htext⟩ := Grammar.exists_renderAlternative (h.entry lhs terminal id hmem).2.2
    simp only [dumpEntry, Trail.result_bind, Trail.result_put, Trail.result_lift, htext]
    rfl
  simp only [dump, Trail.result_bind, Trail.result_put, hentries]
  rfl

/-- A parser without rules faults on every input. -/
theorem parse_of_rules_eq_nil {σ ε : Type} [TokenSource σ ε] (h : p.grammar.rules = []) (fuel : Nat) (source : σ) :
    p.parse fuel source = some (.error (.fault .emptyGrammar)) := by
  have hstart : p.grammar.start = .error .emptyGrammar := by
    unfold Grammar.start
    rw [h]
  simp only [parse, PredictiveTable.parse, table, hstart]

end LL.Parser

/-! ## Loaded tables -/

/-- A row lists entries of the table. -/
theorem Matrix.mem_toList_of_mem_row {κ₁ κ₂ ν : Type} [DecidableEq κ₁] {m : Matrix κ₁ κ₂ ν} {k₁ : κ₁} {k₂ : κ₂} {v : ν}
    (h : (k₂, v) ∈ m.row k₁) : (k₁, k₂, v) ∈ m.toList := by
  obtain ⟨⟨⟨a, b⟩, w⟩, hentry, hrow⟩ := List.mem_filterMap.mp h
  refine List.mem_map.mpr ⟨_, hentry, ?_⟩
  dsimp only at hrow
  split at hrow
  · rename_i ha
    cases hrow
    rw [ha]
  · cases hrow

namespace LR.Table

variable {t : Table} {lists : Form.SymbolLists}

theorem Resolved.grounded (h : t.Resolved lists) : t.Grounded := fun q s id hget =>
  (h.action q s (.reduce id) (Matrix.mem_toList_of_get? hget)).2.2

/-- An action of a loaded table has a text: the alternative it reduces by is one of the grammar. -/
theorem Resolved.exists_render (h : t.Resolved lists) {q : StateId} {s : Symbol} {action : TableAction}
    (hmem : (q, s, action) ∈ t.actions.toList) : ∃ text, action.render t.grammar = .ok text := by
  cases action with
  | shift target => exact ⟨_, rfl⟩
  | reduce id =>
    obtain ⟨text, htext⟩ := Grammar.exists_renderAlternative (h.action q s (.reduce id) hmem).2.2
    exact ⟨_, map_eq_ok_iff.mpr ⟨text, htext, rfl⟩⟩
  | accept => exact ⟨_, rfl⟩

/-- A state whose number fits can be dumped. -/
theorem Resolved.result_dumpState (h : t.Resolved lists) {number : Nat} (hfits : number < wordLimit) :
    (t.dumpState number).result = .ok () := by
  have hid : StateId.ofIndex number = .ok ⟨number.toUInt16⟩ := if_neg (Nat.not_le_of_lt hfits)
  simp only [dumpState, Trail.result_bind, Trail.result_put, Trail.result_putAll, Trail.result_lift, hid]
  -- what is left to fail are the lines of the actions
  refine congrArg (· >>= fun _ => .ok ()) (Trail.result_all_iff.mpr fun part hpart => ?_)
  obtain ⟨⟨s, action⟩, hmem, rfl⟩ := List.mem_map.mp hpart
  obtain ⟨text, htext⟩ := h.exists_render (Matrix.mem_toList_of_mem_row hmem)
  simp only [Trail.result_bind, Trail.result_put, Trail.result_lift, htext]
  rfl

theorem result_dumpState_of_le {number : Nat} (h : wordLimit ≤ number) :
    (t.dumpState number).result = .error .tooManyStates := by
  have hid : StateId.ofIndex number = .error .tooManyStates := if_pos h
  simp only [dumpState, Trail.result_bind, Trail.result_lift, hid]
  rfl

/-- **A loaded table can be dumped if the numbers of its states fit**, and else the dump stops for that reason. -/
theorem Resolved.dump_cases (h : t.Resolved lists) (hautomaton : t.automaton = none) :
    t.stateCount ≤ wordLimit ∧ t.dump.result = .ok () ∨
      wordLimit < t.stateCount ∧ t.dump.result = .error .tooManyStates := by
  have hdump : t.dump.result = (Trail.all ((List.range (min t.stateCount (wordLimit + 1))).map t.dumpState)).result := by
    simp only [dump, hautomaton, Trail.result_bind, Trail.result_put]
    rfl
  rw [hdump]
  rcases Nat.lt_or_ge wordLimit t.stateCount with hmany | hfew
  · right
    refine ⟨hmany, ?_⟩
    cases hresult : (Trail.all ((List.range (min t.stateCount (wordLimit + 1))).map t.dumpState)).result with
    | ok _ =>
      -- the first number that does not fit is reached
      have hlast : wordLimit ∈ List.range (min t.stateCount (wordLimit + 1)) := List.mem_range.mpr (by omega)
      have hok := Trail.result_all_iff.mp hresult _ (List.mem_map_of_mem hlast)
      rw [result_dumpState_of_le (Nat.le_refl _)] at hok
      cases hok
    | error f =>
      obtain ⟨part, hpart, hfails⟩ := Trail.exists_of_result_all hresult
      obtain ⟨number, _, rfl⟩ := List.mem_map.mp hpart
      rcases Nat.lt_or_ge number wordLimit with hfits | hbeyond
      · rw [h.result_dumpState hfits] at hfails
        cases hfails
      · rw [result_dumpState_of_le hbeyond] at hfails
        exact hfails.symm
  · left
    refine ⟨hfew, Trail.result_all_iff.mpr fun part hpart => ?_⟩
    obtain ⟨number, hnumber, rfl⟩ := List.mem_map.mp hpart
    have hlt := List.mem_range.mp hnumber
    exact h.result_dumpState (by omega)

end LR.Table

/-! ## All loaded parsers -/

namespace CompiledParser

open TokenList (after)

/-- The parser as text. -/
def dump : CompiledParser → Trail String Fault Unit
  | .ll p => p.dump
  | .lr t => t.dump

/-- What loading does not ask of the grammar of an LL(1) parser, with the fault of its parses for want of it. -/
inductive Unasked : CompiledParser → Fault → Prop
  | noRules {p : LL.Parser} (h : p.grammar.rules = []) : Unasked (.ll p) .emptyGrammar
  | endMarker {p : LL.Parser} (h : Symbol.endMarker ∈ p.grammar.terminals) : Unasked (.ll p) .matchEndMarker

/-- The states of the parser have numbers. -/
def CountsStates : CompiledParser → Prop
  | .ll _ => True
  | .lr t => t.stateCount ≤ wordLimit

variable {p : CompiledParser} {bytes : List UInt8}

/-- A loaded table has no automaton to be dumped. -/
theorem automaton_of_reloaded {t : LR.Table} (h : (CompiledParser.lr t).reloaded = .lr t) : t.automaton = none :=
  (congrArg LR.Table.automaton (CompiledParser.lr.inj h)).symm

/-- **A loaded parser faults only for what loading does not ask for**, or because there is no place behind one of the
tokens. Without rules it always does. Its dump succeeds unless it has more states than there are numbers. -/
theorem faults_of_load (h : (load bytes).result = .ok p) :
    (∀ fuel tokens f, p.parse fuel (TokenList.ofList tokens) = some (.error (.fault f)) →
      p.Unasked f ∨ f = .additionOverflow ∧ ∃ t ∈ tokens, after t = .error .additionOverflow) ∧
    (p.Unasked .emptyGrammar → ∀ fuel tokens,
      p.parse fuel (TokenList.ofList tokens) = some (.error (.fault .emptyGrammar))) ∧
    (p.CountsStates ∧ p.dump.result = .ok () ∨ ¬p.CountsStates ∧ p.dump.result = .error .tooManyStates) := by
  obtain ⟨lists, hp⟩ := exists_readFrom h
  have hsource : ∀ {tokens done last behind f}, Pulls (TokenList.ofList tokens) done last →
      TokenSource.next last = (.error (.fault f), behind) →
      f = .additionOverflow ∧ ∃ t ∈ tokens, after t = .error .additionOverflow := by
    intro tokens done last behind f hpulls hn
    obtain ⟨hf, hlast⟩ := TokenList.exists_after_of_failure hpulls hn
    exact ⟨Failure.fault.inj hf, hlast⟩
  cases p with
  | ll p =>
    refine ⟨fun fuel tokens f hparse => ?_, ?_, .inl ⟨trivial, LL.Parser.Resolved.result_dump hp.resolved⟩⟩
    · rcases (LL.Parser.Resolved.grounded hp.resolved).fault_cases hparse with ⟨rfl, hrules⟩ | ⟨rfl, hmarker⟩ |
        ⟨done, last, behind, hpulls, hn⟩
      · exact .inl (.noRules hrules)
      · exact .inl (.endMarker hmarker)
      · exact .inr (hsource hpulls hn)
    · rintro ⟨hrules⟩ fuel tokens
      exact LL.Parser.parse_of_rules_eq_nil hrules fuel _
  | lr t =>
    refine ⟨fun fuel tokens f hparse => ?_, nofun, ?_⟩
    · obtain ⟨done, last, behind, hpulls, hn⟩ := (LR.Table.Resolved.grounded hp.resolved).fault_of_parse hparse
      exact .inr (hsource hpulls hn)
    · rcases LR.Table.Resolved.dump_cases hp.resolved (automaton_of_reloaded hp.reloaded) with hdump | ⟨hmany, hdump⟩
      · exact .inl hdump
      · exact .inr ⟨Nat.not_le_of_lt hmany, hdump⟩

section Files

open TableParser.Symbol Form

/-- A saved LL(1) parser without rules. -/
def noRulesFile : List UInt8 := encode ⟨[], []⟩ (Field.opening kindLL ⟨[], []⟩ ++ [.int 0, .int 0])

/-- A saved LL(1) parser of one rule, which derives the end marker. -/
def endMarkerFile : List UInt8 :=
  let lists : SymbolLists := ⟨[endMarker], [nonterminal "S"]⟩
  encode lists (Field.opening kindLL lists ++
    [.int 1, .symbol (nonterminal "S"), .int 1, .int 1, .symbol endMarker, .int 0,
      .int 1, .symbol (nonterminal "S"), .symbol endMarker, .int 0])

/-- A saved table without entries whose last state has no number. -/
def manyStatesFile : List UInt8 :=
  encode ⟨[], []⟩ (Field.opening kindLR ⟨[], []⟩ ++ [.int 0, .int (wordLimit + 1), .int 0, .int 0])

set_option maxRecDepth 10000 in
/-- A loaded parser whose rule derives the end marker matches it, but can be dumped. -/
theorem faults_of_load_endMarker : ∃ p, (load endMarkerFile).result = .ok p ∧
    p.parse 9 (TokenList.ofList []) = some (.error (.fault .matchEndMarker)) ∧ p.Unasked .matchEndMarker ∧
    (p.CountsStates ∧ p.dump.result = .ok () ∨ ¬p.CountsStates ∧ p.dump.result = .error .tooManyStates) := by
  have heval : ((load endMarkerFile).result.toOption.any fun p =>
      p.parse 9 (TokenList.ofList []) == some (.error (.fault .matchEndMarker))) = true := by rfl
  obtain ⟨p, hp, heval⟩ := exists_ok_of_any heval
  obtain ⟨hparse, _, hdump⟩ := faults_of_load hp
  rcases hparse 9 [] .matchEndMarker (eq_of_beq heval) with hunasked | ⟨_, t, ht, _⟩
  · exact ⟨p, hp, eq_of_beq heval, hunasked, hdump⟩
  · cases ht

set_option maxRecDepth 10000 in
/-- Accepted files whose parsers cannot be run or dumped: one has no rule to start with, one has too many states. -/
theorem not_runnable_files : ∃ p t, (load noRulesFile).result = .ok p ∧
    p.parse 9 (TokenList.ofList []) = some (.error (.fault .emptyGrammar)) ∧
    (load manyStatesFile).result = .ok (.lr t) ∧ t.dump.result = .error .tooManyStates := by
  have hrules : ((load noRulesFile).result.toOption.any fun p =>
      p.parse 9 (TokenList.ofList []) == some (.error (.fault .emptyGrammar))) = true := by rfl
  obtain ⟨p, hp, hparse⟩ := exists_ok_of_any hrules
  have hstates : ((load manyStatesFile).result.toOption.any fun p =>
      p == .lr (.ofEntries ⟨[]⟩ .empty .empty (wordLimit + 1))) = true := by decide +kernel
  obtain ⟨_, ht, heq⟩ := exists_ok_of_any hstates
  rw [eq_of_beq heq] at ht
  obtain ⟨lists, hread⟩ := exists_readFrom ht
  rcases LR.Table.Resolved.dump_cases hread.resolved rfl with ⟨hfew, _⟩ | ⟨_, hdump⟩
  · exact absurd hfew (Nat.not_succ_le_self _)
  · exact ⟨p, _, hp, eq_of_beq hparse, ht, hdump⟩

end Files

end CompiledParser
end TableParser
