import TableParser.Grammar.Reader
import TableParser.LR.Table
import TableParser.Proofs.LineBreaks

/-!
# What a predictive parser faults for

The predictive driver matches every terminal that comes to the top of its stack, and matching the end marker is a fault.
A definition refuses the empty derivation beside other symbols, but no end marker: `zero` may be written on a right-hand
side, both transformations keep it there, and the driver meets it.

* **Texts are definitions** (`Grammar.exists_define_of_read`), so that only definitions have to be looked at.
* **Two faults are left** (`LL.Parser.fault_of_list`): that one, for grammars with `zero` on a right-hand side, and that
  of a list with a token without a place behind it.
* **The end marker is met** (`LL.Parser.not_quiet_endMarker`), where the shift/reduce driver reports an error.
-/

namespace TableParser

open TokenList (after)

/-! ## Grammars from texts -/

/-- Steps that lead to a complete draft define its grammar. -/
theorem Grammar.define_of_draft {steps : List DefinitionStep} {d : Draft} {g : Grammar}
    (hd : steps.foldlM (fun d step => DefinitionStep.apply d step) Draft.empty = .ok d) (hg : d.finish = .ok g) :
    (Grammar.define steps).result = .ok g := by
  have hfold : (steps.foldlM DefinitionStep.run Draft.empty).result = .ok d := by
    rw [Trail.result_foldlM]
    exact hd
  unfold Grammar.define
  rw [Trail.result_bind, bind_eq_ok_iff]
  exact ⟨d, mapError_eq_ok_iff.mpr hfold, hg⟩

/-- Steps with their lines lead to the same draft as the steps alone. -/
theorem foldlM_lines_eq_ok_iff {steps : List (Nat × DefinitionStep)} {d d' : Draft} :
    steps.foldlM (fun d s => (s.2.apply d).mapError (DefinitionError.atLine s.1)) d = .ok d' ↔
      (steps.map Prod.snd).foldlM (fun d step => DefinitionStep.apply d step) d = .ok d' := by
  induction steps generalizing d with
  | nil => constructor <;> rintro ⟨⟩ <;> rfl
  | cons s steps ih => simp only [List.map_cons, List.foldlM_cons, bind_eq_ok_iff, mapError_eq_ok_iff, ih]

/-- **A grammar read from a text is a defined one**, by the alternatives of its records. -/
theorem Grammar.exists_define_of_read {text : List Char} {g : Grammar} (h : (Grammar.read text).result = .ok g) :
    ∃ steps, (Grammar.define steps).result = .ok g := by
  unfold Grammar.read at h
  obtain ⟨records, _, h⟩ := Trail.result_bind_eq_ok_iff.mp h
  obtain ⟨_, _, h⟩ := Trail.result_bind_eq_ok_iff.mp h
  obtain ⟨d, hd, hg⟩ := Trail.result_bind_eq_ok_iff.mp h
  rw [Trail.result_foldlM] at hd
  exact ⟨_, Grammar.define_of_draft (foldlM_lines_eq_ok_iff.mp hd) hg⟩

/-- The grammars that are accepted, as definitions or as texts. -/
inductive Grammar.Accepted : Grammar → Prop
  | defined {steps : List DefinitionStep} {g : Grammar} (h : (Grammar.define steps).result = .ok g) : Accepted g
  | read {text : List Char} {g : Grammar} (h : (Grammar.read text).result = .ok g) : Accepted g

/-- Accepted grammars are well-formed. -/
theorem Grammar.Accepted.wellFormed {g : Grammar} (h : g.Accepted) : g.WellFormed := by
  cases h with
  | defined h => exact wellFormed_of_define h
  | read h =>
    obtain ⟨steps, hsteps⟩ := exists_define_of_read h
    exact wellFormed_of_define hsteps

namespace LL.Parser

/-! ## The faults -/

/-- **A parse of a list faults for one of two reasons.** Either the grammar has the end marker on a right-hand side and
the driver matched it, or there is no place behind one of the tokens. -/
theorem fault_of_list {order : Registry} {g : Grammar} {p : Parser} {tokens : List Token} {fuel : Nat} {f : Fault}
    (hg : g.Accepted) (h : (Parser.build order g).result = .ok p)
    (hparse : p.parse fuel (TokenList.ofList tokens) = some (.error (.fault f))) :
    f = .matchEndMarker ∧ Symbol.endMarker ∈ g.terminals ∨
      f = .additionOverflow ∧ ∃ t ∈ tokens, after t = .error .additionOverflow := by
  rcases fault_cases_of_parse hg.wellFormed h hparse with hmarker | ⟨done, last, behind, hpulls, hn⟩
  · exact .inl hmarker
  · obtain ⟨hf, hlast⟩ := TokenList.exists_after_of_failure hpulls hn
    cases hf
    exact .inr ⟨rfl, hlast⟩

section Samples

open TableParser.Symbol

/-- A letter in the last column. -/
def lastColumnLetter : List Token := [⟨.identifier, "a", ⟨1, 4294967295⟩⟩]

set_option maxRecDepth 10000 in
theorem fault_of_list_lastColumnLetter : ∃ g p, g.Accepted ∧ (Parser.build .fresh g).result = .ok p ∧
    p.parse 9 (TokenList.ofList lastColumnLetter) = some (.error (.fault .additionOverflow)) ∧
    ∃ t ∈ lastColumnLetter, after t = .error .additionOverflow := by
  have heval : ((Grammar.define (sentenceSteps [terminal "a"])).result.toOption.any fun g =>
      (Parser.build .fresh g).result.toOption.any fun p => decide (endMarker ∉ g.terminals) &&
        p.parse 9 (TokenList.ofList lastColumnLetter) == some (.error (.fault .additionOverflow))) = true := by rfl
  obtain ⟨g, hg, heval⟩ := exists_ok_of_any heval
  obtain ⟨p, hp, heval⟩ := exists_ok_of_any heval
  simp only [Bool.and_eq_true, beq_iff_eq, decide_eq_true_eq] at heval
  obtain ⟨hmarker, hparse⟩ := heval
  have haccepted : g.Accepted := .defined hg
  rcases fault_of_list haccepted hp hparse with ⟨_, hmem⟩ | ⟨_, hlast⟩
  · exact absurd hmem hmarker
  · exact ⟨g, p, haccepted, hp, hparse, hlast⟩

/-- The text of a grammar of one sentence, the end marker. -/
def endMarkerText : List Char := "S\n : zero\n".toList

set_option maxRecDepth 10000 in
/-- The end marker of a grammar, written as steps or as a text, is met at the end of the input. The shift/reduce driver
reports an error there. -/
theorem not_quiet_endMarker : ∃ g p t, (Grammar.define (sentenceSteps [terminal "zero"])).result = .ok g ∧
    (Grammar.read endMarkerText).result = .ok g ∧ (Parser.build .fresh g).result = .ok p ∧
    p.parse 9 (TokenList.ofList []) = some (.error (.fault .matchEndMarker)) ∧
    (LR.Table.build g).result = .ok t ∧
    t.parse 9 (TokenList.ofList []) = some (.error (.error .unexpectedEnd)) := by
  have heval : ((Grammar.define (sentenceSteps [terminal "zero"])).result.toOption.any fun g =>
      (Parser.build .fresh g).result.toOption.any fun p => (LR.Table.build g).result.toOption.any fun t =>
        (Grammar.read endMarkerText).result.toOption == some g &&
        p.parse 9 (TokenList.ofList []) == some (.error (.fault .matchEndMarker)) &&
        t.parse 9 (TokenList.ofList []) == some (.error (.error .unexpectedEnd))) = true := by rfl
  obtain ⟨g, hg, heval⟩ := exists_ok_of_any heval
  obtain ⟨p, hp, heval⟩ := exists_ok_of_any heval
  obtain ⟨t, ht, heval⟩ := exists_ok_of_any heval
  simp only [Bool.and_eq_true, beq_iff_eq] at heval
  obtain ⟨⟨hread, hmarker⟩, hend⟩ := heval
  exact ⟨g, p, t, hg, toOption_eq_some_iff.mp hread, hp, hmarker, ht, hend⟩

end Samples

end LL.Parser
end TableParser
