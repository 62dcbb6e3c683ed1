import Mathlib.Data.List.TakeWhile
import Mathlib.Logic.Relation
import TableParser.Parse.Run
import TableParser.Token

/-!
# Runs and the tokens that they read

A run that gives an answer is a chain of steps to a configuration whose step is the answer (`run_eq_some_iff`), so
invariants of steps are invariants of runs. Token sources are known by what they hand out: `Pulls` follows some pulls,
and a source `Supplies` a list of tokens when it hands them out one after the other and the end of the input ever after.

* **In-memory sources** (`TokenList.supplies`) supply their tokens as long as the columns behind them can be written.
* **Skipped line breaks** (`Skimmed`): a list with some of its line breaks left out and nothing else.
-/

namespace TableParser

/-! ## Runs -/

section Runs

variable {α β : Type} {step : α → α ⊕ β}

/-- Several steps of a run, none of which answers. -/
abbrev Reaches (step : α → α ⊕ β) : α → α → Prop := Relation.ReflTransGen fun a b => step a = .inl b

/-- The answer of a run, if there is one. -/
def Answers (step : α → α ⊕ β) (a : α) (b : β) : Prop := ∃ fuel, run step fuel a = some b

theorem answers_of_step {a : α} {b : β} (h : step a = .inr b) : Answers step a b := ⟨1, by rw [run, h]⟩

theorem reaches_of_step {a b : α} (h : step a = .inl b) : Reaches step a b := Relation.ReflTransGen.single h

theorem Reaches.answers {a b : α} {c : β} (h : Reaches step a b) (hb : Answers step b c) : Answers step a c := by
  induction h using Relation.ReflTransGen.head_induction_on with
  | refl => exact hb
  | head hs _ ih =>
    obtain ⟨fuel, hf⟩ := ih
    exact ⟨fuel + 1, by rw [run, hs]; exact hf⟩

/-- **A run answers by its last step.** -/
theorem answers_iff {a : α} {b : β} : Answers step a b ↔ ∃ c, Reaches step a c ∧ step c = .inr b := by
  constructor
  · rintro ⟨fuel, h⟩
    induction fuel generalizing a with
    | zero => cases h
    | succ fuel ih =>
      rw [run] at h
      cases hs : step a with
      | inl next =>
        rw [hs] at h
        obtain ⟨c, hc, hb⟩ := ih h
        exact ⟨c, Relation.ReflTransGen.head hs hc, hb⟩
      | inr answer =>
        rw [hs] at h
        cases h
        exact ⟨a, .refl, hs⟩
  · rintro ⟨c, hc, hb⟩
    exact hc.answers (answers_of_step hb)

/-- The run comes to an end. -/
def Ends (step : α → α ⊕ β) (a : α) : Prop := ∃ b, Answers step a b

theorem ends_of_step {a : α} {b : β} (h : step a = .inr b) : Ends step a := ⟨b, answers_of_step h⟩

theorem Reaches.ends {a b : α} (h : Reaches step a b) (hb : Ends step b) : Ends step a := by
  obtain ⟨c, hc⟩ := hb
  exact ⟨c, h.answers hc⟩

/-- A run has at most one answer. -/
theorem Answers.unique {a : α} {b c : β} (hb : Answers step a b) (hc : Answers step a c) : b = c := by
  obtain ⟨m, hm⟩ := hb
  obtain ⟨n, hn⟩ := hc
  have h₁ := run_of_le step hm (Nat.le_max_left m n)
  have h₂ := run_of_le step hn (Nat.le_max_right m n)
  rw [h₁] at h₂
  exact Option.some.inj h₂

/-- What is reached has the answer of the whole run, with no more steps. -/
theorem Reaches.exists_run {a b : α} {c : β} {fuel : Nat} (h : Reaches step a b) (hf : run step fuel a = some c) :
    ∃ left ≤ fuel, run step left b = some c := by
  induction h with
  | refl => exact ⟨fuel, Nat.le_refl fuel, hf⟩
  | tail _ hs ih =>
    obtain ⟨left, hle, hleft⟩ := ih
    cases left with
    | zero => cases hleft
    | succ left =>
      rw [run, hs] at hleft
      exact ⟨left, Nat.le_of_succ_le hle, hleft⟩

/-- **A run that returns to an invariant over and over has no answer.** -/
theorem not_answers_of_returns {I : α → Prop} (hI : ∀ a, I a → ∃ b, Reaches step a b ∧ a ≠ b ∧ I b) {a : α} (ha : I a)
    (c : β) : ¬Answers step a c := by
  rintro ⟨fuel, hf⟩
  induction fuel using Nat.strong_induction_on generalizing a with
  | _ fuel ih =>
    obtain ⟨b, hb, hne, hIb⟩ := hI a ha
    -- the first of the steps has been taken
    obtain rfl | ⟨next, hs, hnext⟩ := hb.cases_head
    · exact hne rfl
    · cases fuel with
      | zero => cases hf
      | succ fuel =>
        rw [run, hs] at hf
        obtain ⟨left, hle, hleft⟩ := Reaches.exists_run hnext hf
        exact ih left (Nat.lt_succ_of_le hle) hIb hleft

/-- An invariant of the steps holds along a run. -/
theorem Reaches.invariant {a b : α} {P : α → Prop} (h : Reaches step a b) (hP : P a)
    (hstep : ∀ c d, P c → step c = .inl d → P d) : P b := by
  induction h with
  | refl => exact hP
  | tail _ hs ih => exact hstep _ _ ih hs

end Runs

/-! ## Token sources -/

/-- A line break is not the end of the input. -/
theorem Token.isEndOfFile_of_newline {t : Token} (h : t.kind = .newline) : t.isEndOfFile = false := by
  rw [isEndOfFile, h]
  rfl

section Sources

variable {σ ε : Type} [TokenSource σ ε]

/-- Pulls that hand out some tokens, from the source before them to the source behind them. -/
inductive Pulls : σ → List Token → σ → Prop
  | nil (source : σ) : Pulls source [] source
  | cons {source next last : σ} {t : Token} {tokens : List Token} (h : TokenSource.next source = (.ok t, next))
      (rest : Pulls next tokens last) : Pulls source (t :: tokens) last

/-- Every pull from now on hands out the end of the input. -/
def Ended (source : σ) : Prop :=
  ∀ tokens last, Pulls source tokens last → ∃ t next, TokenSource.next last = (.ok t, next) ∧ t.isEndOfFile = true

/-- The source hands out the tokens, and then the end of the input as often as it is asked. -/
def Supplies (source : σ) (tokens : List Token) : Prop := ∃ last, Pulls source tokens last ∧ Ended last

theorem Pulls.snoc {source last next : σ} {tokens : List Token} {t : Token} (h : Pulls source tokens last)
    (ht : TokenSource.next last = (.ok t, next)) : Pulls source (tokens ++ [t]) next := by
  induction h with
  | nil source => exact .cons ht (.nil next)
  | cons h _ ih => exact .cons h (ih ht)

theorem Pulls.trans {source mid last : σ} {tokens tokens' : List Token} (h : Pulls source tokens mid)
    (h' : Pulls mid tokens' last) : Pulls source (tokens ++ tokens') last := by
  induction h with
  | nil _ => exact h'
  | cons hn _ ih => exact .cons hn (ih h')

theorem Pulls.of_append {source last : σ} {tokens tokens' : List Token} (h : Pulls source (tokens ++ tokens') last) :
    ∃ mid, Pulls source tokens mid ∧ Pulls mid tokens' last := by
  induction tokens generalizing source with
  | nil => exact ⟨source, .nil source, h⟩
  | cons t tokens ih =>
    cases h with
    | cons hn h =>
      obtain ⟨mid, hmid, hlast⟩ := ih h
      exact ⟨mid, .cons hn hmid, hlast⟩

theorem Ended.next {source : σ} (h : Ended source) :
    ∃ t next, TokenSource.next source = (.ok t, next) ∧ t.isEndOfFile = true ∧ Ended next := by
  obtain ⟨t, next, hn, ht⟩ := h [] source (.nil source)
  exact ⟨t, next, hn, ht, fun tokens last hp => h (t :: tokens) last (.cons hn hp)⟩

theorem supplies_nil {source : σ} : Supplies source [] ↔ Ended source := by
  constructor
  · rintro ⟨last, hp, he⟩
    cases hp
    exact he
  · intro h
    exact ⟨source, .nil source, h⟩

theorem supplies_cons {source : σ} {t : Token} {tokens : List Token} :
    Supplies source (t :: tokens) ↔ ∃ next, TokenSource.next source = (.ok t, next) ∧ Supplies next tokens := by
  constructor
  · rintro ⟨last, hp, he⟩
    cases hp with
    | cons h rest => exact ⟨_, h, last, rest, he⟩
  · rintro ⟨next, h, last, rest, he⟩
    exact ⟨last, .cons h rest, he⟩

/-- The tokens to come: the one at hand and those that the source supplies, or only the end of the input. -/
def Ahead (peeked : Option Token) (source : σ) (tokens : List Token) : Prop :=
  match peeked with
  | none => Supplies source tokens
  | some token => (∃ rest, tokens = token :: rest ∧ Supplies source rest) ∨
      tokens = [] ∧ token.isEndOfFile = true ∧ Ended source

/-- The next token can always be pulled. -/
theorem Supplies.next {source : σ} {tokens : List Token} (h : Supplies source tokens) :
    ∃ token behind, TokenSource.next source = (.ok token, behind) ∧ Ahead (some token) behind tokens := by
  cases tokens with
  | nil =>
    obtain ⟨token, behind, hn, he, hended⟩ := (supplies_nil.mp h).next
    exact ⟨token, behind, hn, .inr ⟨rfl, he, hended⟩⟩
  | cons token rest =>
    obtain ⟨behind, hn, hrest⟩ := supplies_cons.mp h
    exact ⟨token, behind, hn, .inl ⟨rest, rfl, hrest⟩⟩

/-- A source that supplies tokens never fails. -/
theorem Supplies.next_of_pulls {source last : σ} {tokens done : List Token} (h : Supplies source tokens)
    (hp : Pulls source done last) : ∃ token behind, TokenSource.next last = (.ok token, behind) := by
  induction hp generalizing tokens with
  | nil source =>
    obtain ⟨token, behind, hn, _⟩ := h.next
    exact ⟨token, behind, hn⟩
  | cons hn _ ih =>
    obtain ⟨token, behind, hn', hahead⟩ := h.next
    rw [hn] at hn'
    cases hn'
    rcases hahead with ⟨rest, _, hrest⟩ | ⟨_, _, hended⟩
    · exact ih hrest
    · exact ih (supplies_nil.mpr hended)

/-- Behind the first token come the others. -/
theorem Ahead.next {source : σ} {token first : Token} {tokens : List Token}
    (h : Ahead (some token) source (first :: tokens)) : first = token ∧ Supplies source tokens := by
  rcases h with ⟨rest, heq, hrest⟩ | ⟨hnil, _⟩
  · cases heq
    exact ⟨rfl, hrest⟩
  · cases hnil

/-- What was pulled and has no end of the input in it is the beginning of what is supplied; the rest is to come. -/
theorem Supplies.exists_rest {source source' : σ} {tokens done : List Token} {peeked : Option Token}
    (h : Supplies source tokens) (hp : Pulls source (done ++ peeked.toList) source')
    (hdone : ∀ u ∈ done, u.isEndOfFile = false) : ∃ rest, tokens = done ++ rest ∧ Ahead peeked source' rest := by
  induction done generalizing source tokens with
  | nil =>
    cases peeked with
    | none =>
      cases hp
      exact ⟨tokens, rfl, h⟩
    | some token =>
      obtain ⟨first, behind, hn, hahead⟩ := h.next
      cases hp with
      | cons hn' hnil =>
        cases hnil
        rw [hn] at hn'
        cases hn'
        exact ⟨tokens, rfl, hahead⟩
  | cons token done ih =>
    obtain ⟨first, behind, hn, hahead⟩ := h.next
    cases hp with
    | cons hn' hrest =>
      rw [hn] at hn'
      cases hn'
      rcases hahead with ⟨rest, rfl, hsupplies⟩ | ⟨_, he, _⟩
      · obtain ⟨left, rfl, hleft⟩ := ih hsupplies hrest fun u hu => hdone u (List.mem_cons_of_mem token hu)
        exact ⟨left, rfl, hleft⟩
      · rw [hdone token List.mem_cons_self] at he
        cases he

/-- What was pulled up to the end of the input is all that is supplied, if no end of the input comes before. -/
theorem Supplies.eq_of_pulls {source source' : σ} {tokens done : List Token} {eof : Token} (h : Supplies source tokens)
    (hp : Pulls source (done ++ [eof]) source') (heof : eof.isEndOfFile = true)
    (hdone : ∀ u ∈ done, u.isEndOfFile = false) (hno : ∀ u ∈ tokens, u.isEndOfFile = false) : done = tokens := by
  have hp' : Pulls source (done ++ (some eof).toList) source' := hp
  obtain ⟨rest, rfl, hahead⟩ := h.exists_rest hp' hdone
  rcases hahead with ⟨rest, rfl, _⟩ | ⟨rfl, _⟩
  · rw [hno eof (List.mem_append_right done List.mem_cons_self)] at heof
    cases heof
  · rw [List.append_nil]

/-- The source can always be asked for the token behind the one at hand. -/
theorem Ahead.advance {source : σ} {token : Token} {tokens : List Token} (h : Ahead (some token) source tokens) :
    ∃ next behind, TokenSource.next source = (.ok next, behind) ∧ Ahead (some next) behind tokens.tail := by
  rcases h with ⟨rest, rfl, hrest⟩ | ⟨rfl, _, hended⟩
  · exact hrest.next
  · obtain ⟨next, behind, hn, he, hended'⟩ := hended.next
    exact ⟨next, behind, hn, .inr ⟨rfl, he, hended'⟩⟩

/-- A token that is not the end of the input is one of those to come. -/
theorem Ahead.tail_lt {source : σ} {token : Token} {tokens : List Token} (h : Ahead (some token) source tokens)
    (ht : token.isEndOfFile = false) : tokens.tail.length < tokens.length := by
  rcases h with ⟨rest, rfl, _⟩ | ⟨_, he, _⟩
  · exact Nat.lt_succ_self _
  · rw [ht] at he
    cases he

end Sources

/-! ## In-memory sources -/

/-- A failure of a source is a fault only if it was one there. -/
theorem Failure.eq_fault_of_map {ε δ : Type} {g : ε → δ} {failure : Failure ε} {f : Fault}
    (h : failure.map g = .fault f) : failure = .fault f := by
  cases failure with
  | error e => cases h
  | fault f' => exact congrArg Failure.fault (Failure.fault.inj h)

namespace TokenList

theorem eq_additionOverflow_of_after {t : Token} {f : Fault} (h : after t = .error f) : f = .additionOverflow := by
  unfold after sum32 at h
  split at h
  · cases h
  · cases h
    rfl

/-- A list hands out its first token, or the end of the input, which leaves it as it is. -/
theorem of_next {source behind : TokenList} {t : Token} (h : TokenSource.next source = (.ok t, behind)) :
    source.rest = t :: behind.rest ∨ source.rest = [] ∧ t = .endOfFile source.last ∧ behind = source := by
  obtain ⟨rest, last⟩ := source
  simp only [TokenSource.next, next] at h
  cases rest with
  | nil =>
    cases h
    exact .inr ⟨rfl, rfl, rfl⟩
  | cons u rest =>
    dsimp only at h
    split at h
    · cases h
      exact .inl rfl
    · cases h

/-- A list without tokens is at its end for good. -/
theorem ended (last : Position) : Ended (⟨[], last⟩ : TokenList) := by
  have hstay : ∀ tokens (source : TokenList), Pulls (⟨[], last⟩ : TokenList) tokens source → source = ⟨[], last⟩ := by
    intro tokens source h
    generalize hs : (⟨[], last⟩ : TokenList) = start at h
    induction h with
    | nil => rfl
    | cons h _ ih =>
      subst hs
      rcases of_next h with hrest | ⟨_, _, hsame⟩
      · cases hrest
      · exact (ih hsame.symm).trans hsame
  intro tokens source h
  rw [hstay tokens source h]
  exact ⟨.endOfFile last, ⟨[], last⟩, rfl, rfl⟩

/-- **Tokens held in memory are supplied** as long as there is a place after each of them. -/
theorem supplies {tokens : List Token} (h : ∀ t ∈ tokens, ∃ p, after t = .ok p) (last : Position) :
    Supplies (⟨tokens, last⟩ : TokenList) tokens := by
  induction tokens generalizing last with
  | nil => exact supplies_nil.mpr (ended last)
  | cons t tokens ih =>
    obtain ⟨p, hp⟩ := h t List.mem_cons_self
    refine supplies_cons.mpr ⟨⟨tokens, p⟩, ?_, ih (fun u hu => h u (List.mem_cons_of_mem t hu)) p⟩
    simp only [TokenSource.next, next, hp]

/-- What is pulled from a list held in memory is its beginning, or all of it and then the end of the input. -/
theorem eq_of_pulls {source last : TokenList} {tokens : List Token} (h : Pulls source tokens last) :
    (∃ rest, source.rest = tokens ++ rest ∧ last.rest = rest) ∨
      ∃ ends, tokens = source.rest ++ ends ∧ last.rest = [] ∧ ∀ t ∈ ends, ∃ place, t = .endOfFile place := by
  induction h with
  | nil source => exact .inl ⟨source.rest, rfl, rfl⟩
  | @cons source next last t tokens h _ ih =>
    rcases of_next h with hrest | ⟨hrest, ht, rfl⟩
    · rw [hrest]
      rcases ih with ⟨rest, h₁, h₂⟩ | ⟨ends, h₁, h₂, h₃⟩
      · exact .inl ⟨rest, congrArg (t :: ·) h₁, h₂⟩
      · exact .inr ⟨ends, congrArg (t :: ·) h₁, h₂, h₃⟩
    · refine .inr ⟨t :: tokens, by rw [hrest]; rfl, ?_⟩
      rcases ih with ⟨rest, h₁, h₂⟩ | ⟨ends, h₁, h₂, h₃⟩
      · obtain ⟨rfl, rfl⟩ := List.append_eq_nil_iff.mp (h₁.symm.trans hrest)
        exact ⟨h₂, List.forall_mem_singleton.mpr ⟨_, ht⟩⟩
      · rw [hrest, List.nil_append] at h₁
        subst h₁
        exact ⟨h₂, List.forall_mem_cons.mpr ⟨⟨_, ht⟩, h₃⟩⟩

/-- **A list fails for want of columns only**, behind one of its tokens. -/
theorem exists_after_of_failure {tokens done : List Token} {last behind : TokenList} {failure : Failure Empty}
    (h : Pulls (ofList tokens) done last) (hn : TokenSource.next last = (.error failure, behind)) :
    failure = .fault .additionOverflow ∧ ∃ t ∈ tokens, after t = .error .additionOverflow := by
  have hsub : ∀ t ∈ last.rest, t ∈ tokens := by
    intro t ht
    rcases eq_of_pulls h with ⟨rest, heq, hrest⟩ | ⟨_, _, hrest, _⟩
    · have heq' : tokens = done ++ rest := heq
      rw [heq']
      exact List.mem_append_right done (hrest ▸ ht)
    · rw [hrest] at ht
      cases ht
  obtain ⟨rest, place⟩ := last
  simp only [TokenSource.next, next] at hn
  cases rest with
  | nil => cases hn
  | cons t rest =>
    cases hafter : after t with
    | ok place => simp [hafter] at hn
    | error f =>
      obtain rfl := eq_additionOverflow_of_after hafter
      simp only [hafter] at hn
      cases hn
      exact ⟨rfl, t, hsub t List.mem_cons_self, hafter⟩

/-- Up to the first end of the input, what is pulled is what the list holds. -/
theorem takeWhile_eq_of_pulls {input done : List Token} {eof : Token} {position : Position} {last : TokenList}
    (h : Pulls (⟨input, position⟩ : TokenList) (done ++ [eof]) last) (heof : eof.isEndOfFile = true)
    (hdone : ∀ t ∈ done, t.isEndOfFile = false) : input.takeWhile (fun t => !t.isEndOfFile) = done := by
  have hstop : ∀ rest, (done ++ eof :: rest).takeWhile (fun t => !t.isEndOfFile) = done := by
    intro rest
    rw [List.takeWhile_append_of_pos fun t ht => by simp [hdone t ht], List.takeWhile_cons_of_neg (by simp [heof]),
      List.append_nil]
  have hall : done.takeWhile (fun t => !t.isEndOfFile) = done :=
    List.takeWhile_eq_self_iff.mpr fun t ht => by simp [hdone t ht]
  rcases eq_of_pulls h with ⟨rest, h₁, _⟩ | ⟨ends, h₁, _, h₃⟩
  · have hinput : input = done ++ eof :: rest := by simpa using h₁
    rw [hinput]
    exact hstop rest
  · have hends : done ++ [eof] = input ++ ends := h₁
    rcases List.append_eq_append_iff.mp hends with ⟨rest, hinput, hrest⟩ | ⟨rest, hinput, hrest⟩
    · -- the list goes on behind the tokens read
      rcases List.append_eq_cons_iff.mp hrest.symm with ⟨rfl, _⟩ | ⟨tail, rfl, htail⟩
      · rw [List.append_nil] at hinput
        rw [hinput]
        exact hall
      · rw [hinput]
        exact hstop tail
    · -- the list has ended before
      have hnil : rest = [] := by
        refine List.eq_nil_iff_forall_not_mem.mpr fun t ht => ?_
        obtain ⟨_, rfl⟩ := h₃ t (hrest ▸ List.mem_append_left _ ht)
        cases hdone _ (hinput ▸ List.mem_append_right _ ht)
      rw [hnil, List.append_nil] at hinput
      rw [← hinput]
      exact hall

end TokenList

/-! ## Skipped line breaks -/

/-- The second list is the first one with some of its line breaks left out. -/
inductive Skimmed : List Token → List Token → Prop
  | nil : Skimmed [] []
  | keep (t : Token) {tokens kept : List Token} (rest : Skimmed tokens kept) : Skimmed (t :: tokens) (t :: kept)
  | skip {t : Token} {tokens kept : List Token} (h : t.kind = .newline) (rest : Skimmed tokens kept) :
      Skimmed (t :: tokens) kept

namespace Skimmed

theorem append {a b c d : List Token} (h₁ : Skimmed a b) (h₂ : Skimmed c d) : Skimmed (a ++ c) (b ++ d) := by
  induction h₁ with
  | nil => exact h₂
  | keep t _ ih => exact .keep t ih
  | skip h _ ih => exact .skip h ih

/-- Only line breaks are left out. -/
theorem mem {a b : List Token} (h : Skimmed a b) {t : Token} (ht : t ∈ a) : t.kind = .newline ∨ t ∈ b := by
  induction h with
  | nil => cases ht
  | keep u _ ih =>
    rcases List.mem_cons.mp ht with rfl | ht
    · exact .inr List.mem_cons_self
    · exact (ih ht).imp_right (List.mem_cons_of_mem u)
  | skip h _ ih =>
    rcases List.mem_cons.mp ht with rfl | ht
    · exact .inl h
    · exact ih ht

theorem sublist {a b : List Token} (h : Skimmed a b) : b.Sublist a := by
  induction h with
  | nil => exact .slnil
  | keep t _ ih => exact ih.cons_cons t
  | skip _ _ ih => exact ih.cons _

/-- Without line breaks nothing is left out. -/
theorem eq {a b : List Token} (h : Skimmed a b) (hn : ∀ t ∈ a, t.kind ≠ .newline) : b = a := by
  induction h with
  | nil => rfl
  | keep t _ ih => rw [ih fun u hu => hn u (List.mem_cons_of_mem t hu)]
  | skip h _ _ => exact absurd h (hn _ List.mem_cons_self)

end Skimmed
end TableParser
