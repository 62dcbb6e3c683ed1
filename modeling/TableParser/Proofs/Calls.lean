import TableParser.Proofs.ShiftReduce

/-!
# Calls for events

A caller of the shift/reduce driver asks for one event after the other, and may go on asking after a failure. It hands
over the list that the items of the event go to, with whatever it holds by then (`Machine.Call`).

* **Invariants** (`Machine.Calls.invariant`): what every step keeps holds at each call and within it.
* **Errors stand** (`Machine.stands_of_error`): if the source keeps to the end of the input once it is there
  (`KeepsEnding`), an error that is not the source's is all that any later call comes to, and no call changes the
  stacks any more. Most errors leave the machine as it was (`Machine.Stands.firm`); a table that wants to consume the end of
  the input loses it and finds it again (`Machine.Stands.atEnd`).
-/

namespace TableParser

/-! ## Sources that keep to their end -/

section Ending

variable {σ ε : Type} [TokenSource σ ε]

/-- Several pulls, failing or not. -/
abbrev Drains : σ → σ → Prop := Relation.ReflTransGen fun source next => (TokenSource.next source).2 = next

/-- Once the source has handed out the end of the input, it does so for good. -/
def KeepsEnding (source : σ) : Prop :=
  ∀ last t behind, Drains source last → TokenSource.next last = (.ok t, behind) → t.isEndOfFile = true → Ended behind

namespace TokenList

/-- What a list still holds is its end. -/
theorem suffix_of_drains {source last : TokenList} (h : Drains source last) : last.rest <:+ source.rest := by
  induction h with
  | refl => exact List.suffix_refl _
  | @tail mid _ _ hnext ih =>
    subst hnext
    refine List.IsSuffix.trans ?_ ih
    obtain ⟨rest, position⟩ := mid
    simp only [TokenSource.next, next]
    cases rest with
    | nil => exact List.suffix_refl _
    | cons t rest =>
      dsimp only
      split <;> exact List.suffix_cons t rest

/-- A list of tokens without the end of the input among them ends once. -/
theorem keepsEnding {tokens : List Token} (h : ∀ t ∈ tokens, t.isEndOfFile = false) : KeepsEnding (ofList tokens) := by
  intro last t behind hdrains hn ht
  have hsub : ∀ u ∈ last.rest, u.isEndOfFile = false := fun u hu => h u ((suffix_of_drains hdrains).subset hu)
  rcases of_next hn with hrest | ⟨hrest, _, rfl⟩
  · rw [hsub t (hrest ▸ List.mem_cons_self)] at ht
    cases ht
  · obtain ⟨rest, position⟩ := behind
    cases hrest
    exact ended position

end TokenList

end Ending

namespace Machine

variable {St S R σ ε : Type}

/-! ## Calls -/

/-- Where a step leads, whether it ends the pull or not. -/
def Step.after (s : Step St S R σ ε) : Machine St S × σ := s.elim id Prod.snd

section Calls

variable [TokenSource σ ε] {table : ActionTable St S R} {c d : Machine St S × σ} {m m' : Machine St S}
  {source source' : σ} {args : List (StackItem S)} {pulled : Pulled S R ε}

/-- A call that comes to an end, whatever it comes to. The list for the items is the caller's. -/
inductive Call (table : ActionTable St S R) : Machine St S × σ → Machine St S × σ → Prop
  | intro {m m' : Machine St S} {source source' : σ} {pulled : Pulled S R ε} (args : List (StackItem S)) (fuel : Nat)
      (h : nextEvent table fuel { m with args := args } source = some (pulled, m', source')) :
      Call table (m, source) (m', source')

/-- One call after the other. -/
abbrev Calls (table : ActionTable St S R) : Machine St S × σ → Machine St S × σ → Prop :=
  Relation.ReflTransGen (Call table)

/-- A call takes some steps, the last of which ends it. -/
theorem exists_reaches {fuel : Nat} (h : nextEvent table fuel m source = some (pulled, m', source')) :
    ∃ d, Reaches (step table) (m, source) d ∧ step table d = .inr (pulled, m', source') :=
  answers_iff.mp ⟨fuel, h⟩

/-- What every step keeps holds within a call. -/
theorem reaches_invariant {P : Machine St S × σ → Prop} (hstep : ∀ c, P c → P (step table c).after)
    (h : Reaches (step table) c d) (hc : P c) : P d := by
  refine h.invariant hc fun c d hc hs => ?_
  have hd := hstep c hc
  rw [hs] at hd
  exact hd

/-- **What every step keeps holds after any calls**, if it does not depend on the list of the caller. -/
theorem Calls.invariant {P : Machine St S × σ → Prop}
    (hargs : ∀ m source args, P (m, source) → P ({ m with args := args }, source))
    (hstep : ∀ c, P c → P (step table c).after) (h : Calls table c d) (hc : P c) : P d := by
  induction h with
  | refl => exact hc
  | tail _ hcall ih =>
    cases hcall with
    | intro args fuel h =>
      obtain ⟨last, hreach, hlast⟩ := exists_reaches h
      have hafter := hstep last (reaches_invariant hstep hreach (hargs _ _ args ih))
      rw [hlast] at hafter
      exact hafter

end Calls

/-! ## What a step leaves behind -/

section Steps

variable {table : ActionTable St S R} {m m' : Machine St S} {source source' : σ} {q : St} {lookahead : Option S}
  {token : Token} {args : List (StackItem S)}

/-- To do what the table wants takes no token from the source and keeps the token at hand or gives it up. -/
theorem after_act (table : ActionTable St S R) (m : Machine St S) (source : σ) (q : St) (lookahead : Option S) :
    ∃ m', (act table m source q lookahead : Step St S R σ ε).after = (m', source) ∧
      (m'.peeked = m.peeked ∨ m'.peeked = none) := by
  have hacts := ActionTable.acts_act (ε := ε) table m source q lookahead
  generalize act table m source q lookahead = s at hacts ⊢
  cases hacts with
  | fault | stop | goto | reduce | accept => exact ⟨_, rfl, .inl rfl⟩
  | runOut | shift | skip => exact ⟨_, rfl, .inr rfl⟩

/-- The vector for the items is only written when an event is told. -/
theorem args_of_act {d : Machine St S × σ} (h : act table m source q lookahead = (.inl d : Step St S R σ ε)) :
    d.1.args = m.args := by
  have hacts := ActionTable.acts_act (ε := ε) table m source q lookahead
  rw [h] at hacts
  cases hacts with
  | goto | shift | skip => rfl

theorem args_of_step [TokenSource σ ε] {c d : Machine St S × σ} (h : step table c = .inl d) : d.1.args = c.1.args := by
  obtain ⟨m, source⟩ := c
  have hform := ActionTable.stepForm_step table m source
  rw [h] at hform
  generalize hs : (.inl d : Step St S R σ ε) = s at hform
  cases hform with
  | accepted | noState | noItem | noToken => cases hs
  | @look q states token behind _ _ _ =>
    rcases ActionTable.look_cases (ε := ε) (σ := σ) table q token with ⟨lookahead, _, hact⟩ | ⟨_, hskip⟩ | ⟨_, _, _, hfail⟩
    · rw [hact] at hs
      exact (args_of_act hs.symm).trans rfl
    · rw [hskip] at hs
      cases hs
      rfl
    · rw [hfail] at hs
      cases hs
  | goto => exact args_of_act hs.symm

end Steps

/-! ## Errors stand -/

section Errors

variable [TokenSource σ ε] {table : ActionTable St S R} {c d : Machine St S × σ} {m m' : Machine St S}
  {source source' source₀ : σ} {e : ParseError ε}

/-- Whatever list it is given, every call comes to the error. -/
inductive Stands (table : ActionTable St S R) (e : ParseError ε) : Machine St S × σ → Prop
  /-- The machine stays as it is. -/
  | firm {m : Machine St S} {source : σ} (h : ∀ args : List (StackItem S),
      step table ({ m with args := args }, source) = .inr (.failed (.error e), { m with args := args }, source)) :
      Stands table e (m, source)
  /-- The table wants to consume the end of the input, which each call pulls anew. -/
  | atEnd {m : Machine St S} {source : σ} {q r : St} {states : List St} (he : e = .unexpectedEnd) (hm : m.mode = .reading)
      (hs : m.states = q :: states) (hp : m.peeked = none) (ha : table.action q none = .ok (.shift r))
      (hend : Ended source) : Stands table e (m, source)

/-- **A call finds the error that stands** in its first step and leaves the stacks and the list alone. -/
theorem Stands.call (h : Stands table e (m, source)) (args : List (StackItem S)) (fuel : Nat) :
    ∃ m' source', nextEvent table (fuel + 1) { m with args := args } source = some (.failed (.error e), m', source') ∧
      m'.states = m.states ∧ m'.items = m.items ∧ m'.args = args ∧ Stands table e (m', source') := by
  cases h with
  | firm h =>
    refine ⟨{ m with args := args }, source, ?_, rfl, rfl, rfl, .firm h⟩
    rw [nextEvent, run, h]
  | atEnd he hm hs hp ha hend =>
    subst he
    obtain ⟨token, behind, hn, ht, hend'⟩ := hend.next
    have hpeeks : ({ m with args := args } : Machine St S).Peeks source token behind := .inr ⟨hp, hn⟩
    have hstep : step table ({ m with args := args }, source) =
        .inr (.failed (.error .unexpectedEnd), { m with args := args, peeked := none }, behind) := by
      have hact : step table ({ m with args := args }, source) = _ :=
        ActionTable.step_eq_act hm hs hpeeks (.inl ⟨ht, rfl⟩)
      rw [hact]
      simp only [act, ha, shift, hm, fail]
    refine ⟨{ m with args := args, peeked := none }, behind, ?_, rfl, rfl, rfl, .atEnd rfl hm hs rfl ha hend'⟩
    rw [nextEvent, run, hstep]

/-- An error that stands does so for good. -/
theorem Stands.calls (h : Stands table e c) (hcalls : Calls table c d) :
    Stands table e d ∧ d.1.states = c.1.states ∧ d.1.items = c.1.items := by
  induction hcalls with
  | refl => exact ⟨h, rfl, rfl⟩
  | tail _ hcall ih =>
    obtain ⟨hstands, hstates, hitems⟩ := ih
    cases hcall with
    | @intro m m' source source' pulled args fuel h =>
      cases fuel with
      | zero => cases h
      | succ fuel =>
        obtain ⟨m₁, source₁, hfirst, hstates', hitems', _, hstands'⟩ := hstands.call args fuel
        rw [hfirst] at h
        cases h
        exact ⟨hstands', hstates'.trans hstates, hitems'.trans hitems⟩

/-- What calls keep in mind of the end of the input: once it is at hand, it is all that is to come. -/
structure Heeds (source₀ : σ) (c : Machine St S × σ) : Prop where
  drains : Drains source₀ c.2
  ended : ∀ t, c.1.peeked = some t → t.isEndOfFile = true → Ended c.2

/-- The token at hand comes with what was kept in mind. -/
theorem Heeds.peeks {token : Token} {behind : σ} (hsource : KeepsEnding source₀) (h : Heeds source₀ (m, source))
    (hp : m.Peeks source token behind) : Heeds source₀ (ActionTable.holding m token, behind) := by
  rcases hp with ⟨hp, rfl⟩ | ⟨_, hn⟩
  · exact ⟨h.drains, fun t ht he => h.ended t (hp.trans ht) he⟩
  · refine ⟨h.drains.tail (congrArg Prod.snd hn), fun t ht he => ?_⟩
    cases ht
    exact hsource source token behind h.drains hn he

/-- Less at hand is less to keep in mind. -/
theorem Heeds.of_peeked (h : Heeds source₀ (m, source)) (hp : m'.peeked = m.peeked ∨ m'.peeked = none) :
    Heeds source₀ (m', source) := by
  refine ⟨h.drains, fun t ht he => ?_⟩
  rcases hp with hp | hp
  · exact h.ended t (hp.symm.trans ht) he
  · rw [hp] at ht
    cases ht

/-- **Every step keeps the end of the input in mind.** -/
theorem Heeds.step (hsource : KeepsEnding source₀) (h : Heeds source₀ c) : Heeds source₀ (step table c).after := by
  obtain ⟨m, source⟩ := c
  have hact : ∀ {m₁ : Machine St S} {source₁ : σ} (q : St) (lookahead : Option S), Heeds source₀ (m₁, source₁) →
      Heeds source₀ (act table m₁ source₁ q lookahead : Step St S R σ ε).after := by
    intro m₁ source₁ q lookahead h
    obtain ⟨m', hafter, hp⟩ := after_act (ε := ε) table m₁ source₁ q lookahead
    exact hafter ▸ h.of_peeked hp
  have hform := ActionTable.stepForm_step table m source
  generalize Machine.step table (m, source) = s at hform ⊢
  cases hform with
  | accepted | noState | noItem => exact h
  | noToken hp hn =>
    exact ⟨h.drains.tail (congrArg Prod.snd hn), fun t ht _ => absurd (hp.symm.trans ht) nofun⟩
  | @look q states token behind _ _ hp =>
    have hheld := h.peeks hsource hp
    rcases ActionTable.look_cases (ε := ε) (σ := σ) table q token with ⟨lookahead, _, hlook⟩ | ⟨_, hskip⟩ | ⟨_, _, _, hfail⟩
    · rw [hlook]
      exact hact q lookahead hheld
    · rw [hskip]
      exact hheld.of_peeked (.inr rfl)
    · rw [hfail]
      exact hheld
  | goto _ _ _ => exact hact _ _ h

/-- An error on the token at hand stands. -/
theorem stands_of_look {q : St} {states : List St} {token : Token} (hm : m.mode = .reading) (hst : m.states = q :: states)
    (hp : m.peeked = some token) (hend : token.isEndOfFile = true → Ended source)
    (h : look table m source q token = .inr (.failed (.error e), m', source')) :
    Stands table e (m', source') ∧ m'.args = m.args := by
  have hheld : ∀ args, ActionTable.holding { m with args := args } token = { m with args := args } := fun args => by
    unfold ActionTable.holding
    rw [← hp]
  have hstep : ∀ args, Machine.step table ({ m with args := args }, source) =
      look table { m with args := args } source q token := by
    intro args
    have hlook : Machine.step table ({ m with args := args }, source) = _ :=
      ActionTable.step_eq_look hm hst (.inl ⟨hp, rfl⟩)
    rw [hlook, hheld]
  rcases ActionTable.look_cases (ε := ε) (σ := σ) table q token with ⟨lookahead, hl, hlook⟩ | ⟨_, hskip⟩ | ⟨_, _, _, hfail⟩
  · rw [hlook] at h
    have hacts := ActionTable.acts_act (ε := ε) table m source q lookahead
    rw [h] at hacts
    cases hacts with
    | stop hstop =>
      refine ⟨.firm fun args => ?_, rfl⟩
      rw [hstep, hlook, hstop]
    | @runOut r _ hnone ha =>
      -- the token was at hand, so it is the end of the input that the table wants to consume
      obtain rfl : lookahead = none := hnone.resolve_left (by rw [hp]; nofun)
      have hlast : token.isEndOfFile = true := by
        rcases hl with ⟨hlast, _⟩ | ⟨_, _, _, hsome⟩
        · exact hlast
        · cases hsome
      exact ⟨.atEnd rfl hm hst rfl ha (hend hlast), rfl⟩
  · rw [hskip] at h
    cases h
  · rw [hfail] at h
    cases h
    refine ⟨.firm fun args => ?_, rfl⟩
    rw [hstep, hfail, fail]

/-- An error on the symbol on top stands. -/
theorem stands_of_goto {q : St} {states : List St} {item : StackItem S} {items : List (StackItem S)}
    (hm : m.mode = .pendingGoto) (hst : m.states = q :: states) (hi : m.items = item :: items)
    (h : act table m source q (some item.symbol) = .inr (.failed (.error e), m', source')) :
    Stands table e (m', source') ∧ m'.args = m.args := by
  have hacts := ActionTable.acts_act (ε := ε) table m source q (some item.symbol)
  rw [h] at hacts
  cases hacts with
  | stop hstop =>
    refine ⟨.firm fun args => ?_, rfl⟩
    have hgoto : Machine.step table ({ m with args := args }, source) = _ := ActionTable.step_eq_act_of_goto hm hst hi
    rw [hgoto, hstop]
  | runOut hm' _ _ => exact absurd hm hm'

/-- **An error that is not the source's stands** after the step that comes to it, which leaves the list alone. -/
theorem Heeds.stands (hsource : KeepsEnding source₀) (h : Heeds source₀ c)
    (hstep : Machine.step table c = .inr (.failed (.error e), m', source')) (he : ∀ e', e ≠ .source e') :
    Stands table e (m', source') ∧ m'.args = c.1.args := by
  obtain ⟨m, source⟩ := c
  have hform := ActionTable.stepForm_step table m source
  rw [hstep] at hform
  generalize hs : (.inr (.failed (.error e), m', source') : Step St S R σ ε) = s at hform
  cases hform with
  | accepted hm =>
    cases hs
    exact ⟨.firm fun args => by simp only [Machine.step, hm, fail], rfl⟩
  | noState hst =>
    cases hs
    refine ⟨.firm fun args => ?_, rfl⟩
    cases hm : m'.mode with
    | accepted =>
      simp only [Machine.step, hm, fail] at hstep
      cases hstep
    | pendingGoto | reading => simp only [Machine.step, hst, fail]
  | noItem hm hi =>
    cases hs
    refine ⟨.firm fun args => ?_, rfl⟩
    cases hst : m'.states with
    | nil =>
      simp only [Machine.step, hm, hst, fail] at hstep
      cases hstep
    | cons q states => simp only [Machine.step, hm, hi, fail]
  | @noToken failure _ hp hn =>
    cases failure with
    | error e' =>
      cases hs
      exact absurd rfl (he e')
    | fault f => cases hs
  | @look q states token behind hm hst hp =>
    have hheld := h.peeks hsource hp
    have hlook : Stands table e (m', source') ∧ m'.args = (ActionTable.holding m token).args :=
      stands_of_look hm hst rfl (hheld.ended token rfl) hs.symm
    exact hlook
  | goto hm hst hi => exact stands_of_goto hm hst hi hs.symm

/-- What calls keep in mind from the start on. -/
theorem heeds_start (initial : St) (source : σ) : Heeds source ((start initial : Machine St S), source) :=
  ⟨.refl, nofun⟩

/-- **Errors stand.** Let the source keep to the end of the input once it is there. When a call, behind any others, comes to
an error that is not the source's, it has left the list alone, and after any further calls the next one comes to the
same error at once; the stacks stay as the first of these calls has left them, and each list as its caller has given it. -/
theorem stands_of_error (table : ActionTable St S R) (hsource : KeepsEnding source₀)
    (hcalls : Calls table (start table.initial, source₀) (m, source)) {args : List (StackItem S)} {fuel : Nat}
    (h : nextEvent table fuel { m with args := args } source = some (.failed (.error e), m', source'))
    (he : ∀ e', e ≠ .source e') :
    m'.args = args ∧ ∀ m₁ source₁, Calls table (m', source') (m₁, source₁) →
      m₁.states = m'.states ∧ m₁.items = m'.items ∧
      ∀ (args₁ : List (StackItem S)) (fuel₁ : Nat), ∃ m₂ source₂,
        nextEvent table (fuel₁ + 1) { m₁ with args := args₁ } source₁ = some (.failed (.error e), m₂, source₂) ∧
        m₂.states = m₁.states ∧ m₂.items = m₁.items ∧ m₂.args = args₁ := by
  obtain ⟨last, hreach, hlast⟩ := exists_reaches h
  have hargs : ∀ (m : Machine St S) source args, Heeds source₀ (m, source) →
      Heeds source₀ ({ m with args := args }, source) := fun _ _ _ h => h.of_peeked (.inl rfl)
  have hstep : ∀ c : Machine St S × σ, Heeds source₀ c → Heeds source₀ (step table c).after := fun _ h => h.step hsource
  have hheeds := hcalls.invariant hargs hstep (heeds_start _ _)
  have hheeds' := reaches_invariant hstep hreach (hargs m source args hheeds)
  obtain ⟨hstands, hleft⟩ := hheeds'.stands hsource hlast he
  have hkept : last.1.args = args := by
    refine hreach.invariant (P := fun c => c.1.args = args) rfl fun c d hc hs => (args_of_step hs).trans hc
  refine ⟨hleft.trans hkept, fun m₁ source₁ hcalls₁ => ?_⟩
  obtain ⟨hstands₁, hstates, hitems⟩ := hstands.calls hcalls₁
  refine ⟨hstates, hitems, fun args₁ fuel₁ => ?_⟩
  obtain ⟨m₂, source₂, hnext, hstates₂, hitems₂, hargs₂, _⟩ := hstands₁.call args₁ fuel₁
  exact ⟨m₂, source₂, hnext, hstates₂, hitems₂, hargs₂⟩

end Errors

/-- A table for a cross in parentheses, its states numbered by hand. -/
def crosses : ActionTable Nat Char Nat where
  initial := 0
  terminal t := if t.text = "(" then some '(' else if t.text = ")" then some ')' else if t.text = "x" then some 'x' else none
  action
    | 0, some '(' | 2, some '(' => .ok (.shift 2)
    | 0, some 'x' | 2, some 'x' => .ok (.shift 3)
    | 0, some 'S' => .ok (.shift 1)
    | 2, some 'S' => .ok (.shift 4)
    | 1, none => .ok .accept
    | 3, some ')' | 3, none => .ok (.reduce 1 'S' 1)
    | 4, some ')' => .ok (.shift 5)
    | 5, some ')' | 5, none => .ok (.reduce 0 'S' 3)
    | _, _ => .ok (.error .incorrectSymbol)

/-- A cross behind a parenthesis that stays open. -/
def unclosed : List Token := [⟨.sign, "(", ⟨1, 1⟩⟩, ⟨.identifier, "x", ⟨1, 2⟩⟩]

/-- The first call shifts two tokens and tells a reduction; from the second one on the end of the input is wrong. -/
theorem stands_of_error_unclosed : ∃ (m m' : Machine Nat Char) (source source' : TokenList),
    nextEvent crosses 4 (start 0) (TokenList.ofList unclosed) = some (.event (.reduce 1 'S'), m, source) ∧
    nextEvent crosses 4 { m with args := [] } source =
      some (.failed (.error (.unexpectedToken "<eof>" ⟨1, 3⟩)), m', source') ∧
    m'.args = [] ∧ ∀ m₁ source₁, Calls crosses (m', source') (m₁, source₁) →
      m₁.states = m'.states ∧ m₁.items = m'.items ∧
      ∀ (args₁ : List (StackItem Char)) (fuel₁ : Nat), ∃ m₂ source₂,
        nextEvent crosses (fuel₁ + 1) { m₁ with args := args₁ } source₁ =
          some (.failed (.error (.unexpectedToken "<eof>" ⟨1, 3⟩)), m₂, source₂) ∧
        m₂.states = m₁.states ∧ m₂.items = m₁.items ∧ m₂.args = args₁ := by
  have hfirst : nextEvent crosses 4 (start 0) (TokenList.ofList unclosed) =
      some (.event (.reduce 1 'S'), _, _) := rfl
  have hsecond : nextEvent crosses 4 ⟨[2, 0], [.nonterminal 'S', .terminal '(' ⟨.sign, "(", ⟨1, 1⟩⟩], .pendingGoto,
      some (.endOfFile ⟨1, 3⟩), []⟩ (⟨[], ⟨1, 3⟩⟩ : TokenList) =
        some (.failed (.error (.unexpectedToken "<eof>" ⟨1, 3⟩)), _, _) := rfl
  exact ⟨_, _, _, _, hfirst, hsecond, stands_of_error crosses (TokenList.keepsEnding (by decide))
    (.single (.intro [] 4 hfirst)) hsecond nofun⟩

end Machine
end TableParser
