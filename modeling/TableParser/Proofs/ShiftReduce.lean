import TableParser.Parse.ShiftReduce
import TableParser.Proofs.Run

/-!
# The moves of the shift/reduce driver

What one step of a parse can do, whatever the table (`ActionTable.Moves`), and when it accepts
(`ActionTable.Accepts`). Invariants of parses are shown move by move; for runs to a given end the moves are steps
(`parseStep_shift` and its companions).

* **The token at hand** (`Machine.Peeks`) is the one read before, or the next one of the source.
* **Inversion** (`ActionTable.turns_parseStep`): a step of a parse is a move, accepts, fails or faults, each for one of
  the reasons listed, and nothing else.
* **Other sources** (`Reaches.exists_pulled`): a run goes as it does because of the tokens that it pulls.
-/

namespace TableParser

variable {St S R σ ε : Type}

/-! ## Looking ahead -/

/-- The token at hand, and the source behind it. -/
def Machine.Peeks [TokenSource σ ε] (m : Machine St S) (source : σ) (token : Token) (behind : σ) : Prop :=
  m.peeked = some token ∧ behind = source ∨ m.peeked = none ∧ TokenSource.next source = (.ok token, behind)

/-- What the table is asked on a token: the terminal that it stands for, and nothing at the end of the input. -/
def ActionTable.Looks (table : ActionTable St S R) (token : Token) (lookahead : Option S) : Prop :=
  token.isEndOfFile = true ∧ lookahead = none ∨
    token.isEndOfFile = false ∧ ∃ s, table.terminal token = some s ∧ lookahead = some s

/-- The table is asked for a symbol on tokens that stand for it, and that are not the end of the input. -/
theorem ActionTable.Looks.of_some {table : ActionTable St S R} {token : Token} {s : S}
    (h : table.Looks token (some s)) : token.isEndOfFile = false ∧ table.terminal token = some s := by
  rcases h with ⟨_, hnone⟩ | ⟨he, s', hs, hsome⟩
  · cases hnone
  · cases hsome
    exact ⟨he, hs⟩

/-- The configuration of a parse. -/
abbrev ParseConfig (St S σ : Type) : Type := (Machine St S × σ) × TreeBuild S

namespace ActionTable

variable [TokenSource σ ε] {table : ActionTable St S R}

/-- The moves of a parse that goes on. -/
inductive Moves (table : ActionTable St S R) : ParseConfig St S σ → ParseConfig St S σ → Prop
  /-- A line break of no use is skipped. -/
  | skip {m : Machine St S} {source behind : σ} {b : TreeBuild S} {token : Token} (hm : m.mode = .reading)
      (hp : m.Peeks source token behind) (hn : token.kind = .newline) :
      Moves table ((m, source), b) (({ m with peeked := none }, behind), b)
  /-- The token goes onto the stack. -/
  | shift {m : Machine St S} {source behind : σ} {b : TreeBuild S} {token : Token} {q r : St} {states : List St} {s : S}
      (hm : m.mode = .reading) (hs : m.states = q :: states) (hp : m.Peeks source token behind)
      (hl : table.Looks token (some s)) (ha : table.action q (some s) = .ok (.shift r)) :
      Moves table ((m, source), b)
        (({ m with states := r :: m.states, items := .terminal s token :: m.items, peeked := none }, behind), b)
  /-- The state behind a nonterminal is entered. -/
  | goto {m : Machine St S} {source : σ} {b : TreeBuild S} {q r : St} {states : List St} {item : StackItem S}
      {items : List (StackItem S)} (hm : m.mode = .pendingGoto) (hs : m.states = q :: states)
      (hi : m.items = item :: items) (ha : table.action q (some item.symbol) = .ok (.shift r)) :
      Moves table ((m, source), b) (({ m with states := r :: m.states, mode := .reading }, source), b)
  /-- The last items are replaced by a nonterminal. -/
  | reduce {m : Machine St S} {source behind : σ} {b b' : TreeBuild S} {token : Token} {q : St} {states : List St}
      {lookahead : Option S} {id : R} {lhs : S} {arity : Nat} (hm : m.mode = .reading) (hs : m.states = q :: states)
      (hp : m.Peeks source token behind) (hl : table.Looks token lookahead)
      (ha : table.action q lookahead = .ok (.reduce id lhs arity)) (hstates : arity ≤ m.states.length)
      (hitems : arity ≤ m.items.length) (hb : b.reduce? lhs (m.items.take arity).reverse = some b') :
      Moves table ((m, source), b)
        (({ m with
            states := m.states.drop arity
            items := .nonterminal lhs :: m.items.drop arity
            mode := .pendingGoto
            peeked := some token
            args := (m.items.take arity).reverse }, behind), b')
  /-- A table may also ask for a reduction when it is asked where to go. -/
  | regoto {m : Machine St S} {source : σ} {b b' : TreeBuild S} {q : St} {states : List St} {item : StackItem S}
      {items : List (StackItem S)} {id : R} {lhs : S} {arity : Nat} (hm : m.mode = .pendingGoto)
      (hs : m.states = q :: states) (hi : m.items = item :: items)
      (ha : table.action q (some item.symbol) = .ok (.reduce id lhs arity)) (hstates : arity ≤ m.states.length)
      (hitems : arity ≤ m.items.length) (hb : b.reduce? lhs (m.items.take arity).reverse = some b') :
      Moves table ((m, source), b)
        (({ m with
            states := m.states.drop arity
            items := .nonterminal lhs :: m.items.drop arity
            mode := .pendingGoto
            args := (m.items.take arity).reverse }, source), b')

/-- A parse ends with a tree. -/
inductive Accepts (table : ActionTable St S R) : ParseConfig St S σ → Tree S → Prop
  | accept {m : Machine St S} {source behind : σ} {b : TreeBuild S} {token : Token} {q : St} {states : List St}
      {lookahead : Option S} {tree : Tree S} (hm : m.mode = .reading) (hs : m.states = q :: states)
      (hp : m.Peeks source token behind) (hl : table.Looks token lookahead)
      (ha : table.action q lookahead = .ok .accept) (hi : m.items ≠ []) (hb : b.finish? = some tree) :
      Accepts table ((m, source), b) tree
  | goto {m : Machine St S} {source : σ} {b : TreeBuild S} {q : St} {states : List St} {item : StackItem S}
      {items : List (StackItem S)} {tree : Tree S} (hm : m.mode = .pendingGoto) (hs : m.states = q :: states)
      (hi : m.items = item :: items) (ha : table.action q (some item.symbol) = .ok .accept)
      (hb : b.finish? = some tree) : Accepts table ((m, source), b) tree

/-! ## Steps that are moves -/

section Steps

variable {m : Machine St S} {source behind : σ} {b b' : TreeBuild S} {token : Token} {q r : St} {states : List St}
  {lookahead : Option S}

/-- The machine with a token at hand. -/
abbrev holding (m : Machine St S) (token : Token) : Machine St S := { m with peeked := some token }

/-- In reading mode a step looks at the token at hand. -/
theorem step_eq_look (hm : m.mode = .reading) (hs : m.states = q :: states) (hp : m.Peeks source token behind) :
    Machine.step table (m, source) = Machine.look table (holding m token) behind q token := by
  obtain ⟨ss, items, mode, peeked, args⟩ := m
  dsimp only at hm hs
  subst hm
  subst hs
  rcases hp with ⟨hp, rfl⟩ | ⟨hp, hn⟩
  · dsimp only at hp
    subst hp
    rfl
  · dsimp only at hp
    subst hp
    unfold Machine.step
    dsimp only
    rw [hn]

omit [TokenSource σ ε] in
theorem look_eq_act (hl : table.Looks token lookahead) :
    (Machine.look table m behind q token : Machine.Step St S R σ ε) = Machine.act table m behind q lookahead := by
  unfold Machine.look
  rcases hl with ⟨he, rfl⟩ | ⟨he, s, hs, rfl⟩
  · rw [if_pos he]
  · rw [if_neg (by simp [he]), hs]

omit [TokenSource σ ε] in
/-- The table is asked on every token but those that stand for no terminal. -/
theorem not_looks (h : ¬∃ lookahead, table.Looks token lookahead) :
    token.isEndOfFile = false ∧ table.terminal token = none := by
  have he : token.isEndOfFile = false := by
    rw [← Bool.not_eq_true]
    exact fun he => h ⟨none, .inl ⟨he, rfl⟩⟩
  refine ⟨he, ?_⟩
  cases ht : table.terminal token with
  | none => rfl
  | some s => exact absurd ⟨some s, .inr ⟨he, s, ht, rfl⟩⟩ h

omit [TokenSource σ ε] in
/-- A look at a token asks the table, skips a line break, or stops at a token that stands for no terminal. -/
theorem look_cases (table : ActionTable St S R) (q : St) (token : Token) :
    (∃ lookahead, table.Looks token lookahead ∧ ∀ (m : Machine St S) (source : σ),
      (Machine.look table m source q token : Machine.Step St S R σ ε) = Machine.act table m source q lookahead) ∨
    (token.kind = .newline ∧ ∀ (m : Machine St S) (source : σ),
      (Machine.look table m source q token : Machine.Step St S R σ ε) = .inl ({ m with peeked := none }, source)) ∨
    (token.isEndOfFile = false ∧ table.terminal token = none ∧ token.kind ≠ .newline ∧
      ∀ (m : Machine St S) (source : σ), (Machine.look table m source q token : Machine.Step St S R σ ε) =
        Machine.fail m source (.invalidToken token.text token.position)) := by
  by_cases hl : ∃ lookahead, table.Looks token lookahead
  · obtain ⟨lookahead, hl⟩ := hl
    exact .inl ⟨lookahead, hl, fun m source => look_eq_act hl⟩
  · obtain ⟨he, ht⟩ := not_looks hl
    by_cases hn : token.kind = .newline
    · refine .inr (.inl ⟨hn, fun m source => ?_⟩)
      simp only [Machine.look, he, ht, hn, Bool.false_eq_true, if_false, if_true]
    · refine .inr (.inr ⟨he, ht, hn, fun m source => ?_⟩)
      simp only [Machine.look, he, ht, hn, Bool.false_eq_true, if_false]

/-- In reading mode a step does what the table wants on the token at hand. -/
theorem step_eq_act (hm : m.mode = .reading) (hs : m.states = q :: states) (hp : m.Peeks source token behind)
    (hl : table.Looks token lookahead) :
    Machine.step table (m, source) = Machine.act table (holding m token) behind q lookahead :=
  (step_eq_look hm hs hp).trans (look_eq_act hl)

/-- After a reduction a step asks the table where to go. -/
theorem step_eq_act_of_goto {item : StackItem S} {items : List (StackItem S)} (hm : m.mode = .pendingGoto)
    (hs : m.states = q :: states) (hi : m.items = item :: items) :
    Machine.step table (m, source) = Machine.act table m source q (some item.symbol) := by
  unfold Machine.step
  simp only [hm, hs]
  rw [hi]

/-- Without a state a step ends with an error. -/
theorem step_eq_fail (hm : m.mode ≠ .accepted) (hs : m.states = []) :
    Machine.step table (m, source) = Machine.fail m source .emptyNodeStack := by
  unfold Machine.step
  cases hmode : m.mode with
  | accepted => exact absurd hmode hm
  | pendingGoto | reading => simp only [hmode, hs]

omit [TokenSource σ ε] in
/-- A reduction for which there are enough states and items takes the items from the stack. -/
theorem act_reduce (m : Machine St S) (behind : σ) {id : R} {lhs : S} {arity : Nat}
    (ha : table.action q lookahead = .ok (.reduce id lhs arity))
    (hstates : arity ≤ m.states.length) (hitems : arity ≤ m.items.length) :
    (Machine.act table m behind q lookahead : Machine.Step St S R σ ε) = .inr (.event (.reduce id lhs), { m with
      states := m.states.drop arity
      items := .nonterminal lhs :: m.items.drop arity
      mode := .pendingGoto
      args := (m.items.take arity).reverse }, behind) := by
  unfold Machine.act
  rw [ha]
  dsimp only
  unfold Machine.reduce
  rw [if_neg]
  simp only [Bool.or_eq_true, decide_eq_true_eq]
  omega

/-- A line break that the table has no use for is skipped. -/
theorem parseStep_skip (hm : m.mode = .reading) (hs : m.states = q :: states) (hp : m.Peeks source token behind)
    (hn : token.kind = .newline)
    (ha : ∀ s, table.terminal token = some s → ∃ cause, table.action q (some s) = .ok (.error cause)) :
    table.parseStep ((m, source), b) = .inl (({ m with peeked := none }, behind), b) := by
  have he := Token.isEndOfFile_of_newline hn
  unfold parseStep
  rw [step_eq_look hm hs hp]
  unfold Machine.look
  rw [if_neg (by simp [he])]
  cases ht : table.terminal token with
  | none => simp only [hn, if_true]
  | some s =>
    obtain ⟨cause, hcause⟩ := ha s ht
    simp only [Machine.act, hcause, Machine.refuse, hm, hn, if_true]

theorem parseStep_shift {s : S} (hm : m.mode = .reading) (hs : m.states = q :: states)
    (hp : m.Peeks source token behind) (hl : table.Looks token (some s))
    (ha : table.action q (some s) = .ok (.shift r)) :
    table.parseStep ((m, source), b) =
      .inl (({ m with states := r :: m.states, items := .terminal s token :: m.items, peeked := none }, behind), b) := by
  unfold parseStep
  rw [step_eq_act hm hs hp hl]
  unfold Machine.act
  rw [ha]
  unfold Machine.shift
  simp only [hm]

theorem parseStep_reduce {id : R} {lhs : S} {arity : Nat} (hm : m.mode = .reading)
    (hs : m.states = q :: states) (hp : m.Peeks source token behind) (hl : table.Looks token lookahead)
    (ha : table.action q lookahead = .ok (.reduce id lhs arity)) (hstates : arity ≤ m.states.length)
    (hitems : arity ≤ m.items.length) (hb : b.reduce? lhs (m.items.take arity).reverse = some b') :
    table.parseStep ((m, source), b) = .inl (({ m with
      states := m.states.drop arity
      items := .nonterminal lhs :: m.items.drop arity
      mode := .pendingGoto
      peeked := some token
      args := (m.items.take arity).reverse }, behind), b') := by
  have hact := act_reduce (ε := ε) (holding m token) behind ha hstates hitems
  unfold parseStep
  rw [step_eq_act hm hs hp hl, hact]
  simp only [build, hb]

theorem parseStep_goto {item : StackItem S} {items : List (StackItem S)} (hm : m.mode = .pendingGoto)
    (hs : m.states = q :: states) (hi : m.items = item :: items)
    (ha : table.action q (some item.symbol) = .ok (.shift r)) :
    table.parseStep ((m, source), b) = .inl (({ m with states := r :: m.states, mode := .reading }, source), b) := by
  unfold parseStep
  rw [step_eq_act_of_goto hm hs hi]
  unfold Machine.act
  rw [ha]
  unfold Machine.shift
  simp only [hm]

theorem parseStep_accept {tree : Tree S} (hm : m.mode = .reading) (hs : m.states = q :: states)
    (hp : m.Peeks source token behind) (hl : table.Looks token lookahead)
    (ha : table.action q lookahead = .ok .accept) (hi : m.items ≠ []) (hb : b.finish? = some tree) :
    table.parseStep ((m, source), b) = .inr (.ok tree) := by
  unfold parseStep
  rw [step_eq_act hm hs hp hl]
  unfold Machine.act
  rw [ha]
  unfold Machine.accept
  obtain ⟨item, items, hitems⟩ := List.exists_cons_of_ne_nil hi
  simp only [hitems, build, hb]

/-- A token that the table refuses, and that is no line break, is an error. -/
theorem parseStep_refuse {cause : ActionError} (hm : m.mode = .reading) (hs : m.states = q :: states)
    (hp : m.Peeks source token behind) (hl : table.Looks token lookahead)
    (ha : table.action q lookahead = .ok (.error cause)) (hn : token.kind ≠ .newline) :
    table.parseStep ((m, source), b) = .inr (.error (.error (.unexpectedToken token.render token.position))) := by
  unfold parseStep
  rw [step_eq_act hm hs hp hl]
  unfold Machine.act
  rw [ha]
  unfold Machine.refuse
  simp only [hm, hn, if_false, Machine.fail, build]

end Steps

/-! ## Inversion -/

section Inversion

variable {m : Machine St S} {source behind : σ} {b : TreeBuild S} {token : Token} {q : St} {states : List St}
  {lookahead : Option S} {c c' : ParseConfig St S σ} {tree : Tree S}

/-- What a step comes to before the table is asked: an error, a look at the token at hand, or the question where to
go. -/
inductive StepForm (table : ActionTable St S R) (m : Machine St S) (source : σ) : Machine.Step St S R σ ε → Prop
  | accepted (hm : m.mode = .accepted) : StepForm table m source (Machine.fail m source .alreadyAccepted)
  | noState (hs : m.states = []) : StepForm table m source (Machine.fail m source .emptyNodeStack)
  | noItem (hm : m.mode = .pendingGoto) (hi : m.items = []) :
      StepForm table m source (Machine.fail m source .emptyItemStack)
  | noToken {failure : Failure ε} {behind : σ} (hp : m.peeked = none)
      (hn : TokenSource.next source = (.error failure, behind)) :
      StepForm table m source (.inr (.failed (failure.map .source), m, behind))
  | look {q : St} {states : List St} {token : Token} {behind : σ} (hm : m.mode = .reading) (hs : m.states = q :: states)
      (hp : m.Peeks source token behind) :
      StepForm table m source (Machine.look table (holding m token) behind q token)
  | goto {q : St} {states : List St} {item : StackItem S} {items : List (StackItem S)} (hm : m.mode = .pendingGoto)
      (hs : m.states = q :: states) (hi : m.items = item :: items) :
      StepForm table m source (Machine.act table m source q (some item.symbol))

theorem StepForm.of_eq {result : Machine.Step St S R σ ε} (hs : Machine.step table (m, source) = result)
    (h : StepForm table m source result) : StepForm table m source (Machine.step table (m, source)) := hs ▸ h

theorem stepForm_step (table : ActionTable St S R) (m : Machine St S) (source : σ) :
    StepForm table m source (Machine.step table (m, source)) := by
  cases hm : m.mode with
  | accepted =>
    have hstep : Machine.step table (m, source) = Machine.fail m source .alreadyAccepted := by
      unfold Machine.step
      simp only [hm]
    exact .of_eq hstep (.accepted hm)
  | pendingGoto =>
    cases hs : m.states with
    | nil => exact .of_eq (step_eq_fail (by rw [hm]; exact Mode.noConfusion) hs) (.noState hs)
    | cons q states =>
      cases hi : m.items with
      | nil =>
        have hstep : Machine.step table (m, source) = Machine.fail m source .emptyItemStack := by
          unfold Machine.step
          simp only [hm, hs, hi]
        exact .of_eq hstep (.noItem hm hi)
      | cons item items => exact .of_eq (step_eq_act_of_goto hm hs hi) (.goto hm hs hi)
  | reading =>
    cases hs : m.states with
    | nil => exact .of_eq (step_eq_fail (by rw [hm]; exact Mode.noConfusion) hs) (.noState hs)
    | cons q states =>
      cases hp : m.peeked with
      | some token =>
        have hpeeks : m.Peeks source token source := .inl ⟨hp, rfl⟩
        exact .of_eq (step_eq_look hm hs hpeeks) (.look hm hs hpeeks)
      | none =>
        cases hn : TokenSource.next source with
        | mk result behind =>
          cases result with
          | ok token =>
            have hpeeks : m.Peeks source token behind := .inr ⟨hp, hn⟩
            exact .of_eq (step_eq_look hm hs hpeeks) (.look hm hs hpeeks)
          | error failure =>
            have hstep : Machine.step table (m, source) = .inr (.failed (failure.map .source), m, behind) := by
              unfold Machine.step
              simp only [hm, hs, hp, hn]
            exact .of_eq hstep (.noToken hp hn)

/-- What a step that does what the table wants can do. Where it stops with an error and leaves all as it was, it would do
so whatever the last event has taken from the stack and whatever comes behind the token at hand. -/
inductive Acts (table : ActionTable St S R) (m : Machine St S) (source : σ) (q : St) (lookahead : Option S) :
    Machine.Step St S R σ ε → Prop
  | fault {f : Fault} (ha : table.action q lookahead = .error f) :
      Acts table m source q lookahead (.inr (.failed (.fault f), m, source))
  | stop {e : ParseError ε} (h : ∀ args (source' : σ), Machine.act table { m with args := args } source' q lookahead =
      .inr (.failed (.error e), { m with args := args }, source')) :
      Acts table m source q lookahead (.inr (.failed (.error e), m, source))
  | runOut {r : St} (hm : m.mode ≠ .pendingGoto) (hl : m.peeked = none ∨ lookahead = none)
      (ha : table.action q lookahead = .ok (.shift r)) :
      Acts table m source q lookahead (.inr (.failed (.error .unexpectedEnd), { m with peeked := none }, source))
  | goto {r : St} (hm : m.mode = .pendingGoto) (ha : table.action q lookahead = .ok (.shift r)) :
      Acts table m source q lookahead (.inl ({ m with states := r :: m.states, mode := .reading }, source))
  | shift {r : St} {token : Token} {s : S} (hm : m.mode ≠ .pendingGoto) (hp : m.peeked = some token)
      (hl : lookahead = some s) (ha : table.action q lookahead = .ok (.shift r)) :
      Acts table m source q lookahead (.inl ({ m with
        states := r :: m.states, items := .terminal s token :: m.items, mode := .reading, peeked := none }, source))
  | reduce {id : R} {lhs : S} {arity : Nat} (ha : table.action q lookahead = .ok (.reduce id lhs arity))
      (hstates : arity ≤ m.states.length) (hitems : arity ≤ m.items.length) :
      Acts table m source q lookahead (.inr (.event (.reduce id lhs), { m with
        states := m.states.drop arity
        items := .nonterminal lhs :: m.items.drop arity
        mode := .pendingGoto
        args := (m.items.take arity).reverse }, source))
  | accept {item : StackItem S} {items : List (StackItem S)} (ha : table.action q lookahead = .ok .accept)
      (hi : m.items = item :: items) :
      Acts table m source q lookahead
        (.inr (.event .accept, { m with items := items, mode := .accepted, args := [item] }, source))
  | skip {token : Token} (hm : m.mode ≠ .pendingGoto) (hp : m.peeked = some token) (hn : token.kind = .newline) :
      Acts table m source q lookahead (.inl ({ m with peeked := none }, source))

omit [TokenSource σ ε] in
theorem acts_shift {r : St} (ha : table.action q lookahead = .ok (.shift r)) :
    Acts (ε := ε) table m source q lookahead (Machine.shift m source r lookahead) := by
  unfold Machine.shift
  split
  · rename_i hm
    exact .goto hm ha
  · rename_i hm
    split
    · rename_i token s hp
      exact .shift hm hp rfl ha
    · rename_i hnone
      refine .runOut hm (or_iff_not_imp_left.mpr fun hp => ?_) ha
      obtain ⟨token, hp⟩ := Option.ne_none_iff_exists'.mp hp
      exact Option.eq_none_iff_forall_ne_some.mpr fun s hs => hnone token s hp hs

omit [TokenSource σ ε] in
theorem acts_refuse {cause : ActionError} (ha : table.action q lookahead = .ok (.error cause)) :
    Acts (ε := ε) table m source q lookahead (Machine.refuse m source cause) := by
  obtain ⟨states, items, mode, peeked, args⟩ := m
  unfold Machine.refuse
  split
  · rename_i hm
    refine .stop fun args source' => ?_
    dsimp only at hm
    simp only [Machine.act, ha, Machine.refuse, Machine.fail, hm]
  · rename_i hp _
    refine .stop fun args source' => ?_
    dsimp only at hp
    simp only [Machine.act, ha, Machine.refuse, Machine.fail, hp]
  · rename_i token hp hm
    split
    · rename_i hn
      exact .skip hm hp hn
    · rename_i hn
      refine .stop fun args source' => ?_
      dsimp only at hp
      simp only [Machine.act, ha, Machine.refuse, Machine.fail, hp, hn, if_false]

omit [TokenSource σ ε] in
theorem acts_act (table : ActionTable St S R) (m : Machine St S) (source : σ) (q : St) (lookahead : Option S) :
    Acts (ε := ε) table m source q lookahead (Machine.act table m source q lookahead) := by
  obtain ⟨states, items, mode, peeked, args⟩ := m
  unfold Machine.act
  cases ha : table.action q lookahead with
  | error f => exact .fault ha
  | ok action =>
    cases action with
    | shift r => exact acts_shift ha
    | reduce id lhs arity =>
      dsimp only
      unfold Machine.reduce
      split
      · rename_i hshort
        refine .stop fun args source' => ?_
        simp only [Machine.act, ha, Machine.reduce, Machine.fail]
        rw [if_pos hshort]
      · rename_i hlen
        simp only [Bool.or_eq_true, decide_eq_true_eq, not_or, Nat.not_lt] at hlen
        exact .reduce ha hlen.1 hlen.2
    | accept =>
      dsimp only
      unfold Machine.accept
      cases items with
      | nil => exact .stop fun args source' => by simp only [Machine.act, ha, Machine.accept, Machine.fail]
      | cons item items => exact .accept ha rfl
    | error cause => exact acts_refuse ha

end Inversion

/-! ## Errors -/

/-- What a step asks the table about: the token at hand, or after a reduction the nonterminal on top. -/
inductive Asks (table : ActionTable St S R) (m : Machine St S) (source : σ) (q : St) (lookahead : Option S) : Prop
  | token {states : List St} {token : Token} {behind : σ} (hm : m.mode = .reading) (hs : m.states = q :: states)
      (hp : m.Peeks source token behind) (hl : table.Looks token lookahead)
  | goto {states : List St} {item : StackItem S} {items : List (StackItem S)} (hm : m.mode = .pendingGoto)
      (hs : m.states = q :: states) (hi : m.items = item :: items) (hl : lookahead = some item.symbol)

/-- Why a parse ends with an error. -/
inductive Fails (table : ActionTable St S R) : ParseConfig St S σ → ParseError ε → Prop
  /-- The source fails. -/
  | source {m : Machine St S} {source behind : σ} {b : TreeBuild S} {e : ε} (hp : m.peeked = none)
      (hn : TokenSource.next source = (.error (.error e), behind)) : Fails table ((m, source), b) (.source e)
  /-- The token at hand stands for no terminal. -/
  | invalidToken {m : Machine St S} {source behind : σ} {b : TreeBuild S} {token : Token} (hm : m.mode = .reading)
      (hp : m.Peeks source token behind) (he : token.isEndOfFile = false) (hl : table.terminal token = none)
      (hn : token.kind ≠ .newline) : Fails table ((m, source), b) (.invalidToken token.text token.position)
  /-- The table refuses the token at hand. -/
  | unexpectedToken {m : Machine St S} {source behind : σ} {b : TreeBuild S} {token : Token} {q : St} {states : List St}
      {lookahead : Option S} {cause : ActionError} (hm : m.mode = .reading) (hs : m.states = q :: states)
      (hp : m.Peeks source token behind) (hl : table.Looks token lookahead)
      (ha : table.action q lookahead = .ok (.error cause)) (hn : token.kind ≠ .newline) :
      Fails table ((m, source), b) (.unexpectedToken token.render token.position)
  /-- The table wants to consume the end of the input. -/
  | unexpectedEnd {m : Machine St S} {source behind : σ} {b : TreeBuild S} {token : Token} {q r : St} {states : List St}
      (hm : m.mode = .reading) (hs : m.states = q :: states) (hp : m.Peeks source token behind)
      (hl : table.Looks token none) (ha : table.action q none = .ok (.shift r)) :
      Fails table ((m, source), b) .unexpectedEnd
  /-- The table has no state to go to. -/
  | table {m : Machine St S} {source : σ} {b : TreeBuild S} {q : St} {states : List St} {item : StackItem S}
      {items : List (StackItem S)} {cause : ActionError} (hm : m.mode = .pendingGoto) (hs : m.states = q :: states)
      (hi : m.items = item :: items) (ha : table.action q (some item.symbol) = .ok (.error cause)) :
      Fails table ((m, source), b) (.table cause)
  /-- The input was accepted before. -/
  | alreadyAccepted {m : Machine St S} {source : σ} {b : TreeBuild S} (hm : m.mode = .accepted) :
      Fails table ((m, source), b) .alreadyAccepted
  /-- No state is left. -/
  | emptyNodeStack {m : Machine St S} {source : σ} {b : TreeBuild S} (hs : m.states = []) :
      Fails table ((m, source), b) .emptyNodeStack
  /-- There is no nonterminal to go on with. -/
  | noItem {m : Machine St S} {source : σ} {b : TreeBuild S} (hm : m.mode = .pendingGoto) (hi : m.items = []) :
      Fails table ((m, source), b) .emptyItemStack
  /-- There is not enough left for a reduction. -/
  | reduce {m : Machine St S} {source : σ} {b : TreeBuild S} {q : St} {lookahead : Option S} {id : R} {lhs : S}
      {arity : Nat} (hq : table.Asks m source q lookahead) (ha : table.action q lookahead = .ok (.reduce id lhs arity))
      (h : m.states.length < arity ∨ m.items.length < arity ∨ b.reduce? lhs (m.items.take arity).reverse = none) :
      Fails table ((m, source), b) .emptyItemStack
  /-- There is nothing to accept. -/
  | accept {m : Machine St S} {source : σ} {b : TreeBuild S} {q : St} {lookahead : Option S}
      (hq : table.Asks m source q lookahead) (ha : table.action q lookahead = .ok .accept)
      (h : m.items = [] ∨ b.finish? = none) : Fails table ((m, source), b) .emptyItemStack

/-- Why a parse faults. -/
inductive Faults (table : ActionTable St S R) : ParseConfig St S σ → Fault → Prop
  /-- The source does. -/
  | source {m : Machine St S} {source behind : σ} {b : TreeBuild S} {f : Fault} (hp : m.peeked = none)
      (hn : TokenSource.next source = (.error (.fault f), behind)) : Faults table ((m, source), b) f
  /-- The table does. -/
  | table {m : Machine St S} {source : σ} {b : TreeBuild S} {q : St} {lookahead : Option S} {f : Fault}
      (hq : table.Asks m source q lookahead) (ha : table.action q lookahead = .error f) : Faults table ((m, source), b) f

/-! ## Whole steps -/

/-- What one step of a parse can come to: a move, a tree, an error or a fault. -/
inductive Turns (table : ActionTable St S R) (c : ParseConfig St S σ) :
    ParseConfig St S σ ⊕ Except (Failure (ParseError ε)) (Tree S) → Prop
  | moves {c' : ParseConfig St S σ} (h : Moves table c c') : Turns table c (.inl c')
  | accepts {tree : Tree S} (h : Accepts table c tree) : Turns table c (.inr (.ok tree))
  | fails {e : ParseError ε} (h : Fails table c e) : Turns table c (.inr (.error (.error e)))
  | faults {f : Fault} (h : Faults table c f) : Turns table c (.inr (.error (.fault f)))

section Turns

variable {m m' : Machine St S} {source behind : σ} {b : TreeBuild S} {q : St} {states : List St} {token : Token}
  {lookahead : Option S} {c c' : ParseConfig St S σ} {tree : Tree S} {e : ParseError ε} {f : Fault}

/-- What becomes of a parse by a step of its machine. -/
def outcome (b : TreeBuild S) (s : Machine.Step St S R σ ε) :
    ParseConfig St S σ ⊕ Except (Failure (ParseError ε)) (Tree S) :=
  match s with
  | .inl next => .inl (next, b)
  | .inr (pulled, m, source) => build b pulled m source

theorem parseStep_eq_outcome (table : ActionTable St S R) (m : Machine St S) (source : σ) (b : TreeBuild S) :
    table.parseStep ((m, source), b) = outcome b (Machine.step table (m, source)) := rfl

/-- A reduction is a move, unless the stacks or the finished trees do not suffice. -/
theorem turns_reduce {id : R} {lhs : S} {arity : Nat} (hq : table.Asks m source q lookahead)
    (ha : table.action q lookahead = .ok (.reduce id lhs arity)) (hstates : m'.states = m.states)
    (hitems : m'.items = m.items)
    (hmove : ∀ b', arity ≤ m.states.length → arity ≤ m.items.length →
      b.reduce? lhs (m.items.take arity).reverse = some b' →
      Moves table ((m, source), b) (({ m' with
        states := m.states.drop arity
        items := .nonterminal lhs :: m.items.drop arity
        mode := .pendingGoto
        args := (m.items.take arity).reverse }, behind), b')) :
    Turns table ((m, source), b) (outcome b (Machine.reduce m' behind id lhs arity : Machine.Step St S R σ ε)) := by
  unfold Machine.reduce
  rw [hstates, hitems]
  split
  · rename_i hshort
    simp only [Bool.or_eq_true, decide_eq_true_eq] at hshort
    exact .fails (.reduce hq ha (hshort.imp_right .inl))
  · rename_i hlen
    simp only [Bool.or_eq_true, decide_eq_true_eq, not_or, Nat.not_lt] at hlen
    dsimp only [outcome, build]
    cases hb : b.reduce? lhs (m.items.take arity).reverse with
    | none => exact .fails (.reduce hq ha (.inr (.inr hb)))
    | some b' => exact .moves (hmove b' hlen.1 hlen.2 hb)

/-- To accept is to hand over the tree, unless there is none. -/
theorem turns_accept (hq : table.Asks m source q lookahead) (ha : table.action q lookahead = .ok .accept)
    (hitems : m'.items = m.items)
    (haccept : ∀ tree, m.items ≠ [] → b.finish? = some tree → Accepts table ((m, source), b) tree) :
    Turns table ((m, source), b) (outcome b (Machine.accept m' behind : Machine.Step St S R σ ε)) := by
  unfold Machine.accept
  rw [hitems]
  split
  · rename_i hi
    exact .fails (.accept hq ha (.inl hi))
  · rename_i item items hi
    dsimp only [outcome, build]
    cases hb : b.finish? with
    | none => exact .fails (.accept hq ha (.inr hb))
    | some tree => exact .accepts (haccept tree (ne_of_eq_of_ne hi (List.cons_ne_nil item items)) hb)

/-- What the table wants on the token at hand. -/
theorem turns_of_token (hm : m.mode = .reading) (hs : m.states = q :: states) (hp : m.Peeks source token behind)
    (hl : table.Looks token lookahead) : Turns table ((m, source), b)
      (outcome b (Machine.act table (holding m token) behind q lookahead : Machine.Step St S R σ ε)) := by
  have hq : table.Asks m source q lookahead := .token hm hs hp hl
  unfold Machine.act
  cases ha : table.action q lookahead with
  | error f => exact .faults (.table hq ha)
  | ok action =>
    cases action with
    | shift r =>
      cases lookahead with
      | none =>
        simp only [Machine.shift, hm]
        exact .fails (.unexpectedEnd hm hs hp hl ha)
      | some s =>
        have hmove : Moves table ((m, source), b) _ := .shift hm hs hp hl ha
        simp only [Machine.shift, hm]
        rw [hm] at hmove
        exact .moves hmove
    | reduce id lhs arity =>
      exact turns_reduce hq ha rfl rfl fun b' hstates hitems hb => .reduce hm hs hp hl ha hstates hitems hb
    | accept => exact turns_accept hq ha rfl fun tree hi hb => .accept hm hs hp hl ha hi hb
    | error cause =>
      simp only [Machine.refuse, hm]
      split
      · rename_i hn
        have hmove : Moves table ((m, source), b) _ := .skip hm hp hn
        rw [hm] at hmove
        exact .moves hmove
      · rename_i hn
        exact .fails (.unexpectedToken hm hs hp hl ha hn)

/-- What the table wants behind a reduction. -/
theorem turns_of_goto {item : StackItem S} {items : List (StackItem S)} (hm : m.mode = .pendingGoto)
    (hs : m.states = q :: states) (hi : m.items = item :: items) : Turns table ((m, source), b)
      (outcome b (Machine.act table m source q (some item.symbol) : Machine.Step St S R σ ε)) := by
  have hq : table.Asks m source q (some item.symbol) := .goto hm hs hi rfl
  unfold Machine.act
  cases ha : table.action q (some item.symbol) with
  | error f => exact .faults (.table hq ha)
  | ok action =>
    cases action with
    | shift r =>
      simp only [Machine.shift, hm]
      exact .moves (.goto hm hs hi ha)
    | reduce id lhs arity =>
      exact turns_reduce hq ha rfl rfl fun b' hstates hitems hb => .regoto hm hs hi ha hstates hitems hb
    | accept => exact turns_accept hq ha rfl fun tree _ hb => .goto hm hs hi ha hb
    | error cause =>
      simp only [Machine.refuse, hm]
      exact .fails (.table hm hs hi ha)

/-- **A step moves on, accepts, fails or faults.** -/
theorem turns_parseStep (table : ActionTable St S R) (c : ParseConfig St S σ) : Turns table c (table.parseStep c) := by
  obtain ⟨⟨m, source⟩, b⟩ := c
  rw [parseStep_eq_outcome]
  have hform := stepForm_step table m source
  generalize Machine.step table (m, source) = s at hform ⊢
  cases hform with
  | accepted hm => exact .fails (.alreadyAccepted hm)
  | noState hs => exact .fails (.emptyNodeStack hs)
  | noItem hm hi => exact .fails (.noItem hm hi)
  | @noToken failure behind hp hn =>
    cases failure with
    | error e => exact .fails (.source hp hn)
    | fault f => exact .faults (.source hp hn)
  | @look q states token behind hm hs hp =>
    rcases look_cases (ε := ε) (σ := σ) table q token with ⟨lookahead, hl, hlook⟩ | ⟨hn, hlook⟩ | ⟨he, ht, hn, hlook⟩
    · rw [hlook]
      exact turns_of_token hm hs hp hl
    · rw [hlook]
      exact .moves (.skip hm hp hn)
    · rw [hlook]
      exact .fails (.invalidToken hm hp he ht hn)
  | goto hm hs hi => exact turns_of_goto hm hs hi

theorem moves_of_parseStep (h : table.parseStep c = .inl c') : Moves table c c' := by
  have hturns := turns_parseStep table c
  rw [h] at hturns
  cases hturns with
  | moves hmove => exact hmove

theorem accepts_of_parseStep (h : table.parseStep c = .inr (.ok tree)) : Accepts table c tree := by
  have hturns := turns_parseStep table c
  rw [h] at hturns
  cases hturns with
  | accepts haccepts => exact haccepts

theorem fails_of_parseStep (h : table.parseStep c = .inr (.error (.error e))) : Fails table c e := by
  have hturns := turns_parseStep table c
  rw [h] at hturns
  cases hturns with
  | fails hfails => exact hfails

theorem faults_of_parseStep (h : table.parseStep c = .inr (.error (.fault f))) : Faults table c f := by
  have hturns := turns_parseStep table c
  rw [h] at hturns
  cases hturns with
  | faults hfaults => exact hfaults

end Turns

end ActionTable

/-! ## Other sources -/

section OtherSources

variable {τ : Type} {table : ActionTable St S R} {m : Machine St S} {b : TreeBuild S} {q : St} {lookahead : Option S}
  {token : Token}

/-- The configuration with another source. -/
abbrev ParseConfig.withSource (source : τ) (c : ParseConfig St S σ) : ParseConfig St S τ := ((c.1.1, source), c.2)

namespace ActionTable

open ParseConfig (withSource)

/-- What the table wants is done whatever the source. -/
theorem outcome_act_withSource (source : σ) (source' : τ) :
    outcome b (Machine.act table m source' q lookahead : Machine.Step St S R τ ε) =
      (outcome b (Machine.act table m source q lookahead : Machine.Step St S R σ ε)).map (withSource source') id := by
  unfold Machine.act
  cases table.action q lookahead with
  | error f => rfl
  | ok action =>
    cases action with
    | shift r =>
      dsimp only [Machine.shift, Machine.fail]
      repeat' split
      all_goals rfl
    | reduce id lhs arity =>
      dsimp only [Machine.reduce, Machine.fail]
      split
      · rfl
      · dsimp only [outcome, build]
        split <;> rfl
    | accept =>
      dsimp only [Machine.accept, Machine.fail]
      split
      · rfl
      · dsimp only [outcome, build]
        split <;> rfl
    | error cause =>
      dsimp only [Machine.refuse, Machine.fail]
      repeat' split
      all_goals rfl

theorem outcome_look_withSource (source : σ) (source' : τ) :
    outcome b (Machine.look table m source' q token : Machine.Step St S R τ ε) =
      (outcome b (Machine.look table m source q token : Machine.Step St S R σ ε)).map (withSource source') id := by
  unfold Machine.look
  split
  · exact outcome_act_withSource source source'
  · split
    · exact outcome_act_withSource source source'
    · split <;> rfl

theorem source_eq_of_withSource {β : Type} {source : σ} {d : ParseConfig St S σ} {x : ParseConfig St S σ ⊕ β}
    (h : x = x.map (withSource source) id) (hx : x = .inl d) : d.1.2 = source := by
  rw [hx] at h
  exact congrArg (fun c => c.1.2) (Sum.inl.inj h)

end ActionTable

variable [TokenSource σ ε] [TokenSource τ ε] {source behind : σ} {c d : ParseConfig St S σ}

/-- The token at hand is the one that was pulled last, also from another source. -/
theorem Machine.Peeks.exists_pulled (h : m.Peeks source token behind) : ∃ pulled, Pulls source pulled behind ∧
    ∀ source' last : τ, Pulls source' pulled last → m.Peeks source' token last := by
  rcases h with ⟨hp, rfl⟩ | ⟨hp, hn⟩
  · refine ⟨[], .nil _, fun source' last h => ?_⟩
    cases h
    exact .inl ⟨hp, rfl⟩
  · refine ⟨[token], .cons hn (.nil _), fun source' last h => ?_⟩
    cases h with
    | cons hn' h =>
      cases h
      exact .inr ⟨hp, hn'⟩

namespace ActionTable

open ParseConfig (withSource)

/-- **A step depends on the tokens that it pulls**, and not on where they come from. -/
theorem parseStep_withSource (h : table.parseStep c = .inl d) : ∃ pulled, Pulls c.1.2 pulled d.1.2 ∧
    ∀ source' last : τ, Pulls source' pulled last →
      table.parseStep (c.withSource source') = .inl (d.withSource last) := by
  obtain ⟨⟨m, source⟩, b⟩ := c
  rw [parseStep_eq_outcome] at h
  have hform := stepForm_step table m source
  generalize Machine.step table (m, source) = s at h hform
  cases hform with
  | accepted _ => cases h
  | noState _ => cases h
  | noItem _ _ => cases h
  | noToken _ _ => cases h
  | @look q states token behind hm hs hp =>
    obtain ⟨pulled, hpulled, hpeeks⟩ := hp.exists_pulled (τ := τ)
    have hd : d.1.2 = behind := source_eq_of_withSource (outcome_look_withSource behind behind) h
    refine ⟨pulled, hd ▸ hpulled, fun source' last hl => ?_⟩
    rw [parseStep_eq_outcome, step_eq_look hm hs (hpeeks source' last hl), outcome_look_withSource behind, h]
    rfl
  | goto hm hs hi =>
    have hd : d.1.2 = source := source_eq_of_withSource (outcome_act_withSource source source) h
    refine ⟨[], hd ▸ .nil source, fun source' last hl => ?_⟩
    cases hl
    rw [parseStep_eq_outcome, step_eq_act_of_goto hm hs hi, outcome_act_withSource source, h]
    rfl

end ActionTable

/-- **A run depends on the tokens that it pulls**, step by step. -/
theorem Reaches.exists_pulled (h : Reaches table.parseStep c d) : ∃ pulled, Pulls c.1.2 pulled d.1.2 ∧
    ∀ source' last : τ, Pulls source' pulled last →
      Reaches table.parseStep (c.withSource source') (d.withSource last) := by
  induction h using Relation.ReflTransGen.head_induction_on with
  | refl =>
    refine ⟨[], .nil _, fun source' last hl => ?_⟩
    cases hl
    exact .refl
  | head hstep _ ih =>
    obtain ⟨first, hfirst, hover⟩ := ActionTable.parseStep_withSource (τ := τ) hstep
    obtain ⟨rest, hrest, hovers⟩ := ih
    refine ⟨first ++ rest, hfirst.trans hrest, fun source' last hl => ?_⟩
    obtain ⟨mid, hmid, hlast⟩ := hl.of_append
    exact .head (hover source' mid hmid) (hovers mid last hlast)

end OtherSources

end TableParser
