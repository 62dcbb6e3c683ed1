import TableParser.Proofs.Agreement

/-!
# Parses of finite inputs come to an end

The columns of a list of tokens may not suffice for the place behind one of them, and then the source fails there. Up to
that place it hands out what the tokens in front supply (`TokenList.Cut`), so a parse of the list follows a parse of
those tokens step by step until it fails as well (`Falters`). Hence what is known of supplied tokens holds of all lists.

* **LL(1) parsers without conflicts** end on every list of tokens (`LL.Parser.parse_ends`).
* **SLR(1) tables without conflicts** do so if the nonterminals on the ways down derive terminal strings
  (`LR.Table.parse_ends_of_productive`). They need not end otherwise (`LR.Table.not_exists_result_unproductive`).
-/

namespace TableParser

/-! ## Runs side by side -/

section Lockstep

variable {α β γ δ : Type} {step : α → α ⊕ β} {step' : γ → γ ⊕ δ} {R : α → γ → Prop}

/-- The first of two steps answers, or both go on and stay related. -/
inductive Lockstep (R : α → γ → Prop) : α ⊕ β → γ ⊕ δ → Prop
  | answer (b : β) (c : γ ⊕ δ) : Lockstep R (.inr b) c
  | goes {a : α} {c : γ} (h : R a c) : Lockstep R (.inl a) (.inl c)

/-- A run comes to an end if another one does so that it goes along with, step by step, until it answers. -/
theorem Ends.of_lockstep (hR : ∀ a c, R a c → Lockstep R (step a) (step' c)) {a : α} {c : γ} (h : R a c)
    (hc : Ends step' c) : Ends step a := by
  obtain ⟨d, fuel, hf⟩ := hc
  induction fuel generalizing a c with
  | zero => cases hf
  | succ fuel ih =>
    have hsteps := hR a c h
    rw [run] at hf
    cases ha : step a with
    | inr b => exact ends_of_step ha
    | inl a' =>
      rw [ha] at hsteps
      cases hc : step' c with
      | inr _ =>
        rw [hc] at hsteps
        cases hsteps
      | inl c' =>
        rw [hc] at hsteps hf
        cases hsteps with
        | goes h' => exact (reaches_of_step ha).ends (ih h' hf)

end Lockstep

/-! ## Sources that fail early -/

section Falters

variable {σ τ ε : Type} [TokenSource σ ε] [TokenSource τ ε]

/-- The first of two related sources hands out what the second one does, unless it fails. -/
def Falters (R : σ → τ → Prop) : Prop :=
  ∀ source full, R source full → (∃ failure behind, TokenSource.next source = (.error failure, behind)) ∨
    ∃ token behind behind', TokenSource.next source = (.ok token, behind) ∧
      TokenSource.next full = (.ok token, behind') ∧ R behind behind'

end Falters

namespace TokenList

/-- The first list goes on behind the second one with a token that no place comes after. -/
structure Cut (source full : TokenList) : Prop where
  last : source.last = full.last
  rest : ∃ bad more f, source.rest = full.rest ++ bad :: more ∧ after bad = .error f

theorem falters_cut : Falters Cut := by
  rintro ⟨rest, last⟩ ⟨good, last'⟩ ⟨hlast, bad, more, f, hrest, hbad⟩
  dsimp only at hlast hrest
  subst hlast
  subst hrest
  cases good with
  | nil => exact .inl ⟨.fault f, ⟨more, last⟩, by simp only [TokenSource.next, next, List.nil_append, hbad]⟩
  | cons t good =>
    cases ht : after t with
    | error f' =>
      exact .inl ⟨.fault f', ⟨good ++ bad :: more, last⟩, by simp only [TokenSource.next, next, List.cons_append, ht]⟩
    | ok place =>
      refine .inr ⟨t, ⟨good ++ bad :: more, place⟩, ⟨good, place⟩, ?_, ?_, rfl, bad, more, f, rfl, hbad⟩
      · simp only [TokenSource.next, next, List.cons_append, ht]
      · simp only [TokenSource.next, next, ht]

/-- Places come after all tokens of a list, or the list can be cut in front of the first one that has none. -/
theorem exists_cut (tokens : List Token) : (∀ t ∈ tokens, ∃ p, after t = .ok p) ∨
    ∃ good, (∀ t ∈ good, ∃ p, after t = .ok p) ∧ Cut (ofList tokens) (ofList good) := by
  induction tokens with
  | nil => exact .inl nofun
  | cons t tokens ih =>
    cases ht : after t with
    | error f => exact .inr ⟨[], nofun, rfl, t, tokens, f, rfl, ht⟩
    | ok place =>
      have hcons : ∀ {good : List Token}, (∀ u ∈ good, ∃ p, after u = .ok p) →
          ∀ u ∈ t :: good, ∃ p, after u = .ok p := by
        intro good hgood u hu
        rcases List.mem_cons.mp hu with rfl | hu
        · exact ⟨place, ht⟩
        · exact hgood u hu
      rcases ih with hall | ⟨good, hgood, _, bad, more, f, hrest, hbad⟩
      · exact .inl (hcons hall)
      · exact .inr ⟨t :: good, hcons hgood, rfl, bad, more, f, congrArg (t :: ·) hrest, hbad⟩

/-- What ends on the tokens that are supplied ends on all lists, if it ends wherever a longer list is cut. -/
theorem forall_of_cut {P : TokenList → Prop} (hcut : ∀ source full, Cut source full → P full → P source)
    (h : ∀ tokens, Supplies (ofList tokens) tokens → P (ofList tokens)) (tokens : List Token) : P (ofList tokens) := by
  rcases exists_cut tokens with hall | ⟨good, hgood, hc⟩
  · exact h tokens (supplies hall _)
  · exact hcut _ _ hc (h good (supplies hgood _))

end TokenList

/-! ## Predictive parses -/

namespace PredictiveTable

variable {S P σ τ ε : Type} [TokenSource σ ε] [TokenSource τ ε] {R : σ → τ → Prop} {table : PredictiveTable S P}

/-- The same configuration, but for the source. -/
inductive Beside (R : σ → τ → Prop) : PredictiveState S σ → PredictiveState S τ → Prop
  | intro (tree : Tree S) (stack : List (S × Nat)) (token : Token) {source : σ} {full : τ} (h : R source full) :
      Beside R ⟨tree, stack, token, source⟩ ⟨tree, stack, token, full⟩

theorem lockstep_advance (hR : Falters R) (tree : Tree S) (stack : List (S × Nat)) (token : Token) {source : σ}
    {full : τ} (h : R source full) :
    Lockstep (Beside R) (advance ⟨tree, stack, token, source⟩) (advance ⟨tree, stack, token, full⟩) := by
  unfold advance
  dsimp only
  rcases hR source full h with ⟨failure, behind, hn⟩ | ⟨next, behind, behind', hn, hn', h'⟩
  · rw [hn]
    exact .answer _ _
  · rw [hn, hn']
    exact .goes (.intro tree stack next h')

theorem lockstep_refuse (hR : Falters R) (tree : Tree S) (stack : List (S × Nat)) (token : Token) {source : σ}
    {full : τ} (h : R source full) :
    Lockstep (Beside R) (refuse ⟨tree, stack, token, source⟩) (refuse ⟨tree, stack, token, full⟩) := by
  unfold refuse
  dsimp only
  split
  · exact lockstep_advance hR tree stack token h
  · exact .answer _ _

theorem lockstep_step (hR : Falters R) {c : PredictiveState S σ} {d : PredictiveState S τ} (h : Beside R c d) :
    Lockstep (Beside R) (table.step c) (table.step d) := by
  obtain ⟨tree, stack, token, h⟩ := h
  unfold step
  dsimp only
  split
  · split <;> exact .answer _ _
  · rename_i top node rest
    split
    · split
      · exact .answer _ _
      · unfold consume
        split
        · exact .goes (.intro tree rest token h)
        · exact lockstep_advance hR (tree.setToken node token) rest token h
      · exact lockstep_refuse hR tree _ token h
    · split
      · exact .answer _ _
      · split
        · exact .answer _ _
        · exact .goes (.intro _ _ token h)
        · exact lockstep_refuse hR tree _ token h

/-- A parse comes to an end if it does where the source goes on. -/
theorem exists_parse_of_falters (hR : Falters R) {source : σ} {full : τ} (h : R source full)
    (hfull : ∃ fuel result, table.parse fuel full = some result) :
    ∃ fuel result, table.parse fuel source = some result := by
  obtain ⟨fuel, result, hparse⟩ := hfull
  cases hstart : table.start with
  | error f => exact ⟨0, .error (.fault f), by simp only [parse, hstart]⟩
  | ok start =>
    rcases hR source full h with ⟨failure, behind, hn⟩ | ⟨token, behind, behind', hn, hn', h'⟩
    · exact ⟨0, .error (failure.map .source), by simp only [parse, hstart, hn]⟩
    · simp only [parse, hstart, hn'] at hparse
      have hbeside : Beside R ⟨startTree start, [(start, 0)], token, behind⟩
          ⟨startTree start, [(start, 0)], token, behind'⟩ := .intro _ _ token h'
      obtain ⟨answer, fuel', hf⟩ := Ends.of_lockstep (fun _ _ => lockstep_step hR) hbeside ⟨result, fuel, hparse⟩
      exact ⟨fuel', answer, (parse_eq hstart hn fuel').trans hf⟩

end PredictiveTable

/-! ## Shift/reduce parses -/

namespace Machine

variable {St S P σ τ ε : Type} [TokenSource σ ε] [TokenSource τ ε] {R : σ → τ → Prop} {table : ActionTable St S P}
  {source : σ} {full : τ}

/-- The first of two steps fails, or both do the same but for the source. -/
inductive Along (R : σ → τ → Prop) : Step St S P σ ε → Step St S P τ ε → Prop
  | fails (failure : Failure (ParseError ε)) (m : Machine St S) (source : σ) (b : Step St S P τ ε) :
      Along R (.inr (.failed failure, m, source)) b
  | event (e : ParseEvent S P) (m : Machine St S) {source : σ} {full : τ} (h : R source full) :
      Along R (.inr (.event e, m, source)) (.inr (.event e, m, full))
  | goes (m : Machine St S) {source : σ} {full : τ} (h : R source full) : Along R (.inl (m, source)) (.inl (m, full))

omit [TokenSource σ ε] [TokenSource τ ε] in
theorem along_act (h : R source full) (m : Machine St S) (q : St) (lookahead : Option S) :
    Along (ε := ε) R (act table m source q lookahead) (act table m full q lookahead) := by
  unfold act
  split
  · exact .fails _ _ _ _
  · unfold shift
    split
    · exact .goes _ h
    · split
      · exact .goes _ h
      · exact .fails _ _ _ _
  · unfold reduce
    split
    · exact .fails _ _ _ _
    · exact .event _ _ h
  · unfold accept
    split
    · exact .fails _ _ _ _
    · exact .event _ _ h
  · unfold refuse
    split
    · exact .fails _ _ _ _
    · exact .fails _ _ _ _
    · split
      · exact .goes _ h
      · exact .fails _ _ _ _

omit [TokenSource σ ε] [TokenSource τ ε] in
theorem along_look (h : R source full) (m : Machine St S) (q : St) (token : Token) :
    Along (ε := ε) R (look table m source q token) (look table m full q token) := by
  unfold look
  split
  · exact along_act h m q none
  · split
    · exact along_act h m q _
    · split
      · exact .goes _ h
      · exact .fails _ _ _ _

theorem along_step (hR : Falters R) (h : R source full) (m : Machine St S) :
    Along R (step table (m, source)) (step table (m, full)) := by
  unfold step
  dsimp only
  split
  · exact .fails _ _ _ _
  · exact .fails _ _ _ _
  · split
    · exact .fails _ _ _ _
    · exact along_act h m _ _
  · split
    · exact along_look h m _ _
    · rcases hR source full h with ⟨failure, behind, hn⟩ | ⟨token, behind, behind', hn, hn', h'⟩
      · rw [hn]
        exact .fails _ _ _ _
      · rw [hn, hn']
        exact along_look h' _ _ token

end Machine

namespace ActionTable

variable {St S P σ τ ε : Type} [TokenSource σ ε] [TokenSource τ ε] {R : σ → τ → Prop} {table : ActionTable St S P}

/-- The same configuration, but for the source. -/
inductive Beside (R : σ → τ → Prop) : ParseConfig St S σ → ParseConfig St S τ → Prop
  | intro (m : Machine St S) (b : TreeBuild S) {source : σ} {full : τ} (h : R source full) :
      Beside R ((m, source), b) ((m, full), b)

theorem lockstep_parseStep (hR : Falters R) {c : ParseConfig St S σ} {d : ParseConfig St S τ} (h : Beside R c d) :
    Lockstep (Beside R) (table.parseStep c) (table.parseStep d) := by
  obtain ⟨m, b, h⟩ := h
  rename_i source full
  have hsteps : Machine.Along R (Machine.step table (m, source)) (Machine.step table (m, full)) :=
    Machine.along_step hR h m
  unfold parseStep
  dsimp only
  generalize Machine.step table (m, source) = next at hsteps ⊢
  generalize Machine.step table (m, full) = next' at hsteps ⊢
  cases hsteps with
  | fails failure m' source' _ => exact .answer _ _
  | goes m' h' => exact .goes (.intro m' b h')
  | event e m' h' =>
    cases e with
    | reduce id lhs =>
      dsimp only [build]
      split
      · exact .answer _ _
      · exact .goes (.intro m' _ h')
    | accept =>
      dsimp only [build]
      split <;> exact .answer _ _

/-- A parse comes to an end if it does where the source goes on. -/
theorem exists_parse_of_falters (hR : Falters R) {source : σ} {full : τ} (h : R source full)
    (hfull : ∃ fuel result, table.parse fuel full = some result) :
    ∃ fuel result, table.parse fuel source = some result := by
  obtain ⟨fuel, result, hparse⟩ := hfull
  have hbeside : Beside R ((Machine.start (S := S) table.initial, source), TreeBuild.empty)
      ((Machine.start table.initial, full), TreeBuild.empty) := .intro _ _ h
  obtain ⟨answer, fuel', hf⟩ := Ends.of_lockstep (fun _ _ => lockstep_parseStep hR) hbeside ⟨result, fuel, hparse⟩
  exact ⟨fuel', answer, hf⟩

end ActionTable

/-! ## Lists of tokens -/

section Lists

variable {steps : List DefinitionStep} {g : Grammar}

/-- **Every parse of an LL(1) parser without conflicts comes to an end**, whatever the list of tokens. -/
theorem LL.Parser.parse_ends {order : Registry} {p : LL.Parser} (hg : (Grammar.define steps).result = .ok g)
    (hp : (LL.Parser.build order g).result = .ok p) (hnil : p.conflicts = []) (tokens : List Token) :
    ∃ fuel result, p.parse fuel (TokenList.ofList tokens) = some result :=
  TokenList.forall_of_cut (P := fun source => ∃ fuel result, p.parse fuel source = some result)
    (fun _ _ hc hfull => PredictiveTable.exists_parse_of_falters TokenList.falters_cut hc hfull)
    (fun _ hsource => exists_result (wellFormed_of_define hg) hp hnil hsource) tokens

/-- **Every parse of an SLR(1) table without conflicts comes to an end**, whatever the list of tokens, if every
nonterminal on a way down from the start symbol derives a terminal string. It faults only for want of columns. -/
theorem LR.Table.parse_ends_of_productive {t : LR.Table} {start : Symbol} (hg : (Grammar.define steps).result = .ok g)
    (ht : (LR.Table.build g).result = .ok t) (hnil : t.conflicts = []) (hstart : g.start = .ok start)
    (hprod : Productive g.Produces start) (tokens : List Token) :
    ∃ fuel result, t.parse fuel (TokenList.ofList tokens) = some result ∧
      ((∀ u ∈ tokens, ∃ place, TokenList.after u = .ok place) → ∀ f, result ≠ .error (.fault f)) := by
  have hwell := wellFormed_of_define hg
  obtain ⟨fuel, result, hresult⟩ : ∃ fuel result, t.parse fuel (TokenList.ofList tokens) = some result :=
    TokenList.forall_of_cut (P := fun source => ∃ fuel result, t.parse fuel source = some result)
      (fun _ _ hc hfull => ActionTable.exists_parse_of_falters TokenList.falters_cut hc hfull)
      (fun _ hsource => exists_result hwell ht hnil hstart hprod hsource) tokens
  refine ⟨fuel, result, hresult, ?_⟩
  rintro hplaces f rfl
  exact not_fault_of_parse hwell ht (TokenList.supplies hplaces _) fuel f hresult

end Lists

section Sums

open LL.Parser (sumRules sumTokens)

set_option maxRecDepth 10000 in
/-- Sums are read to their end, and so is what is no sum, with or without a place behind each of its tokens. -/
theorem LL.Parser.parse_ends_sum : ∃ p, (Grammar.define Sample.sums.steps).result = .ok sumRules ∧
    (LL.Parser.build (Registry.fresh.internAll Sample.sums.declared) sumRules).result = .ok p ∧ p.conflicts = [] ∧
    ∀ tokens ∈ [sumTokens, sumTokens.reverse, [⟨.identifier, "n", ⟨1, 4294967295⟩⟩]],
      ∃ fuel result, p.parse fuel (TokenList.ofList tokens) = some result := by
  have hg : (Grammar.define Sample.sums.steps).result = .ok sumRules := by rfl
  have hll : ((LL.Parser.build (Registry.fresh.internAll Sample.sums.declared) sumRules).result.toOption.any fun p =>
      p.conflicts.isEmpty) = true := by rfl
  obtain ⟨p, hp, hpempty⟩ := exists_ok_of_any hll
  have hnil : p.conflicts = [] := List.isEmpty_iff.mp hpempty
  exact ⟨p, hg, hp, hnil, fun tokens _ => parse_ends hg hp hnil tokens⟩

set_option maxRecDepth 10000 in
/-- Sums are read to their end, and so is what is no sum, with or without a place behind each of its tokens. -/
theorem LR.Table.parse_ends_of_productive_sum : ∃ t, (Grammar.define Sample.sums.steps).result = .ok sumRules ∧
    (LR.Table.build sumRules).result = .ok t ∧ t.conflicts = [] ∧ sumRules.start = .ok (.nonterminal "E") ∧
    Productive sumRules.Produces (.nonterminal "E") ∧
    ∀ tokens ∈ [sumTokens, sumTokens.reverse, [⟨.identifier, "n", ⟨1, 4294967295⟩⟩]],
      ∃ fuel result, t.parse fuel (TokenList.ofList tokens) = some result ∧
        ((∀ u ∈ tokens, ∃ place, TokenList.after u = .ok place) → ∀ f, result ≠ .error (.fault f)) := by
  have hg : (Grammar.define Sample.sums.steps).result = .ok sumRules := by rfl
  have hlr : ((LR.Table.build sumRules).result.toOption.any fun t => t.conflicts.isEmpty) = true := by rfl
  obtain ⟨t, ht, htempty⟩ := exists_ok_of_any hlr
  have hnil : t.conflicts = [] := List.isEmpty_iff.mp htempty
  exact ⟨t, hg, ht, hnil, rfl, productive_sumRules, fun tokens _ =>
    parse_ends_of_productive hg ht hnil rfl productive_sumRules tokens⟩

end Sums

/-! ## Reductions without end -/

namespace ActionTable

variable {St S P σ ε : Type} [TokenSource σ ε] {table : ActionTable St S P} {lookahead : Option S} {Q : St → Prop}

/-- The driver reads a lookahead in one of some states. -/
structure Faces (table : ActionTable St S P) (Q : St → Prop) (lookahead : Option S) (c : ParseConfig St S σ) :
    Prop where
  mode : c.1.1.mode = .reading
  token : ∃ token behind, c.1.1.Peeks c.1.2 token behind ∧ table.Looks token lookahead
  state : ∃ q states, c.1.1.states = q :: states ∧ Q q

/-- **A driver that reduces the empty string on a lookahead, and gets to where it does so again, has no answer.** -/
theorem not_answers_of_reductions (hQ : ∀ q, Q q → ∃ id lhs r, table.action q lookahead = .ok (.reduce id lhs 0) ∧
      table.action q (some lhs) = .ok (.shift r) ∧ Q r) {c : ParseConfig St S σ} (hc : Faces table Q lookahead c)
    (result : Except (Failure (ParseError ε)) (Tree S)) : ¬Answers table.parseStep c result := by
  refine not_answers_of_returns (I := Faces table Q lookahead) ?_ hc result
  rintro ⟨⟨m, source⟩, b⟩ ⟨hm, ⟨token, behind, hp, hl⟩, q, states, hs, hq⟩
  obtain ⟨id, lhs, r, hreduce, hgoto, hr⟩ := hQ q hq
  have hb : ∃ b', b.reduce? lhs (m.items.take 0).reverse = some b' := ⟨_, rfl⟩
  obtain ⟨b', hb⟩ := hb
  have hreduced := parseStep_reduce hm hs hp hl hreduce (Nat.zero_le _) (Nat.zero_le _) hb
  refine ⟨_, (reaches_of_step hreduced).trans (reaches_of_step (parseStep_goto rfl hs rfl hgoto)), fun heq => ?_, rfl,
    ⟨token, behind, .inl ⟨rfl, rfl⟩, hl⟩, r, _, rfl, hr⟩
  -- one more state is on the stack
  have hstates := congrArg (fun c : ParseConfig St S σ => c.1.1.states.length) heq
  exact absurd hstates (Nat.ne_of_lt (Nat.lt_succ_self _))

end ActionTable

section Unproductive

open TableParser.Symbol

/-- A nonterminal that vanishes stands in front of one that derives no terminal string. -/
def unproductiveSteps : List DefinitionStep := [
  .rule (nonterminal "S") [nonterminal "A", nonterminal "B"] none,
  .rule (nonterminal "S") [terminal "f", nonterminal "A", terminal "c"] none,
  .rule (nonterminal "A") [epsilon] none,
  .rule (nonterminal "B") [nonterminal "A", nonterminal "B"] none]

/-- The one token that the nonterminal that vanishes can have behind it. -/
def unproductiveTokens : List Token := [⟨.identifier, "c", ⟨1, 1⟩⟩]

/-- The states that the driver passes, each with the next one. -/
def unproductiveWay : List (LR.StateId × LR.StateId) := [(⟨0⟩, ⟨3⟩), (⟨3⟩, ⟨5⟩), (⟨5⟩, ⟨5⟩)]

set_option maxRecDepth 10000 in
/-- Where a nonterminal derives no terminal string, a table without conflicts may reduce for ever. -/
theorem LR.Table.not_exists_result_unproductive : ∃ g t, (Grammar.define unproductiveSteps).result = .ok g ∧
    (LR.Table.build g).result = .ok t ∧ t.conflicts = [] ∧
    ¬∃ fuel result, t.parse fuel (TokenList.ofList unproductiveTokens) = some result := by
  have heval : ((Grammar.define unproductiveSteps).result.toOption.any fun g =>
      (LR.Table.build g).result.toOption.any fun t => t.conflicts.isEmpty &&
        t.terminals.find? ⟨.identifier, "c", ⟨1, 1⟩⟩ == some (terminal "c") &&
        unproductiveWay.all fun (q, r) =>
          t.action q (some (terminal "c")) == .ok (.reduce ⟨2, 0⟩ (nonterminal "A") 0) &&
          t.action q (some (nonterminal "A")) == .ok (.shift r)) = true := by rfl
  obtain ⟨g, hg, heval⟩ := exists_ok_of_any heval
  obtain ⟨t, ht, heval⟩ := exists_ok_of_any heval
  simp only [Bool.and_eq_true, List.isEmpty_iff, beq_iff_eq, List.all_eq_true, Prod.forall] at heval
  obtain ⟨⟨hnil, hfind⟩, hactions⟩ := heval
  have hway : ∀ x ∈ unproductiveWay, ∃ y ∈ unproductiveWay, y.1 = x.2 := by decide
  refine ⟨g, t, hg, ht, hnil, ?_⟩
  rintro ⟨fuel, result, hresult⟩
  have hlooks : t.table.Looks ⟨.identifier, "c", ⟨1, 1⟩⟩ (some (terminal "c")) := .inr ⟨rfl, _, hfind, rfl⟩
  have hfaces : ActionTable.Faces t.table (fun q => ∃ r, (q, r) ∈ unproductiveWay) (some (terminal "c"))
      ((Machine.start t.table.initial, TokenList.ofList unproductiveTokens), TreeBuild.empty) :=
    ⟨rfl, ⟨_, _, .inr ⟨rfl, rfl⟩, hlooks⟩, _, [], rfl, _, List.mem_cons_self⟩
  refine ActionTable.not_answers_of_reductions ?_ hfaces result ⟨fuel, hresult⟩
  rintro q ⟨r, hq⟩
  obtain ⟨hreduce, hgoto⟩ := hactions q r hq
  obtain ⟨⟨_, next⟩, hnext, rfl⟩ := hway _ hq
  exact ⟨_, _, _, hreduce, hgoto, next, hnext⟩

end Unproductive
end TableParser
