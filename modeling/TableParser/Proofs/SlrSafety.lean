import TableParser.Proofs.SlrConflicts
import TableParser.Proofs.SlrTermination

/-!
# Drivers of built tables never lose their way

Some errors of the shift/reduce driver concern the table or the use of the parser and not the input
(`ParseError.isInternal`). With a built table they do not come up, conflicts or not, as everything is there that the
table asks for (`LR.Table.Steady`):

* **Gotos** (`LR.Path.exists_goto`): below the symbols of a complete item stands an item before its left-hand side, since
  that is the only way down to it (`LR.exists_edge_of_leads`).
* **Reductions and acceptance** (`LR.Sound.steady`), by what the last state has recognized.
* **Runs** (`LR.Table.steady_of_build`), move by move.
-/

namespace TableParser

/-- Whether the error concerns the table or the use of the parser, and not the input. -/
def ParseError.isInternal {ε : Type} : ParseError ε → Bool
  | .table _ | .alreadyAccepted | .emptyNodeStack | .emptyItemStack => true
  | _ => false

namespace LR

open Automaton (Has Exact)

/-! ## Gotos -/

section Gotos

variable {g g' : Grammar} {start accept : Symbol} {follow : FollowSets} {sets : List ItemSet} {a : Automaton} {t : Table}
  {q : StateId} {states : List StateId} {γ symbols : List Symbol} {lhs : Symbol} {i : Item} {rule : Rule}
  {b : Alternative}

/-- Behind a way down there is an edge for the nonterminal at the end of it, unless it has not left the start symbol. -/
theorem exists_edge_of_leads (hx : Exact ⟨g', none⟩ sets a) (hstart : g'.start = .ok accept)
    (halone : EpsilonAlone g'.Produces) (h : Leads g'.Produces accept γ lhs) (hne : lhs ≠ accept) :
    ∃ q r, walk a.edges γ = some q ∧ a.edges.get? q lhs = some r := by
  cases h with
  | start => exact absurd rfl hne
  | down hlead hp hb hs =>
    obtain ⟨q, items, hq, hitems, hall⟩ := Automaton.exists_state_of_leads hx hstart halone hlead
    have he := halone.isEpsilon_eq_false hp (hb ▸ List.mem_append_right _ List.mem_cons_self) hs
    obtain ⟨r, j, rule, hr, hj, ht, hnext⟩ := Automaton.exists_has_before hx hq hitems hall hp he hb
    obtain ⟨target, _, hedge, _⟩ := hj.advance hx ht he hnext
    exact ⟨r, target, hr, hedge⟩

/-- **Below the symbols of a complete item there is an edge for its left-hand side.** -/
theorem Path.exists_goto (h : Path a.edges (q :: states) symbols) (ht : Table.Exact g start accept follow sets a t)
    (hi : Has sets q i) (htarget : t.grammar.target? i.alternative = some (rule, b)) (hc : i.isCompleteIn b = true)
    (hr : rule.lhs ≠ accept) :
    ∃ p r rest, (q :: states).drop b.arity = p :: rest ∧ a.edges.get? p rule.lhs = some r := by
  have hstart := ht.augmented.start_eq_accept
  obtain ⟨δ, rule', b', hlead, htarget', hle, hempty, heq⟩ :=
    Automaton.validFor_of_has ht.automaton hstart h.walk_eq hi
  have hsame : (rule', b') = (rule, b) := Option.some.inj (htarget'.symm.trans htarget)
  cases hsame
  have hdot : i.dot.toNat = b.arity := Item.dot_eq_arity hc hle hempty
  have hlen : (b.symbols.take i.dot.toNat).length = b.arity := by
    rw [List.length_take]
    omega
  -- what is left on the stack is the way down to the left-hand side
  have hsymbols : symbols = (b.symbols.take i.dot.toNat).reverse ++ δ.reverse := by
    rw [← List.reverse_append, ← heq, List.reverse_reverse]
  have hdrop : symbols.drop b.arity = δ.reverse := by
    rw [hsymbols, List.drop_left' (by rw [List.length_reverse, hlen])]
  have hpath := h.drop (n := b.arity) (by
    rw [hsymbols, List.length_append, List.length_reverse, hlen]
    exact Nat.le_add_right _ _)
  rw [hdrop] at hpath
  obtain ⟨p, rest, hp⟩ := List.exists_cons_of_length_eq_add_one hpath.length_eq
  rw [hp] at hpath
  have hw := hpath.walk_eq
  rw [List.reverse_reverse] at hw
  obtain ⟨p', r, hw', hedge⟩ := exists_edge_of_leads ht.automaton hstart ht.augmented.epsilonAlone hlead hr
  rw [hw] at hw'
  cases hw'
  exact ⟨p, r, rest, hp, hedge⟩

end Gotos

/-! ## What a table asks for -/

/-- **Everything is there that the table asks for.** -/
structure Table.Steady (t : Table) (g : Grammar) (m : Machine StateId Symbol) : Prop where
  /-- The input was not accepted before, and some state is left. -/
  mode_ne : m.mode ≠ .accepted
  states_ne : m.states ≠ []
  /-- A reduction finds as many items and states as its alternative has symbols, and behind them a state that has a goto
  on the left-hand side. -/
  reduce : m.mode = .reading → ∀ q states lookahead id lhs arity, m.states = q :: states →
    t.action q lookahead = .ok (.reduce id lhs arity) →
    ∃ rule al, t.grammar.target? id = some (rule, al) ∧ lhs = rule.lhs ∧ arity = al.arity ∧
      arity ≤ m.items.length ∧ arity ≤ m.states.length ∧
      ∃ p r rest, m.states.drop arity = p :: rest ∧ t.action p (some lhs) = .ok (.shift r)
  /-- After a reduction, the state on top has a goto on the nonterminal on top. -/
  goto : m.mode = .pendingGoto → ∃ q r states lhs items, m.states = q :: states ∧ m.items = .nonterminal lhs :: items ∧
    t.action q (some lhs) = .ok (.shift r)
  /-- What is accepted is the start symbol and nothing else. -/
  accept : m.mode = .reading → ∀ q states lookahead, m.states = q :: states → t.action q lookahead = .ok .accept →
    ∃ start, g.start = .ok start ∧ m.items = [.nonterminal start]

section Moves

variable {σ ε : Type} [TokenSource σ ε] {g : Grammar} {start accept : Symbol} {follow : FollowSets}
  {sets : List ItemSet} {a : Automaton} {t : Table} {source source₀ : σ} {m : Machine StateId Symbol}
  {b : TreeBuild Symbol} {c c' : ParseConfig StateId Symbol σ} {q r : StateId} {lookahead : Option Symbol}

/-- A sound parse that reads tokens is steady. -/
theorem Sound.steady (ht : Table.Exact g start accept follow sets a t) (h : Sound g a t source₀ c)
    (hm : c.1.1.mode = .reading) : t.Steady g c.1.1 := by
  obtain ⟨⟨m, source⟩, b⟩ := c
  obtain ⟨honPath, done, _, _, hgrows⟩ := h
  have hpath := honPath.path hm
  dsimp only at hm hpath hgrows ⊢
  have hlen := hpath.length_eq
  rw [List.length_map] at hlen
  constructor
  · rw [hm]
    exact Mode.noConfusion
  · intro hnil
    rw [hnil] at hlen
    cases hlen
  · intro _ q states lookahead id lhs arity hs ha
    obtain ⟨rule, al, htarget, rfl, rfl, hget⟩ := Table.get?_of_reduce ha
    rw [hs] at hpath
    obtain ⟨hnt, _, hle, _⟩ := exists_reduce ht hpath hget htarget
    cases ht.action q _ _ hget with
    | reduce hi htarget' hc hr _ _ =>
      cases Option.some.inj (htarget'.symm.trans htarget)
      obtain ⟨p, r, rest, hdrop, hedge⟩ := hpath.exists_goto ht hi htarget hc hr
      rw [← hs] at hdrop
      exact ⟨rule, al, htarget, rfl, rfl, hle, by omega, p, r, rest, hdrop, ht.action_of_edge hnt hedge⟩
  · intro hm'
    rw [hm] at hm'
    cases hm'
  · intro _ q states lookahead hs ha
    rw [hs] at hpath
    cases ht.action q _ _ (Table.get?_of_accept ha) with
    | accept hi htarget hc hr _ =>
      have hsymbols := hpath.eq_start ht hi htarget hc hr
      exact ⟨start, ht.augmented.start_eq, (hgrows.finish ht.augmented.start_nonterminal hsymbols).1⟩

/-- After a reduction a steady table goes on. -/
theorem Table.Steady.exists_shift (h : t.Steady g m) (hm : m.mode = .pendingGoto) {states : List StateId}
    {item : StackItem Symbol} {items : List (StackItem Symbol)} (hs : m.states = q :: states)
    (hi : m.items = item :: items) : ∃ r, t.action q (some item.symbol) = .ok (.shift r) := by
  obtain ⟨q', r, states', lhs, items', hs', hi', hgoto⟩ := h.goto hm
  rw [hs] at hs'
  rw [hi] at hi'
  cases hs'
  cases hi'
  exact ⟨r, hgoto⟩

/-- **Every move of a sound parse leads to a steady one.** -/
theorem Table.Steady.move (ht : Table.Exact g start accept follow sets a t) (hsound : Sound g a t source₀ c)
    (h : t.Steady g c.1.1) (hmove : ActionTable.Moves t.table c c') : t.Steady g c'.1.1 := by
  have hsound' := hsound.move ht hmove
  cases hmove with
  | skip hm _ _ => exact hsound'.steady ht hm
  | shift hm _ _ _ _ => exact hsound'.steady ht hm
  | goto _ _ _ _ => exact hsound'.steady ht rfl
  | @reduce m source behind b b' token q states lookahead id lhs arity hm hs hp hl ha hstates hitems hb =>
    obtain ⟨_, _, _, _, _, _, _, p, r, rest, hdrop, hgoto⟩ := h.reduce hm q states lookahead id lhs arity hs ha
    constructor
    · exact Mode.noConfusion
    · dsimp only
      rw [hdrop]
      exact List.cons_ne_nil p rest
    · exact nofun
    · intro _
      exact ⟨p, r, rest, lhs, _, hdrop, rfl, hgoto⟩
    · exact nofun
  | regoto hm hs hi ha _ _ _ =>
    obtain ⟨r, hgoto⟩ := h.exists_shift hm hs hi
    cases hgoto.symm.trans ha

/-- What a steady table asks for after a reduction is where to go. -/
theorem Table.Steady.reading_of_asks (h : t.Steady g m) (hq : t.table.Asks m source q lookahead) :
    (m.mode = .reading ∧ ∃ states, m.states = q :: states) ∨ ∃ r, t.action q lookahead = .ok (.shift r) := by
  cases hq with
  | token hm hs _ _ => exact .inl ⟨hm, _, hs⟩
  | goto hm hs hi hl =>
    obtain ⟨r, hgoto⟩ := h.exists_shift hm hs hi
    exact .inr ⟨r, hl ▸ hgoto⟩

/-- **A steady parse fails on its input only.** -/
theorem Table.Steady.not_internal {e : ParseError ε} (ht : Table.Exact g start accept follow sets a t)
    (hsound : Sound g a t source₀ c) (h : t.Steady g c.1.1) (hfails : ActionTable.Fails t.table c e) :
    e.isInternal = false := by
  cases hfails with
  | source => rfl
  | invalidToken => rfl
  | unexpectedToken => rfl
  | unexpectedEnd => rfl
  | table hm hs hi ha =>
    obtain ⟨r, hgoto⟩ := h.exists_shift hm hs hi
    cases hgoto.symm.trans ha
  | alreadyAccepted hm => exact absurd hm h.mode_ne
  | emptyNodeStack hs => exact absurd hs h.states_ne
  | noItem hm hi =>
    obtain ⟨_, _, _, _, _, _, hi', _⟩ := h.goto hm
    rw [hi] at hi'
    cases hi'
  | @reduce m source b q lookahead id lhs arity hq ha hshort =>
    rcases h.reading_of_asks hq with ⟨hm, states, hs⟩ | ⟨r, hgoto⟩
    · obtain ⟨_, _, _, _, _, hitems, hstates, _⟩ := h.reduce hm q states lookahead id lhs arity hs ha
      obtain ⟨_, _, _, ds, tokens, _, hreal, _⟩ := hsound.grows
      obtain ⟨ds₁, ds₂, _, hlen, hreal⟩ := hreal.split arity
      obtain ⟨b', hb, _⟩ := hreal.reduce hlen lhs
      rcases hshort with hshort | hshort | hshort
      · exact absurd hstates (Nat.not_le_of_lt hshort)
      · exact absurd hitems (Nat.not_le_of_lt hshort)
      · rw [hb] at hshort
        cases hshort
    · cases hgoto.symm.trans ha
  | @accept m source b q lookahead hq ha hempty =>
    rcases h.reading_of_asks hq with ⟨hm, states, hs⟩ | ⟨r, hgoto⟩
    · obtain ⟨start', hstart', hitems⟩ := h.accept hm q states lookahead hs ha
      obtain ⟨done, _, _, hgrows⟩ := hsound.grows
      have hnt := ht.augmented.start_nonterminal
      obtain rfl := ht.augmented.eq_start hstart'
      have hsymbols : m.items.map StackItem.symbol = [start'] := by
        rw [hitems]
        rfl
      obtain ⟨_, _, _, tree, hfinish, _⟩ := hgrows.finish hnt hsymbols
      rcases hempty with hempty | hempty
      · rw [hitems] at hempty
        cases hempty
      · rw [hfinish] at hempty
        cases hempty
    · cases hgoto.symm.trans ha

end Moves

/-! ## Runs -/

namespace Table

/-- **The driver of a built table never loses its way**, conflicts or not: whatever the tokens, everything is there that
the table asks for, so that parses fail on their input only. -/
theorem steady_of_build {σ ε : Type} [TokenSource σ ε] {steps : List DefinitionStep} {g : Grammar} {t : Table}
    (hg : (Grammar.define steps).result = .ok g) (ht : (Table.build g).result = .ok t) (source : σ) :
    (∀ fuel (e : ParseError ε), t.parse fuel source = some (.error (.error e)) → e.isInternal = false) ∧
    ∀ c, Reaches t.table.parseStep ((.start t.table.initial, source), .empty) c → t.Steady g c.1.1 := by
  obtain ⟨start, accept, follow, sets, a, hexact⟩ := exact_of_build (wellFormed_of_define hg) ht
  have hrun : ∀ c, Reaches t.table.parseStep ((.start t.table.initial, source), .empty) c →
      Sound g a t source c ∧ t.Steady g c.1.1 := by
    intro c hreach
    refine hreach.invariant (P := fun c => Sound g a t source c ∧ t.Steady g c.1.1) ?_ ?_
    · exact ⟨sound_start source, (sound_start source).steady hexact rfl⟩
    · intro c c' ⟨hsound, hsteady⟩ hstep
      have hmove := ActionTable.moves_of_parseStep hstep
      exact ⟨hsound.move hexact hmove, hsteady.move hexact hsound hmove⟩
  constructor
  · intro fuel e hparse
    obtain ⟨c, hreach, hstep⟩ := answers_iff.mp ⟨fuel, hparse⟩
    obtain ⟨hsound, hsteady⟩ := hrun c hreach
    exact hsteady.not_internal hexact hsound (ActionTable.fails_of_parseStep hstep)
  · intro c hreach
    exact (hrun c hreach).2

/-- A sum that breaks off behind the sign. -/
def brokenSum : List Token := [⟨.identifier, "a", ⟨1, 1⟩⟩, ⟨.positive, "+", ⟨1, 3⟩⟩]

set_option maxRecDepth 10000 in
/-- The table of ambiguous sums has conflicts, but what it finds wrong with a broken sum is where the sum ends. -/
theorem steady_of_build_brokenSum : ∃ g t, (Grammar.define ambiguousSteps).result = .ok g ∧
    (Table.build g).result = .ok t ∧ t.conflicts.length = 3 ∧
    t.parse 20 (TokenList.ofList brokenSum) = some (.error (.error (.unexpectedToken "<eof>" ⟨1, 4⟩))) ∧
    (∀ fuel (e : ParseError Empty), t.parse fuel (TokenList.ofList brokenSum) = some (.error (.error e)) →
      e.isInternal = false) ∧
    ∀ c, Reaches t.table.parseStep ((.start t.table.initial, TokenList.ofList brokenSum), .empty) c →
      t.Steady g c.1.1 := by
  have heval : ((Grammar.define ambiguousSteps).result.toOption.any fun g =>
      (Table.build g).result.toOption.any fun t => t.conflicts.length == 3 &&
        t.parse 20 (TokenList.ofList brokenSum) == some (.error (.error (.unexpectedToken "<eof>" ⟨1, 4⟩)))) =
      true := by rfl
  obtain ⟨g, hg, heval⟩ := exists_ok_of_any heval
  obtain ⟨t, ht, heval⟩ := exists_ok_of_any heval
  simp only [Bool.and_eq_true, beq_iff_eq] at heval
  obtain ⟨hconflicts, hparse⟩ := heval
  exact ⟨g, t, hg, ht, hconflicts, hparse, steady_of_build hg ht (TokenList.ofList brokenSum)⟩

end Table
end LR
end TableParser
