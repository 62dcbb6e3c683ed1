import TableParser.Proofs.Calls
import TableParser.Proofs.Resaving
import TableParser.Proofs.SlrSoundness

/-!
# The shape of the stacks

The two stacks of the shift/reduce driver fit together (`Machine.Shaped`): each item has the state entered on it, below all
of them lies the initial state, and behind a reduction the state for the new nonterminal is still to come.

* **Any table will do that reduces to nonterminals and only goes on from there** (`ActionTable.Directs`), as then no
  reduction is asked for in the middle of another one (`Machine.Shaped.step`).
* **Events** (`Machine.Shaped.reduce`): a reduction takes as many items as it has to and hands them over from left to
  right. The list of the caller is a row of slots that are written one by one (`StackItem.fill`), and none is left
  empty (`StackItem.fill_resize`).
* **Built and loaded tables** (`LR.Table.Obtained`) direct the driver so, whatever their entries are
  (`LR.Table.shaped_of_obtained`).
-/

namespace TableParser

/-! ## Slots -/

namespace StackItem

variable {S : Type}

/-- A row of so many slots: further ones are dropped, missing ones are empty. -/
def resize (n : Nat) (slots : List (Option (StackItem S))) : List (Option (StackItem S)) :=
  slots.take n ++ List.replicate (n - slots.length) none

/-- Take so many items from the stack and put them into the first slots, starting with the last one of these. The second
result is what is left of the stack. -/
def fill : Nat → List (StackItem S) → List (Option (StackItem S)) → List (Option (StackItem S)) × List (StackItem S)
  | 0, items, slots => (slots, items)
  | _ + 1, [], slots => (slots, [])
  | n + 1, item :: items, slots => fill n items (slots.set n (some item))

theorem length_resize (n : Nat) (slots : List (Option (StackItem S))) : (resize n slots).length = n := by
  unfold resize
  simp only [List.length_append, List.length_take, List.length_replicate]
  omega

theorem fill_eq {n : Nat} {items : List (StackItem S)} {slots : List (Option (StackItem S))} (h : n ≤ items.length)
    (hslots : n ≤ slots.length) :
    fill n items slots = ((items.take n).reverse.map some ++ slots.drop n, items.drop n) := by
  induction n generalizing items slots with
  | zero => rfl
  | succ n ih =>
    cases items with
    | nil => cases h
    | cons item items =>
      have hset : (slots.set n (some item)).drop n = some item :: slots.drop (n + 1) := by
        rw [List.drop_eq_getElem_cons (by rw [List.length_set]; omega), List.getElem_set_self, List.drop_set,
          if_pos (Nat.lt_succ_self n)]
      rw [fill, ih (Nat.le_of_succ_le_succ h) (by rw [List.length_set]; omega), hset]
      simp

/-- **Every slot is filled**, whatever it held before. -/
theorem fill_resize {n : Nat} {items : List (StackItem S)} (h : n ≤ items.length)
    (slots : List (Option (StackItem S))) :
    fill n items (resize n slots) = ((items.take n).reverse.map some, items.drop n) := by
  have hlen := length_resize n slots
  rw [fill_eq h hlen.ge, List.drop_of_length_le hlen.le, List.append_nil]

end StackItem

/-! ## Stacks that fit together -/

namespace Machine

variable {St S R σ ε : Type}

/-- The stacks fit together, `N` being the symbols that reductions lead to. -/
structure Shaped (N : S → Prop) (m : Machine St S) : Prop where
  /-- Below the states entered on the items lies the initial state. -/
  reading : m.mode = .reading → m.states.length = m.items.length + 1
  /-- The state behind the new nonterminal is still to come. -/
  pending : m.mode = .pendingGoto → m.states.length = m.items.length ∧ ∃ s items, m.items = .nonterminal s :: items ∧ N s

variable {N : S → Prop} {table : ActionTable St S R} {m m' : Machine St S} {source source' : σ}

/-- As long as the input is not accepted, some state is left. -/
theorem Shaped.states_ne (h : m.Shaped N) (hm : m.mode ≠ .accepted) : m.states ≠ [] := by
  intro hnil
  cases hmode : m.mode with
  | accepted => exact hm hmode
  | reading =>
    have hlen := h.reading hmode
    rw [hnil] at hlen
    cases hlen
  | pendingGoto =>
    obtain ⟨hlen, s, items, hitems, _⟩ := h.pending hmode
    rw [hnil, hitems] at hlen
    cases hlen

/-- The shape is one of the stacks and the mode. -/
theorem Shaped.congr (h : m.Shaped N) (hstates : m'.states = m.states) (hitems : m'.items = m.items)
    (hmode : m'.mode = m.mode) : m'.Shaped N := by
  obtain ⟨hreading, hpending⟩ := h
  constructor
  · rw [hmode, hstates, hitems]
    exact hreading
  · rw [hmode, hstates, hitems]
    exact hpending

theorem shaped_start (initial : St) : (start initial : Machine St S).Shaped N := ⟨fun _ => rfl, nofun⟩

end Machine

/-- The table reduces to certain symbols, on which it only goes on or refuses. -/
structure ActionTable.Directs {St S R : Type} (table : ActionTable St S R) (N : S → Prop) : Prop where
  reduce : ∀ q lookahead id lhs arity, table.action q lookahead = .ok (.reduce id lhs arity) → N lhs
  goto : ∀ q s action, N s → table.action q (some s) = .ok action →
    (∃ r, action = .shift r) ∨ ∃ cause, action = .error cause

namespace Machine

section Steps

variable {St S R σ ε : Type} {N : S → Prop} {table : ActionTable St S R} {m m' : Machine St S} {source source' : σ}
  {q : St} {lookahead : Option S} {id : R} {lhs : S}

/-- The machine asks the table as it should: about a token, or about the nonterminal of a reduction. -/
def Asking (N : S → Prop) (m : Machine St S) (lookahead : Option S) : Prop :=
  m.mode = .reading ∨ m.mode = .pendingGoto ∧ ∃ s, lookahead = some s ∧ N s

/-- A reduction is asked for while tokens are read. -/
theorem Asking.reading (hdirects : table.Directs N) (h : m.Asking N lookahead) {action : Action St S R}
    (ha : table.action q lookahead = .ok action) (hshift : ∀ r, action ≠ .shift r) (herror : ∀ cause, action ≠ .error cause) :
    m.mode = .reading := by
  rcases h with hm | ⟨_, s, rfl, hs⟩
  · exact hm
  · rcases hdirects.goto q s action hs ha with ⟨r, hr⟩ | ⟨cause, hcause⟩
    · exact absurd hr (hshift r)
    · exact absurd hcause (herror cause)

/-- **To do what the table wants keeps the stacks in shape.** -/
theorem Shaped.act (hdirects : table.Directs N) (h : m.Shaped N) (hask : m.Asking N lookahead) :
    (Machine.act table m source q lookahead : Step St S R σ ε).after.1.Shaped N := by
  have hacts := ActionTable.acts_act (ε := ε) table m source q lookahead
  generalize Machine.act table m source q lookahead = s at hacts ⊢
  cases hacts with
  | fault | stop => exact h
  | runOut | skip => exact h.congr rfl rfl rfl
  | goto hm _ =>
    obtain ⟨hlen, _⟩ := h.pending hm
    exact ⟨fun _ => congrArg Nat.succ hlen, nofun⟩
  | shift hm _ _ _ =>
    have hreading : m.mode = .reading := by
      rcases hask with hreading | ⟨hpending, _⟩
      · exact hreading
      · exact absurd hpending hm
    exact ⟨fun _ => congrArg Nat.succ (h.reading hreading), nofun⟩
  | @reduce id lhs arity ha hstates hitems =>
    have hlen := h.reading (hask.reading hdirects ha nofun nofun)
    refine ⟨nofun, fun _ => ⟨?_, lhs, _, rfl, hdirects.reduce _ _ _ _ _ ha⟩⟩
    simp only [Step.after, Sum.elim_inr, List.length_drop, List.length_cons]
    omega
  | accept _ _ => exact ⟨nofun, nofun⟩

/-- **Every step keeps the stacks in shape**, whether it goes on, ends or fails. -/
theorem Shaped.step [TokenSource σ ε] (hdirects : table.Directs N) {c : Machine St S × σ} (h : c.1.Shaped N) :
    (Machine.step table c).after.1.Shaped N := by
  obtain ⟨m, source⟩ := c
  have hform := ActionTable.stepForm_step table m source
  generalize Machine.step table (m, source) = s at hform ⊢
  cases hform with
  | accepted | noState | noItem | noToken => exact h
  | @look q states token behind hm _ _ =>
    have hheld : (ActionTable.holding m token).Shaped N := h.congr rfl rfl rfl
    rcases ActionTable.look_cases (ε := ε) (σ := σ) table q token with ⟨lookahead, _, hlook⟩ | ⟨_, hskip⟩ | ⟨_, _, _, hfail⟩
    · rw [hlook]
      exact hheld.act hdirects (.inl hm)
    · rw [hskip]
      exact h.congr rfl rfl rfl
    · rw [hfail]
      exact hheld
  | @goto q states item items hm _ hi =>
    obtain ⟨_, s, rest, hitems, hs⟩ := h.pending hm
    obtain ⟨rfl, _⟩ := List.cons.inj (hi.symm.trans hitems)
    exact h.act hdirects (.inr ⟨hm, s, rfl, hs⟩)

/-- What the table wants never fails for want of a state. -/
theorem act_ne_emptyNodeStack :
    (Machine.act table m source q lookahead : Step St S R σ ε) ≠ .inr (.failed (.error .emptyNodeStack), m', source') := by
  intro h
  unfold act shift reduce accept refuse fail at h
  repeat' split at h
  all_goals cases h

/-- **A state is always there.** -/
theorem Shaped.ne_emptyNodeStack [TokenSource σ ε] (h : m.Shaped N) :
    Machine.step table (m, source) ≠ .inr (.failed (.error .emptyNodeStack), m', source') := by
  intro hstep
  have hform := ActionTable.stepForm_step table m source
  rw [hstep] at hform
  generalize hs : (.inr (.failed (.error .emptyNodeStack), m', source') : Step St S R σ ε) = s at hform
  cases hform with
  | accepted | noItem => cases hs
  | noState hst =>
    refine h.states_ne (fun hm => ?_) hst
    simp only [Machine.step, hm, fail] at hstep
    cases hstep
  | @noToken failure _ _ _ => cases failure <;> cases hs
  | @look q states token behind _ _ _ =>
    rcases ActionTable.look_cases (ε := ε) (σ := σ) table q token with ⟨lookahead, _, hlook⟩ | ⟨_, hskip⟩ | ⟨_, _, _, hfail⟩
    · rw [hlook] at hs
      exact act_ne_emptyNodeStack hs.symm
    · rw [hskip] at hs
      cases hs
    · rw [hfail] at hs
      cases hs
  | goto _ _ _ => exact act_ne_emptyNodeStack hs.symm

/-- A reduction, the stacks before it and the stacks behind it: the items that it takes are handed over from left to
right, in as many slots, and all slots are filled. -/
structure Reduction (lhs : S) (arity : Nat) (before behind : Machine St S) : Prop where
  length_args : behind.args.length = arity
  items_before : before.items = behind.args.reverse ++ before.items.drop arity
  items_behind : behind.items = .nonterminal lhs :: before.items.drop arity
  states_behind : behind.states = before.states.drop arity
  fill : ∀ slots, StackItem.fill arity before.items (StackItem.resize arity slots) =
    (behind.args.map some, before.items.drop arity)

/-- **A reduction is what the table wants**, and takes what it has to. -/
theorem reduction_of_step [TokenSource σ ε]
    (h : Machine.step table (m, source) = .inr (.event (.reduce id lhs), m', source')) :
    ∃ q lookahead arity, table.action q lookahead = .ok (.reduce id lhs arity) ∧ Reduction lhs arity m m' := by
  have hact : ∀ (m₁ : Machine St S) {source₁ : σ} {q lookahead}, m₁.states = m.states → m₁.items = m.items →
      (Machine.act table m₁ source₁ q lookahead : Step St S R σ ε) = .inr (.event (.reduce id lhs), m', source') →
      ∃ q lookahead arity, table.action q lookahead = .ok (.reduce id lhs arity) ∧ Reduction lhs arity m m' := by
    intro m₁ source₁ q lookahead hst hi h
    have hacts := ActionTable.acts_act (ε := ε) table m₁ source₁ q lookahead
    rw [h] at hacts
    cases hacts with
    | @reduce _ _ arity ha hstates hitems =>
      rw [hi] at hitems
      refine ⟨q, lookahead, arity, ha, ?_⟩
      rw [hst, hi]
      constructor
      · simp only [List.length_reverse, List.length_take, Nat.min_eq_left hitems]
      · simp only [List.reverse_reverse, List.take_append_drop]
      · rfl
      · rfl
      · exact StackItem.fill_resize hitems
  have hform := ActionTable.stepForm_step table m source
  rw [h] at hform
  generalize hs : (.inr (.event (.reduce id lhs), m', source') : Step St S R σ ε) = s at hform
  cases hform with
  | accepted | noState | noItem | noToken => cases hs
  | @look q states token behind _ _ _ =>
    rcases ActionTable.look_cases (ε := ε) (σ := σ) table q token with ⟨lookahead, _, hlook⟩ | ⟨_, hskip⟩ | ⟨_, _, _, hfail⟩
    · rw [hlook] at hs
      exact hact (ActionTable.holding m token) rfl rfl hs.symm
    · rw [hskip] at hs
      cases hs
    · rw [hfail] at hs
      cases hs
  | goto _ _ _ => exact hact m rfl rfl hs.symm

end Steps
end Machine

/-! ## Built and loaded tables -/

namespace LR

/-- A table that was built for rules with nonterminals on their left-hand sides, or loaded from some bytes. -/
def Table.Obtained (t : Table) : Prop :=
  (∃ g, (∀ r ∈ g.rules, r.lhs.isNonterminal = true) ∧ (Table.build g).result = .ok t) ∨
    ∃ bytes, (CompiledParser.load bytes).result = .ok (.lr t)

namespace Table

variable {t : Table} {σ ε : Type} [TokenSource σ ε] {m : Machine StateId Symbol} {source source₀ : σ}

theorem Obtained.lhs_nonterminal (h : t.Obtained) : ∀ r ∈ t.grammar.rules, r.lhs.isNonterminal = true := by
  rcases h with ⟨g, hg, hbuild⟩ | ⟨bytes, hload⟩
  · obtain ⟨accept, follow, a, edges, items, hbuilt⟩ := exists_built hbuild
    have haugment := hbuilt.augment_eq
    unfold Grammar.augment at haugment
    obtain ⟨start, _, haugment⟩ := Trail.result_bind_eq_ok_iff.mp haugment
    have hrules := Except.ok.inj haugment
    intro r hr
    rw [← hrules] at hr
    rcases List.mem_cons.mp hr with rfl | hr
    · rfl
    · exact hg r hr
  · obtain ⟨lists, hread⟩ := CompiledParser.exists_readFrom hload
    exact fun r hr => (hread.resolved.grammar r hr).lhs_nonterminal

/-- **Such a table directs the driver**: it reduces to nonterminals, and has gotos for these and nothing else. -/
theorem Obtained.directs (h : t.Obtained) : t.table.Directs fun s => s.isNonterminal = true where
  reduce q lookahead id lhs arity ha := by
    obtain ⟨rule, al, htarget, rfl, _⟩ := get?_of_reduce ha
    exact h.lhs_nonterminal rule (Grammar.produces_of_target? htarget).1
  goto q s action hs ha := (get?_of_goto hs ha).imp_left fun ⟨r, hr, _⟩ => ⟨r, hr⟩

/-- **The stacks of a driver are in shape** at every call and within it, whatever was called before and however it ended:
as long as the input is not accepted, some state is left, there is one state more than items while tokens are read, and
as many while the state behind a new nonterminal is still to come. So no call fails for want of a state, and a
reduction is by an alternative of the grammar, for as many items as this has symbols. -/
theorem shaped_of_obtained (ht : t.Obtained)
    (hcalls : Machine.Calls t.table (.start t.table.initial, source₀) (m, source)) (args : List (StackItem Symbol)) :
    (∀ c, Reaches (Machine.step t.table) ({ m with args := args }, source) c →
      c.1.Shaped (fun s => s.isNonterminal = true) ∧ (c.1.mode ≠ .accepted → c.1.states ≠ [])) ∧
    ∀ fuel pulled m' source', Machine.nextEvent t.table fuel { m with args := args } source = some (pulled, m', source') →
      pulled ≠ .failed (.error .emptyNodeStack) ∧
      ∀ id lhs, pulled = .event (.reduce id lhs) → ∃ before rule al,
        Reaches (Machine.step t.table) ({ m with args := args }, source) before ∧
        t.grammar.target? id = some (rule, al) ∧ rule.lhs = lhs ∧ Machine.Reduction lhs al.arity before.1 m' := by
  have hdirects := ht.directs
  have hstep : ∀ c : Machine StateId Symbol × σ, c.1.Shaped (fun s => s.isNonterminal = true) →
      (Machine.step t.table c).after.1.Shaped fun s => s.isNonterminal = true := fun _ h => h.step hdirects
  have hargs : ∀ (m : Machine StateId Symbol) (source : σ) (args : List (StackItem Symbol)),
      m.Shaped (fun s => s.isNonterminal = true) →
      ({ m with args := args } : Machine StateId Symbol).Shaped fun s => s.isNonterminal = true :=
    fun _ _ _ h => h.congr rfl rfl rfl
  have hcalled := hcalls.invariant (P := fun c => c.1.Shaped fun s => s.isNonterminal = true) hargs hstep
    (Machine.shaped_start _)
  have hwithin : ∀ c, Reaches (Machine.step t.table) ({ m with args := args }, source) c →
      c.1.Shaped fun s => s.isNonterminal = true := fun c hreach =>
    Machine.reaches_invariant (P := fun c => c.1.Shaped fun s => s.isNonterminal = true) hstep hreach
      (hargs m source args hcalled)
  refine ⟨fun c hreach => ⟨hwithin c hreach, (hwithin c hreach).states_ne⟩, ?_⟩
  intro fuel pulled m' source' hnext
  obtain ⟨last, hreach, hlast⟩ := Machine.exists_reaches hnext
  constructor
  · rintro rfl
    exact (hwithin last hreach).ne_emptyNodeStack hlast
  · rintro id lhs rfl
    obtain ⟨q, lookahead, arity, ha, hreduction⟩ := Machine.reduction_of_step hlast
    obtain ⟨rule, al, htarget, rfl, rfl, _⟩ := get?_of_reduce ha
    exact ⟨last, rule, al, hreach, htarget, rfl, hreduction⟩

/-- A cross, possibly in parentheses. -/
def crossRules : Grammar :=
  ⟨[⟨.nonterminal "S", [⟨[.terminal "(", .nonterminal "S", .terminal ")"], none⟩, ⟨[.terminal "x"], none⟩]⟩]⟩

/-- A cross in parentheses. -/
def enclosed : List Token := Machine.unclosed ++ [⟨.sign, ")", ⟨1, 3⟩⟩]

set_option maxRecDepth 10000 in
/-- The second call on a cross in parentheses takes three items from the stack. -/
theorem shaped_of_obtained_enclosed : ∃ t m m' source source', (Table.build crossRules).result = .ok t ∧
    Machine.nextEvent t.table 9 (.start t.table.initial) (TokenList.ofList enclosed) =
      some (.event (.reduce ⟨1, 1⟩ (.nonterminal "S")), m, source) ∧
    Machine.nextEvent t.table 9 { m with args := [] } source =
      some (.event (.reduce ⟨1, 0⟩ (.nonterminal "S")), m', source') ∧ m'.args.length = 3 ∧
    (∀ c, Reaches (Machine.step t.table) ({ m with args := [] }, source) c →
      c.1.Shaped (fun s => s.isNonterminal = true) ∧ (c.1.mode ≠ .accepted → c.1.states ≠ [])) ∧
    ∃ before rule al, Reaches (Machine.step t.table) ({ m with args := [] }, source) before ∧
      t.grammar.target? ⟨1, 0⟩ = some (rule, al) ∧ rule.lhs = .nonterminal "S" ∧
      Machine.Reduction (.nonterminal "S") al.arity before.1 m' := by
  have heval : ((Table.build crossRules).result.toOption.any fun t =>
      (Machine.nextEvent t.table 9 (.start t.table.initial) (TokenList.ofList enclosed)).any fun (pulled, m, source) =>
        pulled == .event (.reduce ⟨1, 1⟩ (.nonterminal "S")) &&
        (Machine.nextEvent t.table 9 { m with args := [] } source).any fun (pulled, m', _) =>
          pulled == .event (.reduce ⟨1, 0⟩ (.nonterminal "S")) && m'.args.length == 3) = true := by rfl
  obtain ⟨t, ht, heval⟩ := exists_ok_of_any heval
  obtain ⟨⟨first, m, source⟩, hfirst, heval⟩ := (Option.any_eq_true _ _).mp heval
  simp only [Bool.and_eq_true, beq_iff_eq] at heval
  obtain ⟨rfl, heval⟩ := heval
  obtain ⟨⟨second, m', source'⟩, hsecond, heval⟩ := (Option.any_eq_true _ _).mp heval
  simp only [Bool.and_eq_true, beq_iff_eq] at heval
  obtain ⟨rfl, hlen⟩ := heval
  have hobtained : t.Obtained := .inl ⟨crossRules, by decide, ht⟩
  obtain ⟨hwithin, hevents⟩ := shaped_of_obtained hobtained (.single (.intro [] 9 hfirst)) []
  exact ⟨t, m, m', source, source', ht, hfirst, hsecond, hlen, hwithin,
    (hevents 9 _ m' source' hsecond).2 _ _ rfl⟩

end Table
end LR
end TableParser
