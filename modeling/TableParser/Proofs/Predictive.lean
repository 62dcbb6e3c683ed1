import TableParser.Parse.Predictive
import TableParser.Proofs.Arena
import TableParser.Proofs.Run

/-!
# Runs of predictive parsers

What one step of a predictive driver comes to, whatever the table (`PredictiveTable.stepForm_step`), and its moves, with
the tokens that it passes and those of them that it keeps (`Drives`). Read from its end, a run completes the nodes on
the stack one after the other, so that the tree of an accepted input is a derivation by the productions that the table
predicts, with the tokens kept on its leaves (`shows_of_parse`), whatever the table.
-/

namespace TableParser
namespace PredictiveTable

variable {S P σ ε : Type} [TokenSource σ ε] {table : PredictiveTable S P} {c c' c'' : PredictiveState S σ}
  {done : List Token} {kept : List (S × Token)}

/-! ## One step -/

/-- The token is of no use for the symbol on top of the stack: the terminal does not accept it, or the table has no entry
for it. -/
def Rejects (table : PredictiveTable S P) (top : S) (token : Token) : Prop :=
  table.isTerminal top = true ∧ table.accepts top token = .ok false ∨
    table.isTerminal top = false ∧
      ∃ lookahead, table.terminal token = some lookahead ∧ table.predict top lookahead = .ok none

section Steps

variable {tree : Tree S} {stack rest : List (S × Nat)} {top lookahead : S} {node : Nat} {token : Token} {source : σ}
  {f : Fault} {id : P} {rhs : List S}

theorem step_nil : table.step ⟨tree, [], token, source⟩ =
    .inr (if token.isEndOfFile then .ok tree else .error (.error (.invalidSyntax token.position))) := by
  unfold step
  dsimp only
  split <;> rfl

theorem step_fault (ht : table.isTerminal top = true) (ha : table.accepts top token = .error f) :
    table.step ⟨tree, (top, node) :: rest, token, source⟩ = .inr (.error (.fault f)) := by
  simp only [step, ht, ha, if_true]

theorem step_epsilon (ht : table.isTerminal top = true) (ha : table.accepts top token = .ok true)
    (he : table.isEpsilon top = true) :
    table.step ⟨tree, (top, node) :: rest, token, source⟩ = .inl ⟨tree, rest, token, source⟩ := by
  simp only [step, ht, ha, consume, he, if_true]

theorem step_consume (ht : table.isTerminal top = true) (ha : table.accepts top token = .ok true)
    (he : table.isEpsilon top = false) : table.step ⟨tree, (top, node) :: rest, token, source⟩ =
      advance ⟨tree.setToken node token, rest, token, source⟩ := by
  simp only [step, ht, ha, consume, he, if_true, if_false, Bool.false_eq_true]

theorem step_invalidToken (ht : table.isTerminal top = false) (hl : table.terminal token = none) :
    table.step ⟨tree, (top, node) :: rest, token, source⟩ = fail (.invalidToken token.text token.position) := by
  simp only [step, ht, hl, if_false, Bool.false_eq_true]

theorem step_predict_fault (ht : table.isTerminal top = false) (hl : table.terminal token = some lookahead)
    (hp : table.predict top lookahead = .error f) :
    table.step ⟨tree, (top, node) :: rest, token, source⟩ = .inr (.error (.fault f)) := by
  simp only [step, ht, hl, hp, if_false, Bool.false_eq_true]

theorem step_expand (ht : table.isTerminal top = false) (hl : table.terminal token = some lookahead)
    (hp : table.predict top lookahead = .ok (some (id, rhs))) :
    table.step ⟨tree, (top, node) :: rest, token, source⟩ =
      .inl (expand ⟨tree, (top, node) :: rest, token, source⟩ node rest rhs) := by
  simp only [step, ht, hl, hp, if_false, Bool.false_eq_true]

theorem step_of_rejects (h : table.Rejects top token) :
    table.step ⟨tree, (top, node) :: rest, token, source⟩ = refuse ⟨tree, (top, node) :: rest, token, source⟩ := by
  rcases h with ⟨ht, ha⟩ | ⟨ht, lookahead, hl, hp⟩
  · simp only [step, ht, ha, if_true]
  · simp only [step, ht, hl, hp, if_false, Bool.false_eq_true]

theorem refuse_of_newline (h : c.token.kind = .newline) : refuse c = advance c := if_pos h

theorem refuse_of_not_newline (h : c.token.kind ≠ .newline) :
    refuse c = fail (.unexpectedToken c.token.render c.token.position) := if_neg h

theorem of_advance (h : advance c = .inl c') : ∃ next behind, TokenSource.next c.source = (.ok next, behind) ∧
    c' = { c with token := next, source := behind } := by
  unfold advance at h
  split at h
  · cases h
  · rename_i next behind hn
    cases h
    exact ⟨next, behind, hn, rfl⟩

/-- The next token is not had only if the source fails. -/
theorem error_of_advance {result : Except (Failure (ParseError ε)) (Tree S)} (h : advance c = .inr result) :
    ∃ failure behind, TokenSource.next c.source = (.error failure, behind) ∧ result = .error (failure.map .source) := by
  unfold advance at h
  split at h
  · rename_i failure behind hn
    cases h
    exact ⟨failure, behind, hn, rfl⟩
  · cases h

end Steps

/-- What a step comes to, by what is on top of the stack and what the table says about it. -/
inductive StepForm (table : PredictiveTable S P) : PredictiveState S σ → Step S σ ε → Prop
  | nil {tree : Tree S} {token : Token} {source : σ} : StepForm table ⟨tree, [], token, source⟩
      (.inr (if token.isEndOfFile then .ok tree else .error (.error (.invalidSyntax token.position))))
  | fault {tree : Tree S} {top : S} {node : Nat} {rest : List (S × Nat)} {token : Token} {source : σ} {f : Fault}
      (ht : table.isTerminal top = true) (ha : table.accepts top token = .error f) :
      StepForm table ⟨tree, (top, node) :: rest, token, source⟩ (.inr (.error (.fault f)))
  | epsilon {tree : Tree S} {top : S} {node : Nat} {rest : List (S × Nat)} {token : Token} {source : σ}
      (ht : table.isTerminal top = true) (ha : table.accepts top token = .ok true)
      (he : table.isEpsilon top = true) :
      StepForm table ⟨tree, (top, node) :: rest, token, source⟩ (.inl ⟨tree, rest, token, source⟩)
  | consume {tree : Tree S} {top : S} {node : Nat} {rest : List (S × Nat)} {token : Token} {source : σ}
      (ht : table.isTerminal top = true) (ha : table.accepts top token = .ok true)
      (he : table.isEpsilon top = false) : StepForm table ⟨tree, (top, node) :: rest, token, source⟩
        (advance ⟨tree.setToken node token, rest, token, source⟩)
  | invalidToken {tree : Tree S} {top : S} {node : Nat} {rest : List (S × Nat)} {token : Token} {source : σ}
      (ht : table.isTerminal top = false) (hl : table.terminal token = none) :
      StepForm table ⟨tree, (top, node) :: rest, token, source⟩ (fail (.invalidToken token.text token.position))
  | predictFault {tree : Tree S} {top lookahead : S} {node : Nat} {rest : List (S × Nat)} {token : Token} {source : σ}
      {f : Fault} (ht : table.isTerminal top = false) (hl : table.terminal token = some lookahead)
      (hp : table.predict top lookahead = .error f) :
      StepForm table ⟨tree, (top, node) :: rest, token, source⟩ (.inr (.error (.fault f)))
  | expand {tree : Tree S} {top lookahead : S} {node : Nat} {rest : List (S × Nat)} {token : Token} {source : σ}
      {id : P} {rhs : List S} (ht : table.isTerminal top = false) (hl : table.terminal token = some lookahead)
      (hp : table.predict top lookahead = .ok (some (id, rhs))) :
      StepForm table ⟨tree, (top, node) :: rest, token, source⟩
        (.inl (expand ⟨tree, (top, node) :: rest, token, source⟩ node rest rhs))
  | skip {tree : Tree S} {top : S} {node : Nat} {rest : List (S × Nat)} {token : Token} {source : σ}
      (hr : table.Rejects top token) (hk : token.kind = .newline) :
      StepForm table ⟨tree, (top, node) :: rest, token, source⟩ (advance ⟨tree, (top, node) :: rest, token, source⟩)
  | refuse {tree : Tree S} {top : S} {node : Nat} {rest : List (S × Nat)} {token : Token} {source : σ}
      (hr : table.Rejects top token) (hk : token.kind ≠ .newline) :
      StepForm table ⟨tree, (top, node) :: rest, token, source⟩ (fail (.unexpectedToken token.render token.position))

theorem StepForm.of_eq {result : Step S σ ε} (hs : table.step c = result) (h : StepForm table c result) :
    StepForm table c (table.step (ε := ε) c) := hs ▸ h

theorem stepForm_step (table : PredictiveTable S P) (c : PredictiveState S σ) :
    StepForm table c (table.step (ε := ε) c) := by
  obtain ⟨tree, stack, token, source⟩ := c
  cases stack with
  | nil => exact .of_eq step_nil .nil
  | cons entry rest =>
    obtain ⟨top, node⟩ := entry
    have hrejects : table.Rejects top token → StepForm table ⟨tree, (top, node) :: rest, token, source⟩
        (table.step (ε := ε) ⟨tree, (top, node) :: rest, token, source⟩) := by
      intro hr
      by_cases hk : token.kind = .newline
      · exact .of_eq ((step_of_rejects hr).trans (refuse_of_newline hk)) (.skip hr hk)
      · exact .of_eq ((step_of_rejects hr).trans (refuse_of_not_newline hk)) (.refuse hr hk)
    cases ht : table.isTerminal top with
    | true =>
      cases ha : table.accepts top token with
      | error f => exact .of_eq (step_fault ht ha) (.fault ht ha)
      | ok accepted =>
        cases accepted with
        | false => exact hrejects (.inl ⟨ht, ha⟩)
        | true =>
          cases he : table.isEpsilon top with
          | true => exact .of_eq (step_epsilon ht ha he) (.epsilon ht ha he)
          | false => exact .of_eq (step_consume ht ha he) (.consume ht ha he)
    | false =>
      cases hl : table.terminal token with
      | none => exact .of_eq (step_invalidToken ht hl) (.invalidToken ht hl)
      | some lookahead =>
        cases hp : table.predict top lookahead with
        | error f => exact .of_eq (step_predict_fault ht hl hp) (.predictFault ht hl hp)
        | ok predicted =>
          cases predicted with
          | none => exact hrejects (.inr ⟨ht, lookahead, hl, hp⟩)
          | some production => exact .of_eq (step_expand ht hl hp) (.expand ht hl hp)

/-! ## Moves -/

/-- **Moves of the driver**, with the tokens that it passes and those that it keeps for terminals. -/
inductive Drives (table : PredictiveTable S P) :
    PredictiveState S σ → List Token → List (S × Token) → PredictiveState S σ → Prop
  | refl (c : PredictiveState S σ) : Drives table c [] [] c
  | epsilon {tree : Tree S} {top : S} {node : Nat} {rest : List (S × Nat)} {token : Token} {source : σ}
      {done : List Token} {kept : List (S × Token)} {c' : PredictiveState S σ} (ht : table.isTerminal top = true)
      (ha : table.accepts top token = .ok true) (he : table.isEpsilon top = true)
      (h : Drives table ⟨tree, rest, token, source⟩ done kept c') :
      Drives table ⟨tree, (top, node) :: rest, token, source⟩ done kept c'
  | consume {tree : Tree S} {top : S} {node : Nat} {rest : List (S × Nat)} {token next : Token} {source behind : σ}
      {done : List Token} {kept : List (S × Token)} {c' : PredictiveState S σ} (ht : table.isTerminal top = true)
      (ha : table.accepts top token = .ok true) (he : table.isEpsilon top = false)
      (hn : TokenSource.next source = (.ok next, behind))
      (h : Drives table ⟨tree.setToken node token, rest, next, behind⟩ done kept c') :
      Drives table ⟨tree, (top, node) :: rest, token, source⟩ (token :: done) ((top, token) :: kept) c'
  | expand {tree : Tree S} {top lookahead : S} {node : Nat} {rest : List (S × Nat)} {token : Token} {source : σ}
      {id : P} {rhs : List S} {done : List Token} {kept : List (S × Token)} {c' : PredictiveState S σ}
      (ht : table.isTerminal top = false)
      (hl : table.terminal token = some lookahead) (hp : table.predict top lookahead = .ok (some (id, rhs)))
      (h : Drives table (expand ⟨tree, (top, node) :: rest, token, source⟩ node rest rhs) done kept c') :
      Drives table ⟨tree, (top, node) :: rest, token, source⟩ done kept c'
  | skip {tree : Tree S} {stack : List (S × Nat)} {token next : Token} {source behind : σ} {done : List Token}
      {kept : List (S × Token)} {c' : PredictiveState S σ} (hk : token.kind = .newline)
      (hs : table.step ⟨tree, stack, token, source⟩ = .inl ⟨tree, stack, next, behind⟩)
      (hn : TokenSource.next source = (.ok next, behind))
      (h : Drives table ⟨tree, stack, next, behind⟩ done kept c') :
      Drives table ⟨tree, stack, token, source⟩ (token :: done) kept c'

namespace Drives

theorem trans {done' : List Token} {kept' : List (S × Token)} (h : Drives table c done kept c') (h' : Drives table c' done' kept' c'') :
    Drives table c (done ++ done') (kept ++ kept') c'' := by
  induction h with
  | refl _ => exact h'
  | epsilon ht ha he _ ih => exact .epsilon ht ha he (ih h')
  | consume ht ha he hn _ ih => exact .consume ht ha he hn (ih h')
  | expand ht hl hp _ ih => exact .expand ht hl hp (ih h')
  | skip hk hs hn _ ih => exact .skip hk hs hn (ih h')

/-- Moves are steps. -/
theorem reaches (h : Drives table c done kept c') : Reaches table.step c c' := by
  induction h with
  | refl _ => exact .refl
  | epsilon ht ha he _ ih => exact (reaches_of_step (step_epsilon ht ha he)).trans ih
  | consume ht ha he hn _ ih =>
    refine (reaches_of_step ((step_consume ht ha he).trans ?_)).trans ih
    simp only [advance, hn]
  | expand ht hl hp _ ih => exact (reaches_of_step (step_expand ht hl hp)).trans ih
  | skip _ hs _ _ ih => exact (reaches_of_step hs).trans ih

/-- What is passed was pulled, up to the token at hand. -/
theorem pulls (h : Drives table c done kept c') :
    ∃ pulled, c.token :: pulled = done ++ [c'.token] ∧ Pulls c.source pulled c'.source := by
  induction h with
  | refl c => exact ⟨[], rfl, .nil c.source⟩
  | epsilon _ _ _ _ ih => exact ih
  | expand _ _ _ _ ih => exact ih
  | consume _ _ _ hn _ ih =>
    obtain ⟨pulled, heq, hpulls⟩ := ih
    exact ⟨_, congrArg (_ :: ·) heq, .cons hn hpulls⟩
  | skip _ _ hn _ ih =>
    obtain ⟨pulled, heq, hpulls⟩ := ih
    exact ⟨_, congrArg (_ :: ·) heq, .cons hn hpulls⟩

/-- Only line breaks are not kept. -/
theorem skimmed (h : Drives table c done kept c') : Skimmed done (kept.map Prod.snd) := by
  induction h with
  | refl _ => exact .nil
  | epsilon _ _ _ _ ih => exact ih
  | consume _ _ _ _ _ ih => exact .keep _ ih
  | expand _ _ _ _ ih => exact ih
  | skip hk _ _ _ ih => exact .skip hk ih

end Drives

/-! ## Steps are moves -/

theorem exists_drives_of_step (h : table.step c = .inl c') : ∃ done kept, Drives table c done kept c' := by
  have hform := stepForm_step (ε := ε) table c
  generalize hstep : table.step c = result at h hform
  cases hform with
  | nil => cases h
  | fault _ _ => cases h
  | epsilon ht ha he =>
    cases h
    exact ⟨[], [], .epsilon ht ha he (.refl _)⟩
  | consume ht ha he =>
    obtain ⟨next, behind, hn, rfl⟩ := of_advance h
    exact ⟨[_], [(_, _)], .consume ht ha he hn (.refl _)⟩
  | invalidToken _ _ => cases h
  | predictFault _ _ _ => cases h
  | expand ht hl hp =>
    cases h
    exact ⟨[], [], .expand ht hl hp (.refl _)⟩
  | skip _ hk =>
    obtain ⟨next, behind, hn, rfl⟩ := of_advance h
    exact ⟨[_], [], .skip hk (hstep.trans h) hn (.refl _)⟩
  | refuse _ _ => cases h

/-- **Runs are moves.** -/
theorem exists_drives (h : Reaches table.step c c') : ∃ done kept, Drives table c done kept c' := by
  induction h with
  | refl => exact ⟨[], [], .refl c⟩
  | tail _ hs ih =>
    obtain ⟨done, kept, hd⟩ := ih
    obtain ⟨done', kept', hd'⟩ := exists_drives_of_step hs
    exact ⟨_, _, hd.trans hd'⟩

/-! ## Accepting -/

/-- A parse succeeds with nothing left on the stack and nothing left to read. -/
theorem step_eq_ok_iff {tree : Tree S} :
    table.step c = .inr (.ok tree) ↔ c.stack = [] ∧ c.token.isEndOfFile = true ∧ c.tree = tree := by
  constructor
  · intro h
    have hform := stepForm_step (ε := ε) table c
    generalize table.step c = result at h hform
    have hadvance : ∀ {c' : PredictiveState S σ}, advance c' ≠ .inr (.ok tree) := by
      intro c' h
      obtain ⟨_, _, _, hresult⟩ := error_of_advance h
      cases hresult
    cases hform with
    | nil =>
      have hresult := Sum.inr.inj h
      split at hresult
      · rename_i he
        cases hresult
        exact ⟨rfl, he, rfl⟩
      · cases hresult
    | consume _ _ _ => exact absurd h hadvance
    | skip _ _ => exact absurd h hadvance
    | fault _ _ | epsilon _ _ _ | invalidToken _ _ | predictFault _ _ _ | expand _ _ _ | refuse _ _ => cases h
  · obtain ⟨tree', stack, token, source⟩ := c
    rintro ⟨rfl, he, rfl⟩
    rw [step_nil, if_pos he]

/-- A parse faults when a terminal, the table or the source does. -/
theorem fault_cases {f : Fault} (h : table.step c = .inr (.error (.fault f))) :
    (∃ top node rest, c.stack = (top, node) :: rest ∧ table.isTerminal top = true ∧
      table.accepts top c.token = .error f) ∨
    (∃ top lookahead, table.predict top lookahead = .error f) ∨
    ∃ behind, TokenSource.next c.source = (.error (.fault f), behind) := by
  have hform := stepForm_step (ε := ε) table c
  generalize table.step c = result at h hform
  have hadvance : ∀ {c' : PredictiveState S σ}, advance c' = .inr (.error (.fault f)) →
      ∃ behind, TokenSource.next c'.source = (.error (.fault f), behind) := by
    intro c' h
    obtain ⟨failure, behind, hn, hresult⟩ := error_of_advance h
    obtain rfl := Failure.eq_fault_of_map (Except.error.inj hresult).symm
    exact ⟨behind, hn⟩
  cases hform with
  | nil =>
    have hresult := Sum.inr.inj h
    split at hresult <;> cases hresult
  | fault ht ha =>
    cases h
    exact .inl ⟨_, _, _, rfl, ht, ha⟩
  | predictFault _ _ hp =>
    cases h
    exact .inr (.inl ⟨_, _, hp⟩)
  | consume _ _ _ =>
    obtain ⟨behind, hn⟩ := hadvance h
    exact .inr (.inr ⟨behind, hn⟩)
  | skip _ _ => exact .inr (.inr (hadvance h))
  | epsilon _ _ _ | invalidToken _ _ | expand _ _ _ | refuse _ _ => cases h

/-! ## Trees -/

/-- The nodes on the stack are all different, and carry their symbols and nothing else yet. -/
structure Open (tree : Tree S) (stack : List (S × Nat)) : Prop where
  node? : ∀ s n, (s, n) ∈ stack → tree.node? n = some ⟨s, none, []⟩
  nodup : (stack.map Prod.snd).Nodup

/-- The derivations by the productions that a table predicts; the empty derivation is a node without children. -/
inductive Predicted (table : PredictiveTable S P) : Derivation S → Prop
  | terminal {s : S} (ht : table.isTerminal s = true) (he : table.isEpsilon s = false) : Predicted table (.leaf s)
  | epsilon {s : S} (ht : table.isTerminal s = true) (he : table.isEpsilon s = true) : Predicted table (.node s [])
  | node {s lookahead : S} {id : P} {children : List (Derivation S)} (ht : table.isTerminal s = false)
      (hp : table.predict s lookahead = .ok (some (id, children.map Derivation.symbol)))
      (hc : ∀ d ∈ children, Predicted table d) : Predicted table (.node s children)

/-- What a run makes of the nodes on its stack: derivations with the tokens kept on their leaves, each new node under
one of them, and no other old node touched. -/
structure Completes (table : PredictiveTable S P) (tree : Tree S) (stack : List (S × Nat)) (kept : List (S × Token))
    (tree' : Tree S) (ds : List (Derivation S)) (visited : List Nat) : Prop where
  reads : tree'.ReadsAll (stack.map Prod.snd) ds (kept.map Prod.snd) visited
  symbols : ds.map Derivation.symbol = stack.map Prod.fst
  predicted : ∀ d ∈ ds, Predicted table d
  yield_eq : Derivation.yieldAll ds = kept.map Prod.fst
  accepts : ∀ x ∈ kept, table.accepts x.1 x.2 = .ok true
  size_le : tree.size ≤ tree'.size
  perm : visited.Perm (stack.map Prod.snd ++ List.range' tree.size (tree'.size - tree.size))
  frame : ∀ i < tree.size, i ∉ stack.map Prod.snd → tree'.node? i = tree.node? i
  root_eq : tree'.root = tree.root

namespace Open

variable {tree : Tree S} {top : S} {node : Nat} {rest : List (S × Nat)}

theorem tail (h : Open tree ((top, node) :: rest)) : Open tree rest where
  node? s n hn := h.node? s n (List.mem_cons_of_mem _ hn)
  nodup := (List.nodup_cons.mp h.nodup).2

theorem not_mem (h : Open tree ((top, node) :: rest)) : node ∉ rest.map Prod.snd := (List.nodup_cons.mp h.nodup).1

theorem lt_size (h : Open tree rest) : ∀ n ∈ rest.map Prod.snd, n < tree.size := by
  intro n hn
  obtain ⟨⟨s, _⟩, hmem, rfl⟩ := List.mem_map.mp hn
  exact Tree.lt_size_of_node? (h.node? s _ hmem)

end Open

section Completion

variable {tree tree' : Tree S} {top : S} {node : Nat} {rest : List (S × Nat)} {token : Token}
  {kept : List (S × Token)} {ds : List (Derivation S)} {visited : List Nat}

/-- The empty derivation on top of the stack is complete as it is. -/
theorem Completes.epsilon (hopen : Open tree ((top, node) :: rest)) (ht : table.isTerminal top = true)
    (he : table.isEpsilon top = true) (h : Completes table tree rest kept tree' ds visited) :
    Completes table tree ((top, node) :: rest) kept tree' (.node top [] :: ds) (node :: visited) := by
  have hnode := hopen.node? top node List.mem_cons_self
  have hframe := h.frame node (Tree.lt_size_of_node? hnode) hopen.not_mem
  refine ⟨?_, ?_, ?_, h.yield_eq, h.accepts, h.size_le, h.perm.cons node, ?_, h.root_eq⟩
  · exact .cons (.node (hframe.trans hnode) .nil) h.reads
  · rw [List.map_cons, h.symbols]
    rfl
  · intro d hd
    rcases List.mem_cons.mp hd with rfl | hd
    · exact .epsilon ht he
    · exact h.predicted d hd
  · intro i hi hn
    exact h.frame i hi fun hmem => hn (List.mem_cons_of_mem _ hmem)

theorem Open.setToken (hopen : Open tree ((top, node) :: rest)) (token : Token) : Open (tree.setToken node token) rest := by
  refine ⟨fun s n hn => ?_, hopen.tail.nodup⟩
  rw [Tree.node?_setToken, if_neg]
  · exact hopen.tail.node? s n hn
  · rintro rfl
    exact hopen.not_mem (List.mem_map_of_mem hn)

/-- A terminal on top of the stack is complete with its token. -/
theorem Completes.consume (hopen : Open tree ((top, node) :: rest)) (ht : table.isTerminal top = true)
    (he : table.isEpsilon top = false) (ha : table.accepts top token = .ok true)
    (h : Completes table (tree.setToken node token) rest kept tree' ds visited) :
    Completes table tree ((top, node) :: rest) ((top, token) :: kept) tree' (.leaf top :: ds) (node :: visited) := by
  have hnode := hopen.node? top node List.mem_cons_self
  have hframe := h.frame node (by rw [Tree.size_setToken]; exact Tree.lt_size_of_node? hnode) hopen.not_mem
  rw [Tree.node?_setToken, if_pos rfl, hnode] at hframe
  have hperm := h.perm
  have hsize := h.size_le
  rw [Tree.size_setToken] at hperm hsize
  refine ⟨?_, ?_, ?_, congrArg (top :: ·) h.yield_eq, ?_, hsize, hperm.cons node, ?_, h.root_eq⟩
  · exact .cons (.leaf hframe) h.reads
  · rw [List.map_cons, h.symbols]
    rfl
  · intro d hd
    rcases List.mem_cons.mp hd with rfl | hd
    · exact .terminal ht he
    · exact h.predicted d hd
  · intro x hx
    rcases List.mem_cons.mp hx with rfl | hx
    · exact ha
    · exact h.accepts x hx
  · intro i hi hn
    have := h.frame i (by rw [Tree.size_setToken]; exact hi) fun hmem => hn (List.mem_cons_of_mem _ hmem)
    rw [Tree.node?_setToken, if_neg] at this
    · exact this
    · rintro rfl
      exact hn List.mem_cons_self

/-! ### Expansions -/

variable {rhs : List S} {id : P} {lookahead : S}

theorem map_fst_expand : (rhs.zip (List.range' tree.size rhs.length) ++ rest).map Prod.fst = rhs ++ rest.map Prod.fst := by
  rw [List.map_append, List.map_fst_zip (by rw [List.length_range'])]

theorem map_snd_expand : (rhs.zip (List.range' tree.size rhs.length) ++ rest).map Prod.snd =
    List.range' tree.size rhs.length ++ rest.map Prod.snd := by
  rw [List.map_append, List.map_snd_zip (by rw [List.length_range'])]

/-- The tree of an expansion: the node gets new nodes as children. -/
theorem node?_expand (hnode : node < tree.size) (i : Nat) :
    ((tree.addNodes rhs).setChildren node (List.range' tree.size rhs.length)).node? i =
      if i = node then (tree.node? i).map fun n => { n with children := List.range' tree.size rhs.length }
      else if i < tree.size then tree.node? i
      else (rhs[i - tree.size]?).map fun s => ⟨s, none, []⟩ := by
  rw [Tree.node?_setChildren, Tree.node?_addNodes]
  by_cases hi : i = node
  · rw [if_pos hi.symm, if_pos hi, if_pos (hi ▸ hnode)]
  · rw [if_neg (Ne.symm hi), if_neg hi]

theorem Open.expand (hopen : Open tree ((top, node) :: rest)) (rhs : List S) :
    Open ((tree.addNodes rhs).setChildren node (List.range' tree.size rhs.length))
      (rhs.zip (List.range' tree.size rhs.length) ++ rest) := by
  have hnode := Tree.lt_size_of_node? (hopen.node? top node List.mem_cons_self)
  constructor
  · intro s n hn
    rw [node?_expand hnode]
    rcases List.mem_append.mp hn with hn | hn
    · obtain ⟨j, hj⟩ := List.mem_iff_getElem?.mp hn
      obtain ⟨hs, hplace⟩ := List.getElem?_zip_eq_some.mp hj
      obtain ⟨_, hplace⟩ := List.getElem?_eq_some_iff.mp hplace
      rw [List.getElem_range', Nat.one_mul] at hplace
      dsimp only at hs hplace
      subst hplace
      rw [if_neg (by omega), if_neg (by omega), Nat.add_sub_cancel_left, hs]
      rfl
    · have hlt := hopen.tail.lt_size n (List.mem_map_of_mem hn)
      rw [if_neg, if_pos hlt]
      · exact hopen.tail.node? s n hn
      · rintro rfl
        exact hopen.not_mem (List.mem_map_of_mem hn)
  · rw [map_snd_expand]
    refine List.nodup_append.mpr ⟨List.nodup_range', hopen.tail.nodup, fun i hi j hj hij => ?_⟩
    have hlt := hopen.tail.lt_size j hj
    have hge := (List.mem_range'_1.mp hi).1
    omega

/-- What completes a right-hand side keeps the old nodes that are not on the stack as the expansion has left them. -/
theorem Completes.frame_expand
    (h : Completes table ((tree.addNodes rhs).setChildren node (List.range' tree.size rhs.length))
      (rhs.zip (List.range' tree.size rhs.length) ++ rest) kept tree' ds visited) {i : Nat} (hi : i < tree.size)
    (hn : i ∉ rest.map Prod.snd) :
    tree'.node? i = ((tree.addNodes rhs).setChildren node (List.range' tree.size rhs.length)).node? i := by
  refine h.frame i ?_ fun hmem => ?_
  · rw [Tree.size_setChildren, Tree.size_addNodes]
    exact Nat.lt_add_right _ hi
  · rw [map_snd_expand] at hmem
    rcases List.mem_append.mp hmem with hmem | hmem
    · exact absurd hi (Nat.not_lt_of_le (List.mem_range'_1.mp hmem).1)
    · exact hn hmem

/-- The nodes visited for an expansion are those on the stack before it and the new ones. -/
theorem perm_expand {size n final : Nat} {rest : List Nat} (hsize : size + n ≤ final)
    (h : visited.Perm (List.range' size n ++ rest ++ List.range' (size + n) (final - (size + n)))) :
    (node :: visited).Perm (node :: rest ++ List.range' size (final - size)) := by
  have hsplit : List.range' size (final - size) =
      List.range' size n ++ List.range' (size + n) (final - (size + n)) := by
    rw [List.range'_append_1]
    congr 1
    omega
  rw [hsplit, List.cons_append, ← List.append_assoc]
  exact (h.trans (List.perm_append_comm.append_right _)).cons node

/-- A nonterminal on top of the stack is complete when its right-hand side is. -/
theorem Completes.expand (hopen : Open tree ((top, node) :: rest)) (ht : table.isTerminal top = false)
    (hp : table.predict top lookahead = .ok (some (id, rhs)))
    (h : Completes table ((tree.addNodes rhs).setChildren node (List.range' tree.size rhs.length))
      (rhs.zip (List.range' tree.size rhs.length) ++ rest) kept tree' ds visited) :
    ∃ ds' visited', Completes table tree ((top, node) :: rest) kept tree' ds' visited' := by
  have hopened := hopen.node? top node List.mem_cons_self
  have hnode := Tree.lt_size_of_node? hopened
  have hreads := h.reads
  have hsymbols := h.symbols
  have hperm := h.perm
  have hsize := h.size_le
  rw [Tree.size_setChildren, Tree.size_addNodes] at hperm hsize
  rw [map_snd_expand] at hreads hperm
  rw [map_fst_expand] at hsymbols
  obtain ⟨ds₁, ds₂, kept₁, kept₂, visited₁, visited₂, rfl, hkept, rfl, hlen, h₁, h₂⟩ := hreads.of_append
  rw [List.length_range'] at hlen
  rw [List.map_append] at hsymbols
  obtain ⟨hs₁, hs₂⟩ := List.append_inj hsymbols (by rw [List.length_map, hlen])
  have hnew := h.frame_expand hnode hopen.not_mem
  rw [node?_expand hnode, if_pos rfl, hopened] at hnew
  refine ⟨.node top ds₁ :: ds₂, (node :: visited₁) ++ visited₂, ?_, ?_, ?_, ?_, h.accepts, ?_, perm_expand hsize hperm,
    ?_, ?_⟩
  · rw [hkept]
    exact .cons (.node hnew h₁) h₂
  · rw [List.map_cons, hs₂]
    rfl
  · intro d hd
    rcases List.mem_cons.mp hd with rfl | hd
    · refine .node ht (hs₁ ▸ hp) fun e he => h.predicted e (List.mem_append_left _ he)
    · exact h.predicted d (List.mem_append_right _ hd)
  · rw [← h.yield_eq, Derivation.yieldAll_append]
    rfl
  · exact Nat.le_of_add_right_le hsize
  · intro i hi hn
    rw [h.frame_expand hi fun hmem => hn (List.mem_cons_of_mem _ hmem), node?_expand hnode, if_neg, if_pos hi]
    rintro rfl
    exact hn List.mem_cons_self
  · rw [h.root_eq, Tree.setChildren, Tree.root_addNodes]

end Completion

/-- **Runs complete the nodes on the stack**, read from their end. -/
theorem Drives.completes (h : Drives table c done kept c') (hopen : Open c.tree c.stack) (hend : c'.stack = []) :
    ∃ ds visited, Completes table c.tree c.stack kept c'.tree ds visited := by
  induction h with
  | refl c =>
    rw [hend]
    refine ⟨[], [], .nil, rfl, fun _ hd => absurd hd List.not_mem_nil, rfl, fun _ hx => absurd hx List.not_mem_nil,
      Nat.le_refl _, ?_, fun _ _ _ => rfl, rfl⟩
    rw [Nat.sub_self]
    exact .nil
  | epsilon ht ha he _ ih =>
    obtain ⟨ds, visited, hc⟩ := ih hopen.tail hend
    exact ⟨_, _, hc.epsilon hopen ht he⟩
  | consume ht ha he _ _ ih =>
    obtain ⟨ds, visited, hc⟩ := ih (hopen.setToken _) hend
    exact ⟨_, _, hc.consume hopen ht he ha⟩
  | expand ht _ hp _ ih =>
    obtain ⟨ds, visited, hc⟩ := ih (hopen.expand _) hend
    exact hc.expand hopen ht hp
  | skip _ _ _ _ ih => exact ih hopen hend

/-- The tree that a parse begins with, whose root is all that is open. -/
def startTree (start : S) : Tree S := (Tree.empty.addNode start).setRoot 0

/-- A parse is a run from the start symbol and the first token. -/
theorem parse_eq {start : S} {source behind : σ} {token : Token} (hstart : table.start = .ok start)
    (hn : TokenSource.next source = (.ok token, behind)) (fuel : Nat) :
    table.parse fuel source = run table.step fuel ⟨startTree start, [(start, 0)], token, behind⟩ := by
  unfold parse
  rw [hstart, hn]
  rfl

theorem open_startTree (start : S) : Open (startTree start) [(start, 0)] := by
  refine ⟨fun s n hn => ?_, List.pairwise_singleton _ _⟩
  cases List.mem_singleton.mp hn
  rfl

/-- **The tree of a run that empties its stack** shows a derivation of the symbol that it began with. -/
theorem Drives.shows {start : S} {token : Token} {source : σ}
    (h : Drives table ⟨startTree start, [(start, 0)], token, source⟩ done kept c) (hend : c.stack = []) :
    ∃ d, d.symbol = start ∧ Predicted table d ∧ c.tree.Shows d (kept.map Prod.snd) ∧ d.yield = kept.map Prod.fst ∧
      ∀ x ∈ kept, table.accepts x.1 x.2 = .ok true := by
  obtain ⟨ds, visited, hc⟩ := h.completes (open_startTree start) hend
  obtain ⟨d, rfl, hd⟩ := List.map_eq_singleton_iff.mp hc.symbols
  have hyield := hc.yield_eq
  have hperm := hc.perm
  have hle := hc.size_le
  have hreads := hc.reads
  rw [Derivation.yieldAll, Derivation.yieldAll, List.append_nil] at hyield
  generalize hkept : kept.map Prod.snd = tokens at hreads ⊢
  cases hreads with
  | cons hroot hnil =>
    cases hnil
    rw [List.append_nil] at hperm ⊢
    refine ⟨d, hd, hc.predicted d List.mem_cons_self, ⟨0, _, hc.root_eq, hroot, ?_⟩, hyield, hc.accepts⟩
    have hsize : (startTree start).size = 1 := rfl
    rw [hsize] at hperm hle
    obtain ⟨k, hk⟩ := Nat.exists_eq_add_of_le' hle
    rw [hk, Nat.add_sub_cancel] at hperm
    rw [hk, List.range_eq_range', List.range'_succ]
    exact hperm

/-- **Trees of predictive parses are derivations** of the start symbol by the productions that the table predicts, with
the tokens up to the end of the input on their leaves but for some line breaks. -/
theorem shows_of_parse {fuel : Nat} {source : σ} {tree : Tree S} (h : table.parse fuel source = some (.ok tree)) :
    ∃ (d : Derivation S) (done : List Token) (kept : List (S × Token)) (eof : Token) (last : σ),
      table.start = .ok d.symbol ∧ Predicted table d ∧ tree.Shows d (kept.map Prod.snd) ∧ d.yield = kept.map Prod.fst ∧ (∀ x ∈ kept, table.accepts x.1 x.2 = .ok true) ∧
      Pulls source (done ++ [eof]) last ∧ eof.isEndOfFile = true ∧ Skimmed done (kept.map Prod.snd) := by
  unfold parse at h
  split at h
  · cases h
  rename_i start hstart
  split at h
  · cases h
  rename_i token behind hn
  obtain ⟨c, hreach, hstep⟩ := answers_iff.mp ⟨fuel, h⟩
  obtain ⟨hstack, heof, rfl⟩ := step_eq_ok_iff.mp hstep
  obtain ⟨done, kept, hdrives⟩ := exists_drives hreach
  obtain ⟨d, rfl, hpredicted, hshows, hyield, haccepts⟩ := Drives.shows hdrives hstack
  obtain ⟨pulled, hpulled, hpulls⟩ := hdrives.pulls
  refine ⟨d, done, kept, c.token, c.source, hstart, hpredicted, hshows, hyield, haccepts, ?_, heof, hdrives.skimmed⟩
  rw [← hpulled]
  exact .cons hn hpulls

end PredictiveTable
end TableParser
