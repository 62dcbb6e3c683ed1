import TableParser.Proofs.Forest
import TableParser.Proofs.ShiftReduce
import TableParser.Proofs.SlrTable
import TableParser.Proofs.Terminals
import TableParser.Samples

/-!
# SLR parses are derivations

Whatever an SLR table makes of its conflicts, a tree that it parses is a derivation tree of the grammar that it was
built from (`LR.Table.derivation_of_parse`). The symbols on the stack of items label a path of the automaton along the
stack of states (`LR.Path`), and what an item in the last state has recognized is on top of the stack
(`LR.Path.isPrefix`), so that every reduction takes a right-hand side.
-/

namespace TableParser
namespace LR

open Automaton (Has Exact)

/-! ## Paths -/

/-- The states and the symbols along a path from the start state, the last ones first. -/
inductive Path (edges : Edges) : List StateId → List Symbol → Prop
  | start : Path edges [.start] []
  | step {q r : StateId} {states : List StateId} {s : Symbol} {symbols : List Symbol}
      (h : Path edges (q :: states) symbols) (he : edges.get? q s = some r) : Path edges (r :: q :: states) (s :: symbols)

namespace Path

variable {g' : Grammar} {sets : List ItemSet} {a : Automaton} {states : List StateId} {q : StateId}
  {symbols : List Symbol} {i : Item} {rule : Rule} {b : Alternative}

theorem length_eq {edges : Edges} (h : Path edges states symbols) : states.length = symbols.length + 1 := by
  induction h with
  | start => rfl
  | step _ _ ih => rw [List.length_cons, ih, List.length_cons]

/-- The path that is left when the last symbols are taken away. -/
theorem drop {edges : Edges} (h : Path edges states symbols) {n : Nat} (hn : n ≤ symbols.length) :
    Path edges (states.drop n) (symbols.drop n) := by
  induction n generalizing states symbols with
  | zero => exact h
  | succ n ih =>
    cases h with
    | start => exact absurd hn (Nat.not_succ_le_zero n)
    | step h _ => exact ih h (Nat.le_of_succ_le_succ hn)

/-- **What an item has recognized is on top of the stack.** -/
theorem isPrefix (h : Path a.edges (q :: states) symbols) (hx : Exact ⟨g', none⟩ sets a) (hi : Has sets q i)
    (ht : g'.target? i.alternative = some (rule, b)) : (b.symbols.take i.dot.toNat).reverse <+: symbols := by
  generalize hqs : q :: states = path at h
  induction h generalizing q states i rule b with
  | start =>
    cases hqs
    have hdot : i.dot.toNat = 0 := (hi.of_start hx rfl).elim (fun h => h.1) (fun h => h.1)
    rw [hdot]
    exact List.nil_prefix
  | @step q₀ r₀ states₀ s symbols h he ih =>
    cases hqs
    rcases hi.exists_before hx rfl he ht with ⟨j, hj, htarget, hnext, hdot⟩ | ⟨hdot, _⟩
    · have hpre := ih hj htarget rfl
      rw [hdot, List.take_add_one, hnext, List.reverse_append]
      exact List.cons_prefix_cons.mpr ⟨rfl, hpre⟩
    · rw [hdot]
      exact List.nil_prefix

/-- An item of the new start symbol has the whole stack recognized. -/
theorem length_eq_dot {g : Grammar} {start accept : Symbol} (h : Path a.edges (q :: states) symbols)
    (hx : Exact ⟨g', none⟩ sets a) (hg : Grammar.Augmented g g' start accept) (hi : Has sets q i)
    (ht : g'.target? i.alternative = some (rule, b)) (hr : rule.lhs = accept) :
    symbols.length = i.dot.toNat ∧ i.dot.toNat ≤ b.symbols.length := by
  have hnot : ∀ {j : Item}, g'.target? j.alternative = some (rule, b) → ¬Automaton.Predicted ⟨g', none⟩ j := by
    rintro j htj ⟨_, rule', b', htarget, hmem⟩
    have hsame : (rule', b') = (rule, b) := Option.some.inj (htarget.symm.trans htj)
    cases hsame
    rw [hr] at hmem
    exact hg.accept_not_mem_rhsSymbols hmem
  generalize hqs : q :: states = path at h
  induction h generalizing q states i with
  | start =>
    cases hqs
    have hdot : i.dot.toNat = 0 := (hi.of_start hx rfl).elim (fun h => h.1) (fun h => h.1)
    rw [hdot]
    exact ⟨rfl, Nat.zero_le _⟩
  | @step q₀ r₀ states₀ s symbols h he ih =>
    cases hqs
    rcases hi.exists_before hx rfl he ht with ⟨j, hj, htarget, hnext, hdot⟩ | hpred
    · obtain ⟨hlen, _⟩ := ih hj htarget rfl
      obtain ⟨hlt, _⟩ := List.getElem?_eq_some_iff.mp hnext
      rw [List.length_cons, hlen, hdot]
      exact ⟨rfl, hlt⟩
    · exact absurd hpred (hnot ht)

end Path

/-! ## Actions of tables -/

namespace Table

variable {t : Table} {q r : StateId} {s lhs : Symbol} {lookahead : Option Symbol} {id : AlternativeId} {arity : Nat}

theorem action_nonterminal (hs : s.isNonterminal = true) :
    t.action q (some s) = match t.gotos.get? q s with
      | some target => .ok (.shift target)
      | none => .ok (.error .incorrectState) := by
  unfold action
  rw [Option.getD_some]
  exact if_pos hs

theorem action_terminal (hs : (lookahead.getD Symbol.endMarker).isTerminal = true) :
    t.action q lookahead = match t.actions.get? q (lookahead.getD Symbol.endMarker) with
      | some (.shift target) => .ok (.shift target)
      | some (.reduce id) => (t.grammar.target id).map fun (r, a) => .reduce id r.lhs a.arity
      | some .accept => .ok .accept
      | none => .ok (.error .incorrectSymbol) := by
  unfold action
  exact if_neg fun hnt => Symbol.not_isTerminal hnt hs

/-- Where a table goes on a nonterminal. -/
theorem get?_of_goto (hs : s.isNonterminal = true) {action : Action StateId Symbol AlternativeId}
    (h : t.action q (some s) = .ok action) :
    (∃ r, action = .shift r ∧ t.gotos.get? q s = some r) ∨ ∃ cause, action = .error cause := by
  rw [action_nonterminal hs] at h
  split at h
  · rename_i r hr
    cases h
    exact .inl ⟨r, rfl, hr⟩
  · cases h
    exact .inr ⟨_, rfl⟩

/-- What a table does on a terminal is what its slot says. -/
theorem get?_of_action (hs : (lookahead.getD Symbol.endMarker).isTerminal = true)
    {action : Action StateId Symbol AlternativeId} (h : t.action q lookahead = .ok action) :
    (∃ r, action = .shift r ∧ t.actions.get? q (lookahead.getD Symbol.endMarker) = some (.shift r)) ∨
    (∃ id rule a, action = .reduce id rule.lhs a.arity ∧ t.grammar.target? id = some (rule, a) ∧
      t.actions.get? q (lookahead.getD Symbol.endMarker) = some (.reduce id)) ∨
    (action = .accept ∧ t.actions.get? q (lookahead.getD Symbol.endMarker) = some .accept) ∨
    ∃ cause, action = .error cause := by
  rw [action_terminal hs] at h
  split at h
  · rename_i r hr
    cases h
    exact .inl ⟨r, rfl, hr⟩
  · rename_i id hid
    obtain ⟨⟨rule, a⟩, htarget, rfl⟩ := map_eq_ok_iff.mp h
    exact .inr (.inl ⟨id, rule, a, rfl, Grammar.target_eq_ok.mp htarget, hid⟩)
  · rename_i ha
    cases h
    exact .inr (.inr (.inl ⟨rfl, ha⟩))
  · cases h
    exact .inr (.inr (.inr ⟨_, rfl⟩))

/-- On a nonterminal a table goes on or errs: whatever else it does, it does on a terminal. -/
theorem isTerminal_of_action {action : Action StateId Symbol AlternativeId} (h : t.action q lookahead = .ok action)
    (hshift : ∀ r, action ≠ .shift r) (herror : ∀ cause, action ≠ .error cause) :
    (lookahead.getD Symbol.endMarker).isTerminal = true := by
  by_contra hs
  cases lookahead with
  | none => exact hs rfl
  | some s =>
    have hnt : s.isNonterminal = true := Symbol.isTerminal_eq_false_iff.mp (Bool.eq_false_iff.mpr hs)
    rcases get?_of_goto hnt h with ⟨r, hr, _⟩ | ⟨cause, hcause⟩
    · exact hshift r hr
    · exact herror cause hcause

/-- Reductions are by alternatives, and on terminals only. -/
theorem get?_of_reduce (h : t.action q lookahead = .ok (.reduce id lhs arity)) : ∃ rule al,
    t.grammar.target? id = some (rule, al) ∧ lhs = rule.lhs ∧ arity = al.arity ∧
      t.actions.get? q (lookahead.getD Symbol.endMarker) = some (.reduce id) := by
  rcases get?_of_action (isTerminal_of_action h nofun nofun) h with
    ⟨_, ha, _⟩ | ⟨id', rule, al, ha, htarget, hget⟩ | ⟨ha, _⟩ | ⟨_, ha⟩
  · cases ha
  · cases ha
    exact ⟨rule, al, htarget, rfl, rfl, hget⟩
  · cases ha
  · cases ha

/-- Acceptance is on a terminal. -/
theorem get?_of_accept (h : t.action q lookahead = .ok .accept) :
    t.actions.get? q (lookahead.getD Symbol.endMarker) = some .accept := by
  rcases get?_of_action (isTerminal_of_action h nofun nofun) h with
    ⟨_, ha, _⟩ | ⟨_, _, _, ha, _⟩ | ⟨_, hget⟩ | ⟨_, ha⟩
  · cases ha
  · cases ha
  · exact hget
  · cases ha

section Edges

variable {g : Grammar} {start accept : Symbol} {follow : FollowSets} {sets : List ItemSet} {a : Automaton}

/-- On a nonterminal the table goes along the edges. -/
theorem Exact.action_of_edge (ht : Table.Exact g start accept follow sets a t) (hs : s.isNonterminal = true)
    (hedge : a.edges.get? q s = some r) : t.action q (some s) = .ok (.shift r) := by
  have hs' := Symbol.isTerminal_eq_false_iff.mpr hs
  rw [Table.action_nonterminal hs, (ht.goto q s r).mpr ⟨hedge, hs'⟩]

/-- Where a table goes, there is an edge of the automaton. -/
theorem Exact.edge_of_shift (ht : Table.Exact g start accept follow sets a t)
    (h : t.action q (some s) = .ok (.shift r)) : a.edges.get? q s = some r := by
  cases hs : s.isNonterminal with
  | true =>
    rcases get?_of_goto hs h with ⟨r', hr, hget⟩ | ⟨_, hr⟩
    · cases hr
      exact ((ht.goto q s r).mp hget).1
    · cases hr
  | false =>
    have hterminal : ((some s).getD Symbol.endMarker).isTerminal = true := by
      rwa [Symbol.isNonterminal_eq_not_isTerminal, Bool.not_eq_false'] at hs
    rcases get?_of_action hterminal h with
      ⟨r', hr, hget⟩ | ⟨_, _, _, hr, _⟩ | ⟨hr, _⟩ | ⟨_, hr⟩
    · cases hr
      cases ht.action q s _ hget with
      | shift hedge _ => exact hedge
    all_goals cases hr

end Edges

end Table

/-! ## Forests of derivations -/

/-- The items on the stack stand for derivations, and the tokens read are their leaves, but for some line breaks. -/
def Grows (g : Grammar) (find : Token → Option Symbol) (b : TreeBuild Symbol) (items : List (StackItem Symbol))
    (done : List Token) : Prop :=
  ∃ ds tokens, Skimmed done tokens ∧ b.Realizes items.reverse ds tokens ∧ (∀ d ∈ ds, d.Valid g.Produces) ∧
    tokens.map find = (Derivation.yieldAll ds).map some

namespace Grows

variable {g : Grammar} {find : Token → Option Symbol} {b b' : TreeBuild Symbol} {items : List (StackItem Symbol)}
  {done : List Token} {token : Token} {s lhs : Symbol} {al : Alternative}

theorem empty : Grows g find .empty [] [] :=
  ⟨[], [], .nil, .empty, fun _ hd => absurd hd List.not_mem_nil, rfl⟩

theorem skip (h : Grows g find b items done) (hn : token.kind = .newline) : Grows g find b items (done ++ [token]) := by
  obtain ⟨ds, tokens, hskim, hreal, hvalid, hmap⟩ := h
  refine ⟨ds, tokens, ?_, hreal, hvalid, hmap⟩
  have happ := hskim.append (.skip hn .nil)
  rwa [List.append_nil] at happ

theorem shift (h : Grows g find b items done) (hf : find token = some s) (ht : s.isTerminal = true)
    (hs : s ≠ Symbol.epsilon) : Grows g find b (.terminal s token :: items) (done ++ [token]) := by
  obtain ⟨ds, tokens, hskim, hreal, hvalid, hmap⟩ := h
  refine ⟨ds ++ [.leaf s], tokens ++ [token], hskim.append (.keep token .nil), ?_, ?_, ?_⟩
  · rw [List.reverse_cons]
    exact hreal.shift s token
  · intro d hd
    rcases List.mem_append.mp hd with hd | hd
    · exact hvalid d hd
    · rw [List.mem_singleton.mp hd]
      exact .terminal ht hs
  · rw [Derivation.yieldAll_append, List.map_append, List.map_append, hmap, List.map_singleton, hf]
    rfl

/-- **A reduction by an alternative** whose symbols are on top of the stack. -/
theorem reduce (h : Grows g find b items done) (hl : lhs.isNonterminal = true) (hp : g.Produces lhs al)
    (hne : al.symbols ≠ [])
    (htop : al.isEpsilon = false → (items.take al.arity).reverse.map StackItem.symbol = al.symbols)
    (hb : b.reduce? lhs (items.take al.arity).reverse = some b') :
    Grows g find b' (.nonterminal lhs :: items.drop al.arity) done := by
  obtain ⟨ds, tokens, hskim, hreal, hvalid, hmap⟩ := h
  obtain ⟨ds₁, ds₂, rfl, hlen₂, hreal⟩ := hreal.split al.arity
  obtain ⟨b'', hb'', hreal'⟩ := hreal.reduce hlen₂ lhs
  rw [hb] at hb''
  cases hb''
  have hvalid₂ : ∀ d ∈ ds₂, d.Valid g.Produces := fun d hd => hvalid d (List.mem_append_right ds₁ hd)
  have hnode : (Derivation.node lhs ds₂).Valid g.Produces := by
    cases he : al.isEpsilon with
    | true =>
      rw [Alternative.arity_of_isEpsilon he] at hlen₂
      rw [List.length_eq_zero_iff.mp hlen₂]
      exact .empty hl hp he
    | false =>
      have hsymbols := hreal.map_symbol
      rw [List.map_append, List.map_append] at hsymbols
      have hright := (List.append_inj' hsymbols (by rw [List.length_map, List.length_map, hlen₂])).2
      rw [htop he] at hright
      refine .inner hl hp he ?_ hright hvalid₂
      rintro rfl
      exact hne hright.symm
  refine ⟨ds₁ ++ [.node lhs ds₂], tokens, hskim, ?_, ?_, ?_⟩
  · rw [List.reverse_cons]
    exact hreal'
  · intro d hd
    rcases List.mem_append.mp hd with hd | hd
    · exact hvalid d (List.mem_append_left ds₂ hd)
    · rw [List.mem_singleton.mp hd]
      exact hnode
  · rw [hmap, Derivation.yieldAll_append, Derivation.yieldAll_append, Derivation.yieldAll, Derivation.yieldAll,
      Derivation.yield, List.append_nil]

/-- **A nonterminal that is alone on the stack** has its tree finished. -/
theorem finish (h : Grows g find b items done) (hl : lhs.isNonterminal = true)
    (hitems : items.map StackItem.symbol = [lhs]) : items = [.nonterminal lhs] ∧
      ∃ d tokens tree, b.finish? = some tree ∧ tree.Shows d tokens ∧ Skimmed done tokens ∧ d.Valid g.Produces ∧
        d.symbol = lhs ∧ tokens.map find = d.yield.map some := by
  obtain ⟨ds, tokens, hskim, hreal, hvalid, hmap⟩ := h
  obtain ⟨item, rfl, hitem⟩ := List.map_eq_singleton_iff.mp hitems
  have hds := hreal.map_symbol
  rw [List.reverse_singleton, List.map_singleton, hitem] at hds
  obtain ⟨d, rfl, rfl⟩ := List.map_eq_singleton_iff.mp hds
  have hd := hvalid d (List.mem_singleton.mpr rfl)
  obtain ⟨cs, hcs⟩ := hd.exists_node hl
  rw [hcs] at hreal
  obtain ⟨tree, hfinish, hshows⟩ := TreeBuild.Realizes.finish hreal
  rw [← hcs] at hshows
  rw [Derivation.yieldAll, Derivation.yieldAll, List.append_nil] at hmap
  exact ⟨congrArg (fun i => [i]) hreal.eq_nonterminal, d, tokens, tree, hfinish, hshows, hskim, hd, rfl, hmap⟩

end Grows

/-! ## Invariants of parses -/

section Parses

variable {σ ε : Type} [TokenSource σ ε] {g : Grammar} {start accept : Symbol} {follow : FollowSets}
  {sets : List ItemSet} {a : Automaton} {t : Table} {source source₀ behind : σ} {m : Machine StateId Symbol}
  {q : StateId} {states : List StateId} {token : Token} {lookahead : Option Symbol} {done : List Token}

/-- The stacks lie along a path; after a reduction the state of the last item is still missing. -/
def OnPath (edges : Edges) (m : Machine StateId Symbol) : Prop :=
  match m.mode with
  | .reading => Path edges m.states (m.items.map StackItem.symbol)
  | .pendingGoto => ∃ item items, m.items = item :: items ∧ item.symbol.isNonterminal = true ∧
      Path edges m.states (items.map StackItem.symbol)
  | .accepted => False

omit [TokenSource σ ε] in
theorem OnPath.path {edges : Edges} (h : OnPath edges m) (hm : m.mode = .reading) :
    Path edges m.states (m.items.map StackItem.symbol) := by
  unfold OnPath at h
  rw [hm] at h
  exact h

omit [TokenSource σ ε] in
theorem OnPath.of_path {edges : Edges} (h : Path edges m.states (m.items.map StackItem.symbol))
    (hm : m.mode = .reading) : OnPath edges m := by
  unfold OnPath
  rw [hm]
  exact h

omit [TokenSource σ ε] in
/-- After a reduction a nonterminal is on top, and the states belong to the items below it. -/
theorem OnPath.pending {edges : Edges} (h : OnPath edges m) (hm : m.mode = .pendingGoto) {item : StackItem Symbol}
    {items : List (StackItem Symbol)} (hi : m.items = item :: items) :
    item.symbol.isNonterminal = true ∧ Path edges m.states (items.map StackItem.symbol) := by
  unfold OnPath at h
  rw [hm] at h
  obtain ⟨item', items', hi', hnt, hpath⟩ := h
  rw [hi] at hi'
  cases hi'
  exact ⟨hnt, hpath⟩

/-- **What the moves of a parse keep**: the stacks lie along a path, and stand for derivations of what was read. -/
structure Sound (g : Grammar) (a : Automaton) (t : Table) (source₀ : σ) (c : ParseConfig StateId Symbol σ) : Prop where
  onPath : OnPath a.edges c.1.1
  grows : ∃ done, Pulls source₀ (done ++ c.1.1.peeked.toList) c.1.2 ∧ (∀ u ∈ done, u.isEndOfFile = false) ∧
    Grows g t.terminals.find? c.2 c.1.1.items done

theorem pulls_of_peeks (h : Pulls source₀ (done ++ m.peeked.toList) source) (hp : m.Peeks source token behind) :
    Pulls source₀ (done ++ [token]) behind := by
  rcases hp with ⟨hp, rfl⟩ | ⟨hp, hn⟩
  · rw [hp] at h
    exact h
  · rw [hp, Option.toList_none, List.append_nil] at h
    exact h.snoc hn

theorem Table.Exact.isTerminal_of_terminal (ht : Table.Exact g start accept follow sets a t) {s : Symbol}
    (hs : t.table.terminal token = some s) : s.isTerminal = true ∧ s ≠ Symbol.epsilon := by
  have hs' : t.terminals.find? token = some s := hs
  rw [ht.terminals_eq] at hs'
  exact TerminalMap.isTerminal_of_find? hs'

/-- A reduction of the table takes the symbols of an alternative from the stack. -/
theorem exists_reduce (ht : Table.Exact g start accept follow sets a t)
    (hpath : Path a.edges (q :: states) (m.items.map StackItem.symbol)) {s : Symbol} {id : AlternativeId}
    (hid : t.actions.get? q s = some (.reduce id)) {rule : Rule} {al : Alternative}
    (htarget : t.grammar.target? id = some (rule, al)) :
    rule.lhs.isNonterminal = true ∧ g.Produces rule.lhs al ∧ al.arity ≤ m.items.length ∧
      (al.isEpsilon = false → (m.items.take al.arity).reverse.map StackItem.symbol = al.symbols) := by
  cases ht.action q s _ hid with
  | @reduce i rule' al' hi htarget' hc hr _ _ =>
    have hsame : (rule', al') = (rule, al) := Option.some.inj (htarget'.symm.trans htarget)
    cases hsame
    obtain ⟨hrule, hp⟩ := Grammar.produces_of_target? htarget
    have hp' : g.Produces rule.lhs al := (ht.augmented.produces_iff.mp hp).resolve_left fun h => hr h.1
    refine ⟨ht.augmented.nonterminal_lhs rule hrule, hp', ?_⟩
    cases he : al.isEpsilon with
    | true =>
      rw [Alternative.arity_of_isEpsilon he]
      exact ⟨Nat.zero_le _, fun h => by cases h⟩
    | false =>
      have harity := Alternative.arity_of_isEpsilon_eq_false he
      have hpre := hpath.isPrefix ht.automaton hi htarget'
      rw [List.take_of_length_le ((Item.isCompleteIn_iff he).mp hc)] at hpre
      have hle := hpre.length_le
      rw [List.length_reverse, List.length_map] at hle
      refine ⟨by rw [harity]; exact hle, fun _ => ?_⟩
      have htake := List.prefix_iff_eq_take.mp hpre
      rw [List.length_reverse] at htake
      rw [harity, List.map_reverse, List.map_take, ← htake, List.reverse_reverse]

/-- **Every move keeps a parse sound.** -/
theorem Sound.move (ht : Table.Exact g start accept follow sets a t) {c c' : ParseConfig StateId Symbol σ}
    (h : Sound g a t source₀ c) (hmove : ActionTable.Moves t.table c c') : Sound g a t source₀ c' := by
  obtain ⟨hpath, done, hpulls, hdone, hgrows⟩ := h
  have hdone' : ∀ {u : Token}, u.isEndOfFile = false → ∀ v ∈ done ++ [u], v.isEndOfFile = false := fun hu =>
    List.forall_mem_append.mpr ⟨hdone, List.forall_mem_singleton.mpr hu⟩
  have hread : ∀ {u : Token} {behind : σ}, Pulls source₀ (done ++ [u]) behind →
      Pulls source₀ ((done ++ [u]) ++ (none : Option Token).toList) behind := fun h =>
    (List.append_nil _).symm ▸ h
  cases hmove with
  | @skip m source behind b token hm hp hn =>
    exact ⟨hpath, done ++ [token], hread (pulls_of_peeks hpulls hp), hdone' (Token.isEndOfFile_of_newline hn),
      hgrows.skip hn⟩
  | @shift m source behind b token q r states s hm hs hp hl ha =>
    obtain ⟨he, hf⟩ := hl.of_some
    obtain ⟨hterminal, hne⟩ := ht.isTerminal_of_terminal hf
    have hpath' := hpath.path hm
    dsimp only at hpath'
    rw [hs] at hpath'
    refine ⟨.of_path ?_ hm, done ++ [token], hread (pulls_of_peeks hpulls hp), hdone' he,
      hgrows.shift hf hterminal hne⟩
    dsimp only
    rw [hs]
    exact .step hpath' (ht.edge_of_shift ha)
  | @goto m source b q r states item items hm hs hi ha =>
    obtain ⟨_, hpath'⟩ := hpath.pending hm hi
    dsimp only at hpath'
    rw [hs] at hpath'
    refine ⟨.of_path ?_ rfl, done, hpulls, hdone, hgrows⟩
    dsimp only
    rw [hs, hi]
    exact .step hpath' (ht.edge_of_shift ha)
  | @reduce m source behind b b' token q states lookahead id lhs arity hm hs hp hl ha hstates hitems hb =>
    have hpath' := hpath.path hm
    obtain ⟨rule, al, htarget, rfl, rfl, hget⟩ := Table.get?_of_reduce ha
    obtain ⟨hnt, hprod, hlen, htop⟩ := exists_reduce ht (hs ▸ hpath') hget htarget
    have hdrop := hpath'.drop (n := al.arity) (by rw [List.length_map]; exact hlen)
    rw [← List.map_drop] at hdrop
    exact ⟨⟨_, _, rfl, hnt, hdrop⟩, done, pulls_of_peeks hpulls hp, hdone,
      hgrows.reduce hnt hprod (ht.augmented.wellFormed.symbols_ne_nil _ _ hprod) htop hb⟩
  | regoto hm _ hi ha _ _ _ =>
    exact absurd (Table.isTerminal_of_action ha nofun nofun) (Symbol.not_isTerminal (hpath.pending hm hi).1)

/-- The start of a parse is sound. -/
theorem sound_start (source₀ : σ) : Sound g a t source₀ ((.start .start, source₀), .empty) :=
  ⟨.start, [], .nil source₀, fun _ hu => absurd hu List.not_mem_nil, .empty⟩

/-- So is all that a parse reaches. -/
theorem sound_of_reaches (ht : Table.Exact g start accept follow sets a t) {c : ParseConfig StateId Symbol σ}
    (h : Reaches t.table.parseStep ((.start .start, source₀), .empty) c) : Sound g a t source₀ c :=
  h.invariant (sound_start source₀) fun _ _ hc hstep => hc.move ht (ActionTable.moves_of_parseStep hstep)

/-- A complete item of the new start symbol has the old one on the stack, and nothing else. -/
theorem Path.eq_start {symbols : List Symbol} {i : Item} {rule : Rule} {al : Alternative}
    (h : Path a.edges (q :: states) symbols) (ht : Table.Exact g start accept follow sets a t) (hi : Has sets q i)
    (htarget : t.grammar.target? i.alternative = some (rule, al)) (hc : i.isCompleteIn al = true)
    (hr : rule.lhs = accept) : symbols = [start] := by
  have hal : al = ⟨[start], none⟩ := by
    have hp := (Grammar.produces_of_target? htarget).2
    rcases ht.augmented.produces_iff.mp hp with ⟨_, hal⟩ | hp
    · exact hal
    · exact absurd hr (ht.augmented.ne_accept hp)
  subst hal
  obtain ⟨hlen, hle⟩ := h.length_eq_dot ht.automaton ht.augmented hi htarget hr
  have hne := Symbol.ne_epsilon_of_isNonterminal ht.augmented.start_nonterminal
  have hdot : i.dot.toNat = 1 :=
    Nat.le_antisymm hle ((Item.isCompleteIn_iff (Alternative.isEpsilon_cons hne [] none)).mp hc)
  have hpre := h.isPrefix ht.automaton hi htarget
  rw [hdot] at hpre hlen
  exact (hpre.eq_of_length hlen.symm).symm

/-- **A sound parse accepts with a derivation** of the start symbol, at the end of the input. -/
theorem Sound.derivation (ht : Table.Exact g start accept follow sets a t) {c : ParseConfig StateId Symbol σ}
    (h : Sound g a t source₀ c) {tree : Tree Symbol} (haccept : ActionTable.Accepts t.table c tree) :
    ∃ d done tokens eof last, Pulls source₀ (done ++ [eof]) last ∧ eof.isEndOfFile = true ∧
      (∀ u ∈ done, u.isEndOfFile = false) ∧ Skimmed done tokens ∧ tree.Shows d tokens ∧ d.Valid g.Produces ∧
      d.symbol = start ∧ tokens.map t.terminals.find? = d.yield.map some := by
  obtain ⟨hpath, done, hpulls, hdone, hgrows⟩ := h
  cases haccept with
  | @accept m source behind b token q states lookahead tree hm hs hp hl ha hi hb =>
    have hpath' := hpath.path hm
    dsimp only at hpath' hgrows
    rw [hs] at hpath'
    cases ht.action q _ _ (Table.get?_of_accept ha) with
    | @accept i rule al hhas htarget hc hr hmarker =>
      -- only the end of the input stands for the end marker
      have heof : token.isEndOfFile = true := by
        rcases hl with ⟨he, _⟩ | ⟨_, s, hf, rfl⟩
        · exact he
        · have hf' : t.terminals.find? token = some s := hf
          rw [Option.getD_some] at hmarker
          rw [hmarker, ht.terminals_eq] at hf'
          exact TerminalMap.isEndOfFile_of_find? hf'
      obtain ⟨_, d, tokens, tree', hfinish, hshows, hskim, hvalid, hd, hmap⟩ :=
        hgrows.finish ht.augmented.start_nonterminal (hpath'.eq_start ht hhas htarget hc hr)
      rw [hb] at hfinish
      cases hfinish
      exact ⟨d, done, tokens, token, behind, pulls_of_peeks hpulls hp, heof, hdone, hskim, hshows, hvalid, hd, hmap⟩
  | goto hm _ hi ha _ =>
    exact absurd (Table.isTerminal_of_action ha nofun nofun) (Symbol.not_isTerminal (hpath.pending hm hi).1)

/-- **Trees of SLR parses are derivation trees**, conflicts or not: of the start symbol, over the alternatives of the
grammar, with the tokens up to the end of the input on their leaves but for some line breaks. -/
theorem Table.derivation_of_parse {steps : List DefinitionStep} {g : Grammar} {t : Table} {input : List Token}
    {fuel : Nat} {tree : Tree Symbol} (hg : (Grammar.define steps).result = .ok g)
    (ht : (Table.build g).result = .ok t) (h : t.parse fuel (TokenList.ofList input) = some (.ok tree)) :
    ∃ d tokens, tree.Shows d tokens ∧ d.Valid g.Produces ∧ g.start = .ok d.symbol ∧
      tokens.map (TerminalMap.ofGrammar g).find? = d.yield.map some ∧ tree.leaves = tokens ∧
      Skimmed (input.takeWhile fun token => !token.isEndOfFile) tokens := by
  obtain ⟨start, accept, follow, sets, a, hexact⟩ := Table.exact_of_build (wellFormed_of_define hg) ht
  obtain ⟨c, hreach, hstep⟩ := answers_iff.mp ⟨fuel, h⟩
  obtain ⟨d, done, tokens, eof, last, hpulls, heof, hdone, hskim, hshows, hvalid, hd, hmap⟩ :=
    (sound_of_reaches hexact hreach).derivation hexact (ActionTable.accepts_of_parseStep hstep)
  rw [hexact.terminals_eq] at hmap
  refine ⟨d, tokens, hshows, hvalid, hd ▸ hexact.augmented.start_eq, hmap, hshows.leaves_eq, ?_⟩
  rw [TokenList.takeWhile_eq_of_pulls hpulls heof hdone]
  exact hskim

end Parses

/-- Two letters on two lines. -/
def letters : List Token :=
  [⟨.identifier, "a", ⟨1, 1⟩⟩, ⟨.newline, "\n", ⟨1, 2⟩⟩, ⟨.identifier, "a", ⟨2, 1⟩⟩]

set_option maxRecDepth 10000 in
/-- Two letters are parsed as a list of two letters. -/
theorem Table.derivation_of_parse_letters : ∃ g t tree, (Grammar.define Sample.emptyableList.steps).result = .ok g ∧
    (Table.build g).result = .ok t ∧ t.parse 20 (TokenList.ofList letters) = some (.ok tree) ∧
    ∃ d tokens, tree.Shows d tokens ∧ d.Valid g.Produces ∧ g.start = .ok d.symbol ∧
      tokens.map (TerminalMap.ofGrammar g).find? = d.yield.map some ∧ tree.leaves = tokens ∧
      Skimmed (letters.takeWhile fun token => !token.isEndOfFile) tokens := by
  have heval : ((Grammar.define Sample.emptyableList.steps).result.toOption.bind fun g =>
      (Table.build g).result.toOption.bind fun t =>
        (t.parse 20 (TokenList.ofList letters)).bind Except.toOption).isSome = true := by rfl
  obtain ⟨tree, heval⟩ := Option.isSome_iff_exists.mp heval
  obtain ⟨g, hg, heval⟩ := Option.bind_eq_some_iff.mp heval
  obtain ⟨t, ht, heval⟩ := Option.bind_eq_some_iff.mp heval
  obtain ⟨result, hresult, htree⟩ := Option.bind_eq_some_iff.mp heval
  rw [toOption_eq_some_iff] at hg ht htree
  rw [htree] at hresult
  exact ⟨g, t, tree, hg, ht, hresult, Table.derivation_of_parse hg ht hresult⟩

end LR
end TableParser
