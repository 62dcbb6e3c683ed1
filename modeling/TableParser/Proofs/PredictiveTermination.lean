import TableParser.Proofs.Predictive
import TableParser.Proofs.PredictiveCompleteness

/-!
# LL(1) parsers without conflicts come to an end

An expansion is made for a reason. Either the lookahead begins what is derived, and then the driver gets to the
lookahead by the derivation that says so (`LL.Parser.drives_of_begins`); or all of it vanishes, and then the stack gets
shorter (`LL.Parser.drives_of_vanish`). So every token is consumed, skipped or refused after finitely many moves, be the
input a sentence or not (`LL.Parser.exists_result`).

* **Faults** (`LL.Parser.fault_cases_of_parse`): only the source and the end marker on a right-hand side let a parse
  fault.
-/

namespace TableParser

/-- All of a string vanishes if the string does. -/
theorem Generates.vanish_of_append {P : Productions} {α β : List Symbol} {s : Symbol}
    (h : Generates P (α ++ s :: β) []) : Generates P β [] := by
  rw [List.append_cons] at h
  exact (Generates.append_nil_iff.mp h).2

namespace LL
namespace Parser

open PredictiveTable (Drives)

section Termination

variable {σ ε : Type} [TokenSource σ ε] {g : Grammar} {p : Parser} {lhs s t : Symbol} {a : Alternative}
  {α w : List Symbol} {tokens : List Token} {token : Token}

/-! ## Expansions with a reason -/

/-- What follows a left-hand side follows all symbols of an alternative that vanishes. -/
theorem Exact.follow_of_vanish (hx : p.Exact g) (hp : p.grammar.Produces lhs a)
    (ha : Generates p.grammar.Produces a.symbols []) (ht : t ∈ SymbolSets.members p.follow lhs) :
    ∀ s ∈ a.symbols, s.isNonterminal = true → t ∈ SymbolSets.members p.follow s := by
  intro s hs hnt
  obtain ⟨β, γ, hsplit⟩ := List.append_of_mem hs
  rw [hsplit] at ha
  exact hx.closed_follow.mem_of_vanish hx.closed_first hp hsplit hnt ha.vanish_of_append ht

section Expansion

variable (hx : p.Exact g) (hnil : p.conflicts = []) (ht : p.terminals.find? token = some t)
include hx hnil ht

/-- **What vanishes leaves the stack** on a lookahead that can follow, by induction on the derivation. -/
theorem drives_of_vanish (h : Generates p.grammar.Produces α w) (hw : w = []) (tree : Tree Symbol)
    {stack : List (Symbol × Nat)} (rest : List (Symbol × Nat)) (source : σ) (hstack : stack.map Prod.fst = α)
    (hfollow : ∀ s ∈ α, s.isNonterminal = true → t ∈ SymbolSets.members p.follow s) :
    ∃ tree', Drives p.table ⟨tree, stack ++ rest, token, source⟩ [] [] ⟨tree', rest, token, source⟩ := by
  induction h generalizing tree stack rest with
  | nil =>
    rw [List.map_eq_nil_iff.mp hstack]
    exact ⟨tree, .refl _⟩
  | epsilon _ ih =>
    obtain ⟨⟨_, node⟩, stack, rfl, rfl, hbelow⟩ := List.map_eq_cons_iff.mp hstack
    obtain ⟨tree', hd⟩ := ih hw tree rest hbelow fun s hs => hfollow s (List.mem_cons_of_mem _ hs)
    exact ⟨tree', .epsilon rfl rfl rfl hd⟩
  | terminal _ _ _ _ => cases hw
  | @nonterminal lhs a α u v hl hp ha hα ih₁ ih₂ =>
    obtain ⟨⟨lhs, node⟩, stack, rfl, rfl, hbelow⟩ := List.map_eq_cons_iff.mp hstack
    obtain ⟨rfl, rfl⟩ := List.append_eq_nil_iff.mp hw
    have hlhs := hfollow lhs List.mem_cons_self hl
    obtain ⟨tree₁, stack₁, hstack₁, hd₁⟩ := drives_of_predicted hx hnil ht hl hp
      (mem_predictSet.mpr (.inr ⟨hx.closed_first.epsilon_mem ha, hlhs⟩)) tree node (stack ++ rest) source
    obtain ⟨tree₂, hd₂⟩ := ih₁ rfl tree₁ (stack ++ rest) hstack₁ (hx.follow_of_vanish hp ha hlhs)
    obtain ⟨tree₃, hd₃⟩ := ih₂ rfl tree₂ rest hbelow fun s hs => hfollow s (List.mem_cons_of_mem _ hs)
    exact ⟨tree₃, (hd₁.trans hd₂).trans hd₃⟩

/-- **What begins with the lookahead brings it to the top of the stack**, by induction on the derivation. -/
theorem drives_of_begins (h : Begins p.grammar.Produces α t) (tree : Tree Symbol) {stack : List (Symbol × Nat)}
    (rest : List (Symbol × Nat)) (source : σ) (hstack : stack.map Prod.fst = α)
    (hfollow : ∀ β s γ, α = β ++ s :: γ → s.isNonterminal = true → Begins p.grammar.Produces γ t →
      t ∈ SymbolSets.members p.follow s) :
    ∃ tree' node above, Drives p.table ⟨tree, stack ++ rest, token, source⟩ [] []
      ⟨tree', (t, node) :: (above ++ rest), token, source⟩ := by
  induction h generalizing tree stack rest with
  | terminal _ _ =>
    obtain ⟨⟨_, node⟩, stack, rfl, rfl, _⟩ := List.map_eq_cons_iff.mp hstack
    exact ⟨tree, node, stack, .refl _⟩
  | @vanish s t α hs h ih =>
    obtain ⟨⟨s, node⟩, stack, rfl, rfl, hbelow⟩ := List.map_eq_cons_iff.mp hstack
    have hs' : ∀ u ∈ [s], u.isNonterminal = true → t ∈ SymbolSets.members p.follow u := by
      intro u hu hnt
      rw [List.mem_singleton.mp hu] at hnt ⊢
      exact hfollow [] s α rfl hnt h
    have htop : [(s, node)].map Prod.fst = [s] := rfl
    obtain ⟨tree₁, hd₁⟩ := drives_of_vanish hx hnil ht hs rfl tree (stack ++ rest) source htop hs'
    obtain ⟨tree₂, node₂, above, hd₂⟩ := ih ht tree₁ rest hbelow fun β u γ hα =>
      hfollow (s :: β) u γ (by rw [hα, List.cons_append])
    exact ⟨tree₂, node₂, above, hd₁.trans hd₂⟩
  | @expand lhs t a α hl hp h ih =>
    obtain ⟨⟨lhs, node⟩, stack, rfl, rfl, _⟩ := List.map_eq_cons_iff.mp hstack
    obtain ⟨tree₁, stack₁, hstack₁, hd₁⟩ := drives_of_predicted hx hnil ht hl hp
      (mem_predictSet.mpr (.inl ⟨hx.closed_first.mem_of_begins h, h.isTerminal.2⟩)) tree node (stack ++ rest) source
    obtain ⟨tree₂, node₂, above, hd₂⟩ := ih ht tree₁ (stack ++ rest) hstack₁ fun β s γ ha hs hb =>
      hx.closed_follow.mem_of_begins hx.closed_first hp ha hs hb
    refine ⟨tree₂, node₂, above ++ stack, hd₁.trans ?_⟩
    rw [List.append_assoc]
    exact hd₂

/-- **Expansions have a reason**: what they derive vanishes, or begins with the lookahead. -/
theorem drives_of_expansion (hl : lhs.isNonterminal = true) (hp : p.grammar.Produces lhs a)
    (hpredicted : t ∈ predictSet p.first p.follow lhs a.symbols) (tree : Tree Symbol) (node : Nat)
    (rest : List (Symbol × Nat)) (source : σ) :
    (∃ tree', Drives p.table ⟨tree, (lhs, node) :: rest, token, source⟩ [] [] ⟨tree', rest, token, source⟩) ∨
      t ≠ Symbol.epsilon ∧ ∃ tree' node' above, Drives p.table ⟨tree, (lhs, node) :: rest, token, source⟩ [] []
        ⟨tree', (t, node') :: above, token, source⟩ := by
  have hlhs := hx.rewrites.wellFormed.nonterminal_lhs
  obtain ⟨tree₁, stack, hstack, hd⟩ := drives_of_predicted hx hnil ht hl hp hpredicted tree node rest source
  rcases mem_predictSet.mp hpredicted with ⟨hhead, hne⟩ | ⟨hvanish, hfollow⟩
  · rw [hx.first_eq] at hhead
    have hbegins := (FirstSets.mem_iff_begins hlhs hne).mp hhead
    obtain ⟨tree₂, node', above, hd'⟩ := drives_of_begins hx hnil ht hbegins tree₁ rest source hstack
      fun β s γ ha hs hb => hx.closed_follow.mem_of_begins hx.closed_first hp ha hs hb
    exact .inr ⟨hne, tree₂, node', _, hd.trans hd'⟩
  · rw [hx.first_eq] at hvanish
    have hgen := (FirstSets.epsilon_mem_iff hlhs).mp hvanish
    obtain ⟨tree₂, hd'⟩ := drives_of_vanish hx hnil ht hgen rfl tree₁ rest source hstack
      (hx.follow_of_vanish hp hgen hfollow)
    exact .inl ⟨tree₂, hd.trans hd'⟩

end Expansion

/-! ## Answers -/

/-- What a table entry says about the grammar. -/
theorem Exact.of_predict (hx : p.Exact g) {id : AlternativeId} {rhs : List Symbol}
    (h : p.predict lhs t = .ok (some (id, rhs))) :
    ∃ a, p.grammar.Produces lhs a ∧ a.symbols = rhs ∧ t ∈ predictSet p.first p.follow lhs a.symbols := by
  unfold predict at h
  split at h
  · cases h
  · rename_i id' hget
    obtain ⟨r, a, htarget, rfl, ht⟩ := hx.entry _ _ _ hget
    rw [Grammar.target_eq_ok.mpr htarget] at h
    cases h
    exact ⟨a, (Grammar.produces_of_target? htarget).2, rfl, ht⟩

/-- The parser comes to an end in a configuration. -/
abbrev EndsIn (p : Parser) (tree : Tree Symbol) (stack : List (Symbol × Nat)) (token : Token) (source : σ) : Prop :=
  Ends (p.table.step (ε := ε)) ⟨tree, stack, token, source⟩

section Steps

variable {source : σ} {tree : Tree Symbol} {node : Nat} {rest stack : List (Symbol × Nat)}
  (hahead : Ahead (some token) source tokens)
  (hpass : token.isEndOfFile = false → ∀ tree' stack' next behind, TokenSource.next source = (.ok next, behind) →
    p.EndsIn tree' stack' next behind)
include hahead hpass

/-- A token of no use is skipped, or ends the parse. -/
theorem ends_of_refuse
    (h : p.table.step ⟨tree, stack, token, source⟩ = PredictiveTable.refuse ⟨tree, stack, token, source⟩) :
    p.EndsIn tree stack token source := by
  by_cases hk : token.kind = .newline
  · rw [PredictiveTable.refuse_of_newline hk] at h
    obtain ⟨next, behind, hnext, _⟩ := hahead.advance
    unfold PredictiveTable.advance at h
    rw [hnext] at h
    exact (reaches_of_step h).ends (hpass (Token.isEndOfFile_of_newline hk) tree stack next behind hnext)
  · rw [PredictiveTable.refuse_of_not_newline hk] at h
    exact ends_of_step h

/-- A terminal on top of the stack leaves it, or the token is of no use. -/
theorem ends_of_terminal (hs : s.isTerminal = true) (hpop : p.EndsIn tree rest token source)
    (hconsume : ∀ next behind, TokenSource.next source = (.ok next, behind) →
      p.EndsIn (tree.setToken node token) rest next behind) : p.EndsIn tree ((s, node) :: rest) token source := by
  cases ha : s.accepts token with
  | error f => exact ends_of_step (PredictiveTable.step_fault hs ha)
  | ok accepted =>
    cases accepted with
    | false => exact ends_of_refuse hahead hpass (PredictiveTable.step_of_rejects (.inl ⟨hs, ha⟩))
    | true =>
      cases he : s == Symbol.epsilon with
      | true => exact (Drives.epsilon hs ha he (.refl _)).reaches.ends hpop
      | false =>
        obtain ⟨next, behind, hnext, _⟩ := hahead.advance
        exact (Drives.consume hs ha he hnext (.refl _)).reaches.ends (hconsume next behind hnext)

/-- A nonterminal on top of the stack vanishes or lets the token pass, or the token is of no use. -/
theorem ends_of_nonterminal (hx : p.Exact g) (hnil : p.conflicts = []) (hl : lhs.isNonterminal = true)
    (hpop : ∀ tree', p.EndsIn tree' rest token source) : p.EndsIn tree ((lhs, node) :: rest) token source := by
  have hnt := Symbol.isTerminal_eq_false_iff.mpr hl
  cases ht : p.terminals.find? token with
  | none => exact ends_of_step (PredictiveTable.step_invalidToken hnt ht)
  | some t =>
    cases hp : p.predict lhs t with
    | error f => exact ends_of_step (PredictiveTable.step_predict_fault hnt ht hp)
    | ok prediction =>
      cases prediction with
      | none => exact ends_of_refuse hahead hpass (PredictiveTable.step_of_rejects (.inr ⟨hnt, t, ht, hp⟩))
      | some prediction =>
        obtain ⟨id, rhs⟩ := prediction
        obtain ⟨a, hprod, rfl, hpredicted⟩ := hx.of_predict hp
        rcases drives_of_expansion hx hnil ht hl hprod hpredicted tree node rest source with
          ⟨tree', hd⟩ | ⟨hne, tree', node', above, hd⟩
        · exact hd.reaches.ends (hpop tree')
        · have hterminal : t.isTerminal = true := (TerminalMap.isTerminal_of_find? (hx.terminals_eq ▸ ht)).1
          refine hd.reaches.ends ?_
          cases he : token.isEndOfFile with
          | true =>
            -- the end marker itself was brought to the top of the stack
            rw [TerminalMap.find?_of_isEndOfFile he] at ht
            cases ht
            exact ends_of_step (PredictiveTable.step_fault hterminal (Symbol.accepts_endMarker token))
          | false =>
            have haccepts : t.accepts token = .ok true := by
              rw [hx.terminals_eq] at ht
              exact TerminalMap.accepts_of_find? ht he
            obtain ⟨next, behind, hnext, _⟩ := hahead.advance
            exact (Drives.consume hterminal haccepts (beq_eq_false_iff_ne.mpr hne) hnext (.refl _)).reaches.ends
              (hpass he _ _ next behind hnext)

end Steps

/-- **Every run of a parser without conflicts comes to an end**, by induction on the tokens to come and the stack. -/
theorem endsIn_of_ahead (hx : p.Exact g) (hnil : p.conflicts = []) {source : σ} (tree : Tree Symbol)
    (stack : List (Symbol × Nat)) (hahead : Ahead (some token) source tokens) : p.EndsIn tree stack token source := by
  induction hn : tokens.length using Nat.strong_induction_on generalizing tokens token source tree stack with
  | _ n ihn =>
  induction hm : stack.length using Nat.strong_induction_on generalizing tokens token source tree stack with
  | _ m ihm =>
  have hnext : ∀ next behind, TokenSource.next source = (.ok next, behind) → Ahead (some next) behind tokens.tail := by
    intro next behind hn
    obtain ⟨next', behind', hn', hahead'⟩ := hahead.advance
    rw [hn] at hn'
    cases hn'
    exact hahead'
  have hpass : token.isEndOfFile = false → ∀ tree' stack' next behind, TokenSource.next source = (.ok next, behind) →
      p.EndsIn tree' stack' next behind := fun he tree' stack' next behind h =>
    ihn _ (hn ▸ hahead.tail_lt he) tree' stack' (hnext next behind h) rfl
  cases stack with
  | nil =>
    exact ends_of_step PredictiveTable.step_nil
  | cons top rest =>
    obtain ⟨s, node⟩ := top
    have hlt : rest.length < m := hm ▸ Nat.lt_succ_self _
    have hpop : ∀ tree', p.EndsIn tree' rest token source := fun tree' => ihm _ hlt tree' rest hahead hn rfl
    cases hs : s.isTerminal with
    | true =>
      refine ends_of_terminal hahead hpass hs (hpop tree) fun next behind h => ?_
      -- at the end of the input only the stack gets shorter
      rcases Nat.lt_or_ge tokens.tail.length n with hless | hge
      · exact ihn _ hless _ _ (hnext next behind h) rfl
      · have hle : tokens.tail.length ≤ n := by
          rw [← hn, List.length_tail]
          exact Nat.sub_le _ _
        exact ihm _ hlt _ _ (hnext next behind h) (Nat.le_antisymm hle hge) rfl
    | false =>
      have hnt := Symbol.isTerminal_eq_false_iff.mp hs
      exact ends_of_nonterminal hahead hpass hx hnil hnt hpop

/-- **Every parse of a parser without conflicts comes to an end.** -/
theorem exists_result {order : Registry} {source : σ} (hg : g.WellFormed) (h : (Parser.build order g).result = .ok p)
    (hnil : p.conflicts = []) (hsource : Supplies source tokens) : ∃ fuel r, p.parse fuel source = some r := by
  have hx := exact_of_build hg h
  obtain ⟨r, _, hstart⟩ := hx.rewrites.wellFormed.exists_start
  obtain ⟨token, behind, hnext, hahead⟩ := hsource.next
  obtain ⟨result, fuel, hfuel⟩ := endsIn_of_ahead hx hnil (PredictiveTable.startTree r.lhs) [(r.lhs, 0)] hahead
  exact ⟨fuel, result, (PredictiveTable.parse_eq hstart hnext fuel).trans hfuel⟩

/-! ## Faults -/

/-- The table names alternatives of the grammar only, and what the grammar starts with is no terminal. -/
structure Grounded (p : Parser) : Prop where
  hasAlternative : ∀ s t id, p.entries.get? s t = some id → p.grammar.hasAlternative id = true
  start_nonterminal : ∀ start, p.grammar.start = .ok start → start.isNonterminal = true

theorem Exact.grounded (hx : p.Exact g) : p.Grounded where
  hasAlternative lhs t id h := by
    obtain ⟨r, a, htarget, _⟩ := hx.entry lhs t id h
    exact Option.isSome_iff_exists.mpr ⟨_, htarget⟩
  start_nonterminal _ h := hx.rewrites.wellFormed.start_nonterminal h

/-- The terminals on the stack are terminals of the grammar. -/
def Supported (p : Parser) (stack : List (Symbol × Nat)) : Prop :=
  ∀ x ∈ stack, x.1.isTerminal = true → x.1 ∈ p.grammar.terminals

namespace Grounded

/-- The table has an answer for every lookahead. -/
theorem exists_predict (hp : p.Grounded) (s lookahead : Symbol) : ∃ predicted, p.predict s lookahead = .ok predicted := by
  unfold predict
  cases hget : p.entries.get? s lookahead with
  | none => exact ⟨none, rfl⟩
  | some id =>
    obtain ⟨target, htarget⟩ := Option.isSome_iff_exists.mp (hp.hasAlternative s lookahead id hget)
    dsimp only
    rw [Grammar.target_eq_ok.mpr htarget]
    exact ⟨_, rfl⟩

/-- The start symbol is no terminal. -/
theorem supported_root (hp : p.Grounded) {start : Symbol} (hstart : p.grammar.start = .ok start) :
    p.Supported [(start, 0)] := by
  intro x hmem ht
  have hnt := hp.start_nonterminal start hstart
  rw [List.mem_singleton.mp hmem] at ht
  exact absurd ht (Symbol.not_isTerminal hnt)

end Grounded

/-- The terminals of a right-hand side are terminals of the grammar, as those below it are. -/
theorem Supported.expand {top lookahead : Symbol} {id : AlternativeId} {rhs : List Symbol} {rest : List (Symbol × Nat)}
    (hrest : p.Supported rest) (hp : p.predict top lookahead = .ok (some (id, rhs))) (ids : List Nat) :
    p.Supported (rhs.zip ids ++ rest) := by
  intro x hmem ht
  rcases List.mem_append.mp hmem with hmem | hmem
  · unfold predict at hp
    split at hp
    · cases hp
    · obtain ⟨⟨r, a⟩, htarget, heq⟩ := map_eq_ok_iff.mp hp
      cases heq
      have hproduces := (Grammar.produces_of_target? (Grammar.target_eq_ok.mp htarget)).2
      exact Grammar.mem_terminals.mpr ⟨ht, r.lhs, a, hproduces, (List.of_mem_zip hmem).1⟩
  · exact hrest x hmem ht

/-- Moves keep the stack supported. -/
theorem Supported.drives {c c' : PredictiveState Symbol σ} {done : List Token} {kept : List (Symbol × Token)}
    (hc : p.Supported c.stack) (h : Drives p.table c done kept c') : p.Supported c'.stack := by
  induction h with
  | refl _ => exact hc
  | epsilon _ _ _ _ ih => exact ih fun x hx => hc x (List.mem_cons_of_mem _ hx)
  | consume _ _ _ _ _ ih => exact ih fun x hx => hc x (List.mem_cons_of_mem _ hx)
  | expand _ _ hp _ ih => exact ih (Supported.expand (fun x hmem => hc x (List.mem_cons_of_mem _ hmem)) hp _)
  | skip _ _ _ _ ih => exact ih hc

/-- **Parses fault for want of rules, for the end marker, or with their source**, for the end marker only if it stands on
a right-hand side of the grammar. -/
theorem Grounded.fault_cases {source : σ} {fuel : Nat} {f : Fault} (hp : p.Grounded)
    (hparse : p.parse fuel source = some (.error (.fault f))) :
    f = .emptyGrammar ∧ p.grammar.rules = [] ∨ f = .matchEndMarker ∧ Symbol.endMarker ∈ p.grammar.terminals ∨
      ∃ done last behind, Pulls source done last ∧ TokenSource.next last = (.error (.fault f), behind) := by
  cases hstart : p.grammar.start with
  | error f' =>
    have hrules : p.grammar.rules = [] ∧ f' = .emptyGrammar := by
      unfold Grammar.start at hstart
      split at hstart
      · rename_i hrules
        cases hstart
        exact ⟨hrules, rfl⟩
      · cases hstart
    unfold parse PredictiveTable.parse table at hparse
    simp only [hstart, Option.some.injEq, Except.error.injEq, Failure.fault.injEq] at hparse
    exact .inl ⟨hparse.symm.trans hrules.2, hrules.1⟩
  | ok start =>
    right
    cases hnext : TokenSource.next source with
    | mk result behind =>
      cases result with
      | error failure =>
        unfold parse PredictiveTable.parse table at hparse
        simp only [hstart, hnext, Option.some.injEq, Except.error.injEq] at hparse
        obtain rfl := Failure.eq_fault_of_map hparse
        exact .inr ⟨[], source, behind, .nil source, hnext⟩
      | ok token =>
        have hrun : p.parse fuel source = _ := PredictiveTable.parse_eq hstart hnext fuel
        obtain ⟨c, hreach, hstep⟩ := answers_iff.mp ⟨fuel, hrun.symm.trans hparse⟩
        obtain ⟨_, _, hd⟩ := PredictiveTable.exists_drives hreach
        have hterminals := (hp.supported_root hstart).drives hd
        rcases PredictiveTable.fault_cases hstep with ⟨top, node, rest, hstack, ht, ha⟩ | ⟨top, lookahead, hpredict⟩ |
          ⟨behind', hn⟩
        · have htop : top ∈ p.grammar.terminals := hterminals (top, node) (hstack ▸ List.mem_cons_self) ht
          obtain ⟨rfl, rfl⟩ := Symbol.eq_endMarker_of_accepts ht ha
          exact .inl ⟨rfl, htop⟩
        · obtain ⟨predicted, hpredicted⟩ := hp.exists_predict top lookahead
          cases hpredict.symm.trans hpredicted
        · obtain ⟨pulled, _, hpulls⟩ := hd.pulls
          exact .inr ⟨token :: pulled, c.source, behind', .cons hnext hpulls, hn⟩

/-- **Parses of built parsers fault for the end marker or with their source**, for the end marker only if it stands on a
right-hand side of the grammar. -/
theorem fault_cases_of_parse {order : Registry} {source : σ} {fuel : Nat} {f : Fault} (hg : g.WellFormed)
    (h : (Parser.build order g).result = .ok p) (hparse : p.parse fuel source = some (.error (.fault f))) :
    f = .matchEndMarker ∧ Symbol.endMarker ∈ g.terminals ∨
      ∃ done last behind, Pulls source done last ∧ TokenSource.next last = (.error (.fault f), behind) := by
  have hx := exact_of_build hg h
  rcases hx.grounded.fault_cases hparse with ⟨_, hrules⟩ | ⟨rfl, hmarker⟩ | hsource
  · obtain ⟨r, hr, _⟩ := hx.rewrites.wellFormed.exists_start
    rw [hrules] at hr
    cases hr
  · exact .inl ⟨rfl, (hx.rewrites.terminals_iff _ (by decide)).mp hmarker⟩
  · exact .inr hsource

/-- So they fault for the end marker only if the source does not fail. -/
theorem fault_of_parse {order : Registry} {source : σ} {fuel : Nat} {f : Fault} (hg : g.WellFormed)
    (h : (Parser.build order g).result = .ok p) (hsource : Supplies source tokens)
    (hparse : p.parse fuel source = some (.error (.fault f))) :
    f = .matchEndMarker ∧ Symbol.endMarker ∈ g.terminals := by
  rcases fault_cases_of_parse hg h hparse with hmarker | ⟨done, last, behind, hpulls, hn⟩
  · exact hmarker
  · obtain ⟨token, behind', hn'⟩ := hsource.next_of_pulls hpulls
    rw [hn] at hn'
    cases hn'

end Termination
end Parser
end LL
end TableParser
