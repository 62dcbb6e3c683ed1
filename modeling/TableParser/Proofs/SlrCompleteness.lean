import TableParser.Proofs.SlrSoundness

/-!
# SLR parsers without conflicts are complete

Without conflicts the driver builds every derivation tree from its tokens (`LR.Table.parse_of_derivation`), by
induction on the tree: in a state with an item whose dot stands before the symbol of the tree, the driver reads the
leaves and ends in the state behind the symbol (`LR.TreeRuns`). So no two derivation trees of the start symbol have the
same leaves (`LR.Table.unique_derivation`).
-/

namespace TableParser

/-! ## Tokens to come -/

section Ahead

variable {St S R σ ε : Type} [TokenSource σ ε] {table : ActionTable St S R} {m : Machine St S} {source : σ}
  {token : Token} {tokens : List Token} {w : List S}

theorem Ahead.exists_peeks (h : Ahead m.peeked source tokens) :
    ∃ token behind, m.Peeks source token behind ∧ Ahead (some token) behind tokens := by
  cases hp : m.peeked with
  | some token =>
    rw [hp] at h
    exact ⟨token, source, .inl ⟨hp, rfl⟩, h⟩
  | none =>
    rw [hp] at h
    obtain ⟨token, behind, hn, hahead⟩ := Supplies.next h
    exact ⟨token, behind, .inr ⟨hp, hn⟩, hahead⟩

theorem Ahead.of_peeks {behind : σ} (h : Ahead m.peeked source tokens) (hp : m.Peeks source token behind) :
    Ahead (some token) behind tokens := by
  rcases hp with ⟨hp, rfl⟩ | ⟨hp, hn⟩
  · rwa [hp] at h
  · rw [hp] at h
    obtain ⟨first, last, hn', hahead⟩ := Supplies.next h
    rw [hn] at hn'
    cases hn'
    exact hahead

/-- The table is asked for the first of the terminals to come. -/
theorem Ahead.looks (h : Ahead (some token) source tokens) (hno : ∀ u ∈ tokens, u.isEndOfFile = false)
    (hmap : tokens.map table.terminal = w.map some) : table.Looks token w.head? := by
  rcases h with ⟨rest, rfl, _⟩ | ⟨rfl, he, _⟩
  · cases w with
    | nil => cases hmap
    | cons s w => exact .inr ⟨hno token List.mem_cons_self, s, (List.cons.inj hmap).1, rfl⟩
  · cases w with
    | nil => exact .inl ⟨he, rfl⟩
    | cons s w => cases hmap

end Ahead

namespace LR

open Automaton (Has Exact)

section Completeness

variable {σ ε : Type} [TokenSource σ ε] {g : Grammar} {start accept : Symbol} {follow : FollowSets}
  {sets : List ItemSet} {a : Automaton} {t : Table} {q r : StateId} {states : List StateId}
  {items : List (StackItem Symbol)} {ds : List (Derivation Symbol)} {d : Derivation Symbol}
  {tokens done : List Token} {w : List Symbol} {i : Item} {rule : Rule} {b : Alternative} {lhs : Symbol}
  {c : ParseConfig StateId Symbol σ} {driver : ActionTable StateId Symbol AlternativeId}

/-- The parse is about to look at the next of the tokens to come, with these stacks and the derivations for them. -/
structure At (states : List StateId) (items : List (StackItem Symbol)) (tokens : List Token)
    (ds : List (Derivation Symbol)) (done : List Token) (c : ParseConfig StateId Symbol σ) : Prop where
  mode_eq : c.1.1.mode = .reading
  states_eq : c.1.1.states = states
  items_eq : c.1.1.items = items
  ahead : Ahead c.1.1.peeked c.1.2 tokens
  realizes : c.2.Realizes items.reverse ds done

/-- A driver that does what the table says, whichever terminals it takes the tokens for. -/
structure Drives (driver : ActionTable StateId Symbol AlternativeId) (t : Table) : Prop where
  initial_eq : driver.initial = .start
  action_eq : driver.action = t.action
  isTerminal : ∀ token s, driver.terminal token = some s → s.isTerminal = true

/-- A driver is asked for a terminal, or for the end marker at the end of the input. -/
theorem Drives.isTerminal_of_looks (h : Drives driver t) {token : Token} {lookahead : Option Symbol}
    (hl : driver.Looks token lookahead) : (lookahead.getD Symbol.endMarker).isTerminal = true := by
  rcases hl with ⟨_, rfl⟩ | ⟨_, s, hs, rfl⟩
  · rfl
  · exact h.isTerminal token s hs

/-! ## Single moves -/

/-- A candidate for the slot of the lookahead is what the table does. -/
theorem At.exists_action (h : At (q :: states) items tokens ds done c) (hw : Spells driver.terminal tokens w)
    (hdr : Drives driver t) {act : TableAction}
    (hget : t.actions.get? q (FollowSets.lookahead w) = some act) :
    ∃ token behind, c.1.1.Peeks c.1.2 token behind ∧ Ahead (some token) behind tokens ∧ driver.Looks token w.head? ∧
      driver.action q w.head? = match act with
        | .shift target => .ok (.shift target)
        | .reduce id => (t.grammar.target id).map fun (r, a) => .reduce id r.lhs a.arity
        | .accept => .ok .accept := by
  obtain ⟨token, behind, hp, hahead⟩ := h.ahead.exists_peeks
  have hlooks : driver.Looks token w.head? := hahead.looks hw.not_eof hw.map_eq
  refine ⟨token, behind, hp, hahead, hlooks, ?_⟩
  have haction := Table.action_terminal (t := t) (q := q) (hdr.isTerminal_of_looks hlooks)
  unfold FollowSets.lookahead at hget
  rw [hget] at haction
  rw [hdr.action_eq]
  cases act <;> exact haction

/-- **A shift** along an edge. -/
theorem At.shift {s : Symbol} {token : Token} (h : At (q :: states) items (token :: tokens) ds done c)
    (hw : Spells driver.terminal (token :: tokens) (s :: w)) (hdr : Drives driver t)
    (ht : Table.Exact g start accept follow sets a t) (hnil : t.conflicts = []) (hs : s.isTerminal = true)
    (hedge : a.edges.get? q s = some r) : ∃ c', Reaches driver.parseStep c c' ∧
      At (r :: q :: states) (.terminal s token :: items) tokens (ds ++ [.leaf s]) (done ++ [token]) c' := by
  have hget := ht.candidate hnil q s _ (.shift hedge hs)
  obtain ⟨token', behind, hp, hahead, hlooks, haction⟩ := h.exists_action hw hdr hget
  obtain ⟨⟨m, source⟩, b⟩ := c
  obtain ⟨hmode, hstates, hitems, _, hreal⟩ := h
  obtain ⟨rfl, hrest⟩ := hahead.next
  refine ⟨_, reaches_of_step (ActionTable.parseStep_shift hmode hstates hp hlooks haction), hmode, ?_, ?_, hrest, ?_⟩
  · exact congrArg (r :: ·) hstates
  · exact congrArg (_ :: ·) hitems
  · rw [List.reverse_cons]
    exact hreal.shift s token

/-- **A reduction** and the state behind it. -/
theorem At.reduce {args : List (StackItem Symbol)} {cs : List (Derivation Symbol)} {path : List StateId} {p : StateId}
    (h : At (p :: path) (args ++ items) tokens (ds ++ cs) done c) (hw : Spells driver.terminal tokens w)
    (hdr : Drives driver t) (ht : Table.Exact g start accept follow sets a t) (hnil : t.conflicts = [])
    (hi : Has sets p i) (htarget : t.grammar.target? i.alternative = some (rule, b)) (hc : i.isCompleteIn b = true)
    (hp : g.Produces rule.lhs b) (hlen : args.length = b.arity) (hlen' : cs.length = b.arity)
    (hstates : (p :: path).drop b.arity = q :: states) (hle : b.arity ≤ (p :: path).length)
    (hfollow : FollowSets.lookahead w ∈ SymbolSets.members follow rule.lhs)
    (hedge : a.edges.get? q rule.lhs = some r) :
    ∃ c', Reaches driver.parseStep c c' ∧
      At (r :: q :: states) (.nonterminal rule.lhs :: items) tokens (ds ++ [.node rule.lhs cs]) done c' := by
  have hne : FollowSets.lookahead w ≠ Symbol.epsilon := by
    intro heq
    rw [heq] at hfollow
    exact FollowSets.epsilon_not_mem ht.follow_eq _ hfollow
  have hget := ht.candidate hnil p _ _ (.reduce hi htarget hc (ht.augmented.ne_accept hp) hfollow hne)
  obtain ⟨token, behind, hpeeks, hahead, hlooks, haction⟩ := h.exists_action hw hdr hget
  dsimp only at haction
  rw [Grammar.target_eq_ok.mpr htarget] at haction
  have haction' : driver.action p w.head? = .ok (.reduce i.alternative rule.lhs b.arity) := haction
  have hnt : rule.lhs.isNonterminal = true :=
    ht.augmented.nonterminal_lhs rule (Grammar.produces_of_target? htarget).1
  obtain ⟨⟨m, source⟩, build⟩ := c
  obtain ⟨hmode, hpath, hitems, _, hreal⟩ := h
  dsimp only at hmode hpath hitems hreal hpeeks
  have htake : m.items.take b.arity = args := by
    rw [hitems, ← hlen, List.take_left]
  have hdrop : m.items.drop b.arity = items := by
    rw [hitems, ← hlen, List.drop_left]
  rw [List.reverse_append] at hreal
  obtain ⟨build', hbuild, hreal'⟩ := hreal.reduce (by rw [hlen', List.length_reverse, hlen]) rule.lhs
  have hstep := ActionTable.parseStep_reduce (b := build) hmode hpath hpeeks hlooks haction'
    (by rw [hpath]; exact hle) (by rw [hitems, List.length_append, hlen]; omega) (by rw [htake]; exact hbuild)
  rw [hdrop, hpath, hstates] at hstep
  have hgoto : driver.action q (some rule.lhs) = .ok (.shift r) := hdr.action_eq ▸ ht.action_of_edge hnt hedge
  refine ⟨_, (reaches_of_step hstep).tail (ActionTable.parseStep_goto rfl rfl rfl hgoto), rfl, rfl, rfl, hahead, ?_⟩
  rw [List.reverse_cons]
  exact hreal'

/-! ## Trees and forests -/

theorem Table.Exact.closed_follow (ht : Table.Exact g start accept follow sets a t) :
    FollowSets.Closed (FirstSets.ofGrammar t.grammar) follow t.grammar.Produces :=
  FollowSets.closed_ofGrammar (FirstSets.members_ofGrammar_subset _) ht.follow_eq

/-- Trees for the symbols of a string spell what it generates in the augmented grammar. -/
theorem Table.Exact.generates_forest (ht : Table.Exact g start accept follow sets a t)
    (hvalid : ∀ d ∈ ds, d.Valid g.Produces) :
    Generates t.grammar.Produces (ds.map Derivation.symbol) (Derivation.yieldAll ds) :=
  (generates_of_forest fun d hd => (hvalid d hd).generates ht.augmented.wellFormed.epsilonAlone).mono fun _ _ hp =>
    ht.augmented.produces_iff.mpr (.inr hp)

/-- **The run of a tree**: in a state with an item before the symbol of the tree, the driver reads the leaves and goes
along the edge, whatever comes behind. -/
def TreeRuns (σ : Type) {ε : Type} [TokenSource σ ε] (follow : FollowSets) (sets : List ItemSet) (a : Automaton)
    (t : Table) (driver : ActionTable StateId Symbol AlternativeId) (d : Derivation Symbol) : Prop :=
  ∀ {q r : StateId} {states : List StateId} {items : List (StackItem Symbol)} {ds : List (Derivation Symbol)}
    {tokens tokens' done : List Token} {w : List Symbol} {i : Item} {rule : Rule} {b : Alternative}
    {c : ParseConfig StateId Symbol σ},
    Has sets q i → t.grammar.target? i.alternative = some (rule, b) → i.nextIn b = some d.symbol →
    a.edges.get? q d.symbol = some r →
    (d.symbol.isNonterminal = true → FollowSets.lookahead w ∈ SymbolSets.members follow d.symbol) →
    Spells driver.terminal tokens d.yield → Spells driver.terminal tokens' w → At (q :: states) items (tokens ++ tokens') ds done c →
    ∃ item c', Reaches driver.parseStep c c' ∧
      At (r :: q :: states) (item :: items) tokens' (ds ++ [d]) (done ++ tokens) c'

/-- **The run of a forest**: the trees for what is behind the dot of an item. -/
theorem runs_forest (ht : Table.Exact g start accept follow sets a t) {cs : List (Derivation Symbol)}
    (hruns : ∀ d ∈ cs, TreeRuns σ follow sets a t driver d) (hvalid : ∀ d ∈ cs, d.Valid g.Produces)
    {tokens' : List Token} (hi : Has sets q i) (htarget : t.grammar.target? i.alternative = some (rule, b))
    (hb : b.isEpsilon = false) (hdrop : b.symbols.drop i.dot.toNat = cs.map Derivation.symbol)
    (hfollow : FollowSets.lookahead w ∈ SymbolSets.members follow rule.lhs)
    (hs : Spells driver.terminal tokens (Derivation.yieldAll cs)) (hs' : Spells driver.terminal tokens' w)
    (hat : At (q :: states) items (tokens ++ tokens') ds done c) :
    ∃ p path args j c', Has sets p j ∧ j.alternative = i.alternative ∧ j.dot.toNat = i.dot.toNat + cs.length ∧
      args.length = cs.length ∧ (p :: path).drop cs.length = q :: states ∧ Reaches driver.parseStep c c' ∧
      At (p :: path) (args ++ items) tokens' (ds ++ cs) (done ++ tokens) c' := by
  induction cs generalizing q i states items tokens ds done c with
  | nil =>
    have htokens : tokens = [] := List.map_eq_nil_iff.mp hs.map_eq
    subst htokens
    refine ⟨q, states, [], i, c, hi, rfl, rfl, rfl, rfl, .refl, ?_⟩
    rw [List.append_nil, List.append_nil]
    exact hat
  | cons d cs ih =>
    obtain ⟨first, rest, rfl, hfirst, hrest⟩ := hs.of_append
    have hnext : i.nextIn b = some d.symbol := by
      unfold Item.nextIn
      rw [← List.head?_drop, hdrop]
      rfl
    have hsplit : b.symbols = b.symbols.take i.dot.toNat ++ d.symbol :: cs.map Derivation.symbol := by
      conv_lhs => rw [← List.take_append_drop i.dot.toNat b.symbols, hdrop, List.map_cons]
    have hcs := ht.generates_forest fun e he => hvalid e (List.mem_cons_of_mem d he)
    obtain ⟨r, j, hedge, hj, hadv⟩ := hi.advance ht.automaton htarget hb hnext
    obtain ⟨halt, hdot⟩ := Item.advance_eq_ok.mp hadv
    rw [List.append_assoc] at hat
    obtain ⟨item, c₁, hreach₁, hat₁⟩ := hruns d List.mem_cons_self hi htarget hnext hedge
      (fun hnt => ht.closed_follow.lookahead_mem (FirstSets.closed_ofGrammar _)
        (Grammar.produces_of_target? htarget).2 hsplit hnt hcs hfollow) hfirst (hrest.append hs') hat
    obtain ⟨p, path, args, k, c', hk, hka, hkd, hlen, hpath, hreach, hat'⟩ := ih
      (fun e he => hruns e (List.mem_cons_of_mem d he)) (fun e he => hvalid e (List.mem_cons_of_mem d he)) hj
      (halt ▸ htarget) (by rw [hdot, ← List.drop_drop, hdrop]; rfl) hrest hat₁
    refine ⟨p, path, args ++ [item], k, c', hk, hka.trans halt, ?_, ?_, ?_, hreach₁.trans hreach, ?_⟩
    · rw [hkd, hdot, List.length_cons]
      omega
    · rw [List.length_append, hlen]
      rfl
    · rw [List.length_cons, ← List.drop_drop, hpath]
      rfl
    · rw [List.append_assoc, List.append_assoc] at hat'
      rw [List.append_assoc]
      exact hat'

/-- **Every derivation tree runs**, by induction on the tree. -/
theorem runs_tree (hdr : Drives driver t) (ht : Table.Exact g start accept follow sets a t) (hnil : t.conflicts = [])
    (hd : d.Valid g.Produces) : TreeRuns σ follow sets a t driver d := by
  induction hd with
  | @terminal s hs _ =>
    intro q r states items ds tokens tokens' done w i rule b c _ _ _ hedge _ hspell hspell' hat
    obtain ⟨token, htokens, _⟩ := List.map_eq_singleton_iff.mp hspell.map_eq
    subst htokens
    obtain ⟨c', hreach, hat'⟩ := At.shift hat (hspell.append hspell') hdr ht hnil hs hedge
    exact ⟨_, c', hreach, hat'⟩
  | @empty lhs al hl hp he =>
    intro q r states items ds tokens tokens' done w i rule b c hi htarget hnext hedge hfollow hspell hspell' hat
    have htokens : tokens = [] := List.map_eq_nil_iff.mp hspell.map_eq
    subst htokens
    obtain ⟨j, rule', hj, hjt, rfl, _⟩ := hi.predict ht.automaton htarget hnext hl
      (ht.augmented.produces_iff.mpr (.inr hp))
    have harity := Alternative.arity_of_isEpsilon he
    have hcomplete := j.isCompleteIn_of_isEpsilon he
    have hat₀ : At (q :: states) ([] ++ items) tokens' (ds ++ []) done c := by
      rw [List.append_nil]
      exact hat
    obtain ⟨c', hreach, hat'⟩ := At.reduce hat₀ hspell' hdr ht hnil hj hjt hcomplete hp
      harity.symm harity.symm (by rw [harity]; rfl) (by rw [harity]; exact Nat.zero_le _) (hfollow hl) hedge
    rw [List.append_nil]
    exact ⟨_, c', hreach, hat'⟩
  | @inner lhs al cs hl hp he _ hcs hvalid ih =>
    intro q r states items ds tokens tokens' done w i rule b c hi htarget hnext hedge hfollow hspell hspell' hat
    obtain ⟨j, rule', hj, hjt, rfl, hdot⟩ := hi.predict ht.automaton htarget hnext hl
      (ht.augmented.produces_iff.mpr (.inr hp))
    have harity : al.arity = cs.length := by
      rw [Alternative.arity_of_isEpsilon_eq_false he, ← hcs, List.length_map]
    obtain ⟨p, path, args, k, c₁, hk, hka, hkd, hlen, hpath, hreach₁, hat₁⟩ := runs_forest ht ih hvalid hj hjt he
      (by rw [hdot]; exact hcs.symm) (hfollow hl) hspell hspell' hat
    have hcomplete : k.isCompleteIn al = true := by
      rw [Item.isCompleteIn_iff he, hkd, hdot, ← hcs, List.length_map, Nat.zero_add]
    have hle : al.arity ≤ (p :: path).length := by
      have hlength := congrArg List.length hpath
      simp only [List.length_drop, List.length_cons] at hlength ⊢
      omega
    obtain ⟨c', hreach, hat'⟩ := At.reduce hat₁ hspell' hdr ht hnil hk (hka ▸ hjt) hcomplete hp (hlen.trans harity.symm)
      harity.symm (harity ▸ hpath) hle (hfollow hl) hedge
    exact ⟨_, c', hreach₁.trans hreach, hat'⟩

/-- **The run of a whole parse**: the driver reads the leaves of a derivation tree of the start symbol and accepts. -/
theorem answers_of_derivation (hdr : Drives driver t) (ht : Table.Exact g start accept follow sets a t)
    (hnil : t.conflicts = []) (hd : d.Valid g.Produces) (hstart : d.symbol = start)
    (hs : Spells driver.terminal tokens d.yield) {source : σ} (hsource : Supplies source tokens) :
    ∃ tree, Answers driver.parseStep ((.start .start, source), .empty) (.ok tree) ∧ tree.Shows d tokens := by
  subst hstart
  have hnt := ht.augmented.start_nonterminal
  have hp : t.grammar.Produces accept ⟨[d.symbol], none⟩ := ht.augmented.produces_iff.mpr (.inl ⟨rfl, rfl⟩)
  obtain ⟨j, rule, hj, hjt, hlhs, hdot⟩ := Automaton.has_start (p := ⟨t.grammar, none⟩) ht.automaton
    ht.augmented.start_eq_accept hp
  have hnext : j.nextIn ⟨[d.symbol], none⟩ = some d.symbol := by
    unfold Item.nextIn
    rw [hdot]
    rfl
  have hb : Alternative.isEpsilon ⟨[d.symbol], none⟩ = false :=
    Alternative.isEpsilon_cons (Symbol.ne_epsilon_of_isNonterminal hnt) [] none
  obtain ⟨r, k, hedge, hk, hadv⟩ := hj.advance ht.automaton hjt hb hnext
  obtain ⟨hka, hkd⟩ := Item.advance_eq_ok.mp hadv
  have hfollow : FollowSets.lookahead [] ∈ SymbolSets.members follow d.symbol :=
    ht.closed_follow.lookahead_mem (α := []) (v := []) (FirstSets.closed_ofGrammar _) hp rfl hnt .nil
      (FollowSets.endMarker_mem ht.follow_eq ht.augmented.start_eq_accept)
  have hnone := Spells.nil driver.terminal
  have hat : At [.start] [] (tokens ++ []) [] [] ((.start .start, source), .empty) :=
    ⟨rfl, rfl, rfl, by rw [List.append_nil]; exact hsource, .empty⟩
  obtain ⟨item, c, hreach, hat'⟩ := runs_tree hdr ht hnil hd hj hjt hnext hedge (fun _ => hfollow) hs hnone hat
  -- the end of the input
  have hcomplete : k.isCompleteIn ⟨[d.symbol], none⟩ = true := by
    rw [Item.isCompleteIn_iff hb, hkd, hdot]
    exact Nat.le_refl 1
  have hget := ht.candidate hnil r _ _ (.accept hk (hka ▸ hjt) hcomplete hlhs rfl)
  obtain ⟨token, behind, hpeeks, _, hlooks, haction⟩ := hat'.exists_action hnone hdr hget
  obtain ⟨⟨m, source'⟩, build⟩ := c
  obtain ⟨hmode, hstates, hitems, _, hreal⟩ := hat'
  dsimp only at hmode hstates hitems hreal hpeeks haction
  obtain ⟨cs, hcs⟩ := hd.exists_node hnt
  rw [List.nil_append, List.nil_append, List.reverse_singleton, hcs] at hreal
  obtain ⟨tree, hfinish, hshows⟩ := hreal.finish
  rw [← hcs] at hshows
  refine ⟨tree, hreach.answers (answers_of_step ?_), hshows⟩
  refine ActionTable.parseStep_accept hmode hstates hpeeks hlooks haction ?_ hfinish
  rw [hitems]
  exact List.cons_ne_nil item []

end Completeness

/-! ## Parses of derivation trees -/

namespace Table

variable {g : Grammar} {t : Table}

/-- The driver of the table itself. -/
theorem drives (h : t.terminals = .ofGrammar g) : Drives t.table t := by
  refine ⟨rfl, rfl, fun token s hs => ?_⟩
  have hs' : t.terminals.find? token = some s := hs
  rw [h] at hs'
  exact (TerminalMap.isTerminal_of_find? hs').1

/-- A driver that takes every token for the terminal of its text. -/
def textDriver (t : Table) : ActionTable StateId Symbol AlternativeId where
  initial := .start
  terminal token := some (.terminal token.text)
  action := t.action

/-- The token whose text is the name of the symbol. -/
def textToken (s : Symbol) : Token := ⟨.identifier, s.name, ⟨0, 0⟩⟩

theorem textDriver_drives (t : Table) : Drives t.textDriver t := by
  refine ⟨rfl, rfl, fun token s hs => ?_⟩
  cases hs
  rfl

theorem spells_textTokens {w : List Symbol} (hw : ∀ s ∈ w, s.isTerminal = true) :
    Spells t.textDriver.terminal (w.map textToken) w := by
  constructor
  · intro u hu
    obtain ⟨s, _, rfl⟩ := List.mem_map.mp hu
    rfl
  · rw [List.map_map]
    refine List.map_congr_left fun s hs => congrArg some ?_
    exact Symbol.eq_of_name rfl (hw s hs) rfl

theorem supplies_textTokens (w : List Symbol) : Supplies (TokenList.ofList (w.map textToken)) (w.map textToken) := by
  refine TokenList.supplies (fun u hu => ?_) .first
  obtain ⟨s, _, rfl⟩ := List.mem_map.mp hu
  have hsum : sum32 0 (max s.name.length 1).toUInt32 = .ok (max s.name.length 1).toUInt32 :=
    sum32_eq_ok_iff.mpr (Nat.zero_add _)
  refine ⟨⟨0, (max s.name.length 1).toUInt32⟩, ?_⟩
  unfold TokenList.after textToken
  rw [hsum]
  rfl

/-- Two derivation trees with the same leaves are built by the same run. -/
theorem unique_derivation (hg : g.WellFormed) (ht : (Table.build g).result = .ok t) (hnil : t.conflicts = [])
    {d₁ d₂ : Derivation Symbol} (h₁ : d₁.Valid g.Produces) (h₂ : d₂.Valid g.Produces)
    (hs₁ : g.start = .ok d₁.symbol) (hs₂ : g.start = .ok d₂.symbol) (hyield : d₁.yield = d₂.yield) : d₁ = d₂ := by
  obtain ⟨start, accept, follow, sets, a, hexact⟩ := exact_of_build hg ht
  have hspells : Spells t.textDriver.terminal (d₁.yield.map textToken) d₁.yield :=
    spells_textTokens fun s hs => ((h₁.generates hg.epsilonAlone).terminals s hs).1
  obtain ⟨tree₁, hrun₁, hshows₁⟩ := answers_of_derivation t.textDriver_drives hexact hnil h₁
    (hexact.augmented.eq_start hs₁) hspells (supplies_textTokens d₁.yield)
  obtain ⟨tree₂, hrun₂, hshows₂⟩ := answers_of_derivation t.textDriver_drives hexact hnil h₂
    (hexact.augmented.eq_start hs₂) (hyield ▸ hspells) (supplies_textTokens d₁.yield)
  cases hrun₁.unique hrun₂
  exact (hshows₁.unique hshows₂).1

/-- The driver of the table builds the derivation tree that its tokens spell. -/
theorem exists_parse {σ ε : Type} [TokenSource σ ε] (hg : g.WellFormed) (ht : (Table.build g).result = .ok t)
    (hnil : t.conflicts = []) {d : Derivation Symbol} {source : σ} {tokens : List Token} (hd : d.Valid g.Produces)
    (hs : g.start = .ok d.symbol) (hsource : Supplies source tokens) (hno : ∀ u ∈ tokens, u.isEndOfFile = false)
    (hmap : tokens.map (TerminalMap.ofGrammar g).find? = d.yield.map some) :
    ∃ fuel tree, t.parse fuel source = some (.ok tree) ∧ tree.Shows d tokens := by
  obtain ⟨start, accept, follow, sets, a, hexact⟩ := exact_of_build hg ht
  rw [← hexact.terminals_eq] at hmap
  obtain ⟨tree, ⟨fuel, hfuel⟩, hshows⟩ := answers_of_derivation (drives hexact.terminals_eq) hexact hnil hd
    (hexact.augmented.eq_start hs) ⟨hno, hmap⟩ hsource
  exact ⟨fuel, tree, hfuel, hshows⟩

/-- **Tables without conflicts parse every derivation tree** of the start symbol, so every sentence, and no two trees
have the same leaves. -/
theorem parse_of_derivation {σ ε : Type} [TokenSource σ ε] {steps : List DefinitionStep}
    (hg : (Grammar.define steps).result = .ok g) (ht : (Table.build g).result = .ok t) (hnil : t.conflicts = []) :
    (∀ (d : Derivation Symbol) (source : σ) (tokens : List Token), d.Valid g.Produces → g.start = .ok d.symbol →
      Supplies source tokens → (∀ u ∈ tokens, u.isEndOfFile = false) →
      tokens.map (TerminalMap.ofGrammar g).find? = d.yield.map some →
      ∃ fuel tree, t.parse fuel source = some (.ok tree) ∧ tree.Shows d tokens) ∧
    (∀ (start : Symbol) (w : List Symbol) (source : σ) (tokens : List Token), g.start = .ok start →
      Generates g.Produces [start] w → Supplies source tokens → (∀ u ∈ tokens, u.isEndOfFile = false) →
      tokens.map (TerminalMap.ofGrammar g).find? = w.map some →
      ∃ fuel tree, t.parse fuel source = some (.ok tree) ∧ tree.leaves = tokens) ∧
    ∀ d₁ d₂ : Derivation Symbol, d₁.Valid g.Produces → d₂.Valid g.Produces → g.start = .ok d₁.symbol →
      g.start = .ok d₂.symbol → d₁.yield = d₂.yield → d₁ = d₂ := by
  have hwell := wellFormed_of_define hg
  refine ⟨?_, ?_, ?_⟩
  · intro d source tokens hd hs hsource hno hmap
    exact exists_parse hwell ht hnil hd hs hsource hno hmap
  · intro start w source tokens hs hw hsource hno hmap
    obtain ⟨d, hd, rfl, rfl⟩ := exists_derivation hwell.epsilonAlone hwell.symbols_ne_nil (hwell.start_nonterminal hs)
      hw
    obtain ⟨fuel, tree, hfuel, hshows⟩ := exists_parse hwell ht hnil hd hs hsource hno hmap
    exact ⟨fuel, tree, hfuel, hshows.leaves_eq⟩
  · intro d₁ d₂ h₁ h₂ hs₁ hs₂ hyield
    exact unique_derivation hwell ht hnil h₁ h₂ hs₁ hs₂ hyield

end Table

section Letters

open TableParser.Symbol

/-- The rules of the lists that may be empty. -/
def letterRules : Grammar :=
  ⟨[⟨nonterminal "S", [⟨[nonterminal "A"], none⟩]⟩,
    ⟨nonterminal "A", [⟨[terminal "a", nonterminal "A"], some "cons"⟩, ⟨[epsilon], some "nil"⟩]⟩]⟩

/-- The derivation tree of a list of one letter. -/
def letterTree : Derivation Symbol :=
  .node (nonterminal "S") [.node (nonterminal "A") [.leaf (terminal "a"), .node (nonterminal "A") []]]

theorem letterTree_valid : letterTree.Valid letterRules.Produces := by
  have hnil : (Derivation.node (nonterminal "A") []).Valid letterRules.Produces :=
    .empty (a := ⟨[epsilon], some "nil"⟩) rfl ⟨_, .tail _ (.head _), rfl, .tail _ (.head _)⟩ rfl
  have hletter : (Derivation.leaf (terminal "a")).Valid letterRules.Produces := .terminal rfl (by decide)
  refine .inner rfl ⟨_, .head _, rfl, .head _⟩ rfl (List.cons_ne_nil _ _) rfl fun d hd => ?_
  rw [List.mem_singleton.mp hd]
  refine .inner rfl ⟨_, .tail _ (.head _), rfl, .head _⟩ rfl (List.cons_ne_nil _ _) rfl fun e he => ?_
  rcases List.mem_cons.mp he with rfl | he
  · exact hletter
  · rw [List.mem_singleton.mp he]
    exact hnil

set_option maxRecDepth 10000 in
/-- A letter is parsed as the list of one letter, which no other tree derives. -/
theorem Table.parse_of_derivation_letter : ∃ t, (Grammar.define Sample.emptyableList.steps).result = .ok letterRules ∧
    (Table.build letterRules).result = .ok t ∧ t.conflicts = [] ∧
    (∃ fuel tree, t.parse fuel (TokenList.ofList (letters.take 1)) = some (.ok tree) ∧
      tree.Shows letterTree (letters.take 1)) ∧
    ∀ d : Derivation Symbol, d.Valid letterRules.Produces → letterRules.start = .ok d.symbol →
      d.yield = [terminal "a"] → d = letterTree := by
  have hg : (Grammar.define Sample.emptyableList.steps).result = .ok letterRules := by rfl
  have heval : ((Table.build letterRules).result.toOption.any fun t => t.conflicts.isEmpty) = true := by rfl
  obtain ⟨t, ht, hempty⟩ := exists_ok_of_any heval
  have hnil : t.conflicts = [] := List.isEmpty_iff.mp hempty
  obtain ⟨hparse, _, hunique⟩ := Table.parse_of_derivation (σ := TokenList) hg ht hnil
  refine ⟨t, hg, ht, hnil, ?_, ?_⟩
  · refine hparse letterTree _ _ letterTree_valid rfl (TokenList.supplies ?_ _) (by decide) (by decide)
    intro u hu
    rw [List.mem_singleton.mp hu]
    exact ⟨_, rfl⟩
  · intro d hd hs hyield
    exact hunique d letterTree hd letterTree_valid hs rfl hyield

end Letters
end LR
end TableParser
