import Mathlib.Data.Finset.Lattice.Fold
import Mathlib.Data.Finset.Prod
import Mathlib.Data.List.Sublists
import TableParser.Proofs.Context
import TableParser.Proofs.SlrCompleteness

/-!
# SLR parsers without conflicts come to an end

A parse that goes on without reading a token builds larger and larger trees. It cannot do so for good if every
nonterminal on a way down from the start symbol derives a terminal string (`LR.Table.exists_result`):

* **Stacks are bounded by the tokens read** (`LR.length_le_of_walk`). A walk without leaves that leads back to its state
  could be taken over and over (`LR.not_answers_of_loop`), also in the middle of a sentence, which is accepted
  (`LR.not_walk_back`).
* **Trees on the stack are bounded by their leaves** (`LR.exists_size_le`), as no other tree for their symbol has these.

Whether they come to an end or not, parses of built tables fault with their source only (`LR.Table.fault_of_parse`).
-/

namespace TableParser

namespace LR

open Automaton (Has Exact)

section Loops

variable {σ ε : Type} [TokenSource σ ε] {g : Grammar} {start accept : Symbol} {follow : FollowSets}
  {sets : List ItemSet} {a : Automaton} {t : Table} {q r : StateId} {states : List StateId} {γ δ : List Symbol}
  {items : List (StackItem Symbol)} {ds cs es : List (Derivation Symbol)} {d : Derivation Symbol}
  {tokens tokens' done : List Token} {s : Symbol} {w : List Symbol} {c : ParseConfig StateId Symbol σ}
  {driver : ActionTable StateId Symbol AlternativeId}

theorem Path.walk_eq {edges : Edges} {symbols : List Symbol} (h : Path edges (q :: states) symbols) :
    walk edges symbols.reverse = some q := by
  generalize hqs : q :: states = path at h
  induction h generalizing q states with
  | start =>
    cases hqs
    rfl
  | step _ he ih =>
    cases hqs
    rw [List.reverse_cons]
    exact walk_snoc.mpr ⟨_, ih rfl, he⟩

/-- **The run along a walk**: the driver reads the leaves of trees for the symbols. -/
theorem runs_along (hdr : Drives driver t) (ht : Table.Exact g start accept follow sets a t) (hnil : t.conflicts = [])
    (hw : (es.map Derivation.symbol).foldlM a.edges.get? q = some r) (hvalid : ∀ d ∈ es, d.Valid g.Produces)
    (hfollow : FollowSets.Followed t.grammar.Produces follow (es.map Derivation.symbol) w)
    (hs : Spells driver.terminal tokens (Derivation.yieldAll es)) (hs' : Spells driver.terminal tokens' w)
    (hat : At (q :: states) items (tokens ++ tokens') ds done c) :
    ∃ states' items' c', Reaches driver.parseStep c c' ∧
      At (r :: states') items' tokens' (ds ++ es) (done ++ tokens) c' ∧ states'.length = states.length + es.length := by
  induction es generalizing q states items tokens ds done c with
  | nil =>
    have htokens : tokens = [] := List.map_eq_nil_iff.mp hs.map_eq
    subst htokens
    cases hw
    refine ⟨states, items, c, .refl, ?_, rfl⟩
    rw [List.append_nil, List.append_nil]
    exact hat
  | cons d es ih =>
    obtain ⟨first, rest, rfl, hfirst, hrest⟩ := hs.of_append
    obtain ⟨p, hedge, hwalk⟩ := foldlM_get?_cons.mp hw
    obtain ⟨i, rule, b, hi, htarget, _, hnext⟩ := Has.exists_of_edge ht.automaton rfl hedge
    have hes := ht.generates_forest fun e he => hvalid e (List.mem_cons_of_mem d he)
    rw [List.append_assoc] at hat
    obtain ⟨item, c₁, hreach₁, hat₁⟩ := runs_tree hdr ht hnil (hvalid d List.mem_cons_self) hi htarget hnext hedge
      (fun hnt => hfollow.head hnt hes) hfirst (hrest.append hs') hat
    obtain ⟨states', items', c', hreach, hat', hlen⟩ := ih hwalk (fun e he => hvalid e (List.mem_cons_of_mem d he))
      hfollow.tail hrest hat₁
    refine ⟨states', items', c', hreach₁.trans hreach, ?_, ?_⟩
    · rwa [List.append_assoc, List.append_assoc] at hat'
    · rw [hlen, List.length_cons, List.length_cons]
      omega

/-- An item is valid for every string that can be followed. -/
theorem exists_validFor (ht : Table.Exact g start accept follow sets a t) (hw : walk a.edges γ = some q) :
    ∃ i : Item, i.ValidFor t.grammar accept γ := by
  have hstart := ht.augmented.start_eq_accept
  obtain ⟨i, hi⟩ : ∃ i, Has sets q i := by
    rcases List.eq_nil_or_concat' γ with rfl | ⟨before, s, rfl⟩
    · cases hw
      obtain ⟨i, _, hi, _⟩ := Automaton.has_start ht.automaton hstart (ht.augmented.produces_iff.mpr (.inl ⟨rfl, rfl⟩))
      exact ⟨i, hi⟩
    · obtain ⟨p, _, hedge⟩ := walk_snoc.mp hw
      obtain ⟨i, rule, b, hi, htarget, he, hnext⟩ := Has.exists_of_edge ht.automaton rfl hedge
      obtain ⟨p', j, hedge', hj, _⟩ := hi.advance ht.automaton htarget he hnext
      rw [hedge] at hedge'
      cases hedge'
      exact ⟨j, hj⟩
  exact ⟨i, Automaton.validFor_of_has ht.automaton hstart hw hi⟩

/-- The driver never comes to an end where a walk without leaves leads back to its state. -/
theorem not_answers_of_loop (hdr : Drives driver t) (ht : Table.Exact g start accept follow sets a t)
    (hnil : t.conflicts = []) (hloop : (es.map Derivation.symbol).foldlM a.edges.get? q = some q) (hne : es ≠ [])
    (hvalid : ∀ d ∈ es, d.Valid g.Produces) (hempty : Derivation.yieldAll es = [])
    (hfollow : FollowSets.Followed t.grammar.Produces follow (es.map Derivation.symbol) w)
    (hs : Spells driver.terminal tokens w) (hat : At (q :: states) items tokens ds done c)
    (result : Except (Failure (ParseError ε)) (Tree Symbol)) : ¬Answers driver.parseStep c result := by
  refine not_answers_of_returns (I := fun c => ∃ states items ds done, At (q :: states) items tokens ds done c) ?_
    ⟨states, items, ds, done, hat⟩ result
  rintro c ⟨states, items, ds, done, hat⟩
  have hnone : Spells driver.terminal [] (Derivation.yieldAll es) := hempty ▸ .nil driver.terminal
  obtain ⟨states', items', c', hreach, hat', hlen⟩ := runs_along hdr ht hnil hloop hvalid hfollow hnone hs hat
  refine ⟨c', hreach, ?_, states', items', _, _, hat'⟩
  rintro rfl
  have hstates := (List.cons.inj (hat.states_eq.symm.trans hat'.states_eq)).2
  rw [hstates] at hlen
  exact hne (List.length_eq_zero_iff.mp (by omega))

/-- **No walk without leaves leads back to its state**: the driver would take it over and over, whatever comes. -/
theorem not_walk_back (ht : Table.Exact g start accept follow sets a t) (hnil : t.conflicts = [])
    (hprod : Productive g.Produces start) (hvalid : ∀ d ∈ cs ++ es, d.Valid g.Produces) (hne : es ≠ [])
    (hempty : Derivation.yieldAll es = []) (hq : walk a.edges (cs.map Derivation.symbol) = some q) :
    walk a.edges ((cs ++ es).map Derivation.symbol) ≠ some q := by
  intro hback
  have hwell := ht.augmented.wellFormed
  have hvalid₁ : ∀ d ∈ cs, d.Valid g.Produces := fun d hd => hvalid d (List.mem_append_left es hd)
  have hvalid₂ : ∀ d ∈ es, d.Valid g.Produces := fun d hd => hvalid d (List.mem_append_right cs hd)
  -- a sentence that goes on behind the walk
  obtain ⟨i, hi⟩ := exists_validFor ht hback
  obtain ⟨z, hz⟩ := exists_completion ht.closed_follow (FirstSets.closed_ofGrammar _) ht.augmented.nonterminal
    (FollowSets.endMarker_mem ht.follow_eq ht.augmented.start_eq_accept) (ht.augmented.productive hprod) hi
  have hsentence := ht.augmented.generates_start_iff.mp (hz.sentence _ (ht.generates_forest hvalid))
  rw [Derivation.yieldAll_append, hempty, List.append_nil] at hsentence
  rw [List.map_append] at hback hz
  obtain ⟨d, hd, hsymbol, hyield⟩ := exists_derivation hwell.epsilonAlone hwell.symbols_ne_nil
    ht.augmented.start_nonterminal hsentence
  have hfollow := hz.followed.before (hempty ▸ ht.generates_forest hvalid₂)
  -- the driver accepts it, and comes to the state on the way
  have hterminal := fun s hs => (hsentence.terminals s hs).1
  have hspell := Table.spells_textTokens (t := t) fun s hs => hterminal s (List.mem_append_left z hs)
  have hspell' := Table.spells_textTokens (t := t) fun s hs =>
    hterminal s (List.mem_append_right (Derivation.yieldAll cs) hs)
  have hsource : Supplies _ _ := Table.supplies_textTokens (Derivation.yieldAll cs ++ z)
  rw [List.map_append] at hsource
  obtain ⟨tree, ⟨fuel, hfuel⟩, _⟩ := answers_of_derivation t.textDriver_drives ht hnil hd hsymbol
    (hyield ▸ hspell.append hspell') hsource
  have hat : At [.start] [] _ [] [] ((.start .start, _), .empty) := ⟨rfl, rfl, rfl, hsource, .empty⟩
  obtain ⟨states, items, c, hreach, hat', _⟩ := runs_along t.textDriver_drives ht hnil hq hvalid₁ hfollow hspell
    hspell' hat
  -- where it stays
  obtain ⟨left, _, hleft⟩ := hreach.exists_run hfuel
  obtain ⟨p, hp, hloop⟩ := walk_append.mp hback
  rw [hq] at hp
  cases hp
  exact not_answers_of_loop t.textDriver_drives ht hnil hloop hne hvalid₂ hempty hz.followed.behind
    hspell' hat' _ ⟨left, hleft⟩

end Loops

/-! ## Bounds -/

section Bounds

variable {σ ε : Type} [TokenSource σ ε] {g : Grammar} {start accept : Symbol} {follow : FollowSets}
  {sets : List ItemSet} {a : Automaton} {t : Table} {q : StateId} {γ : List Symbol} {ds : List (Derivation Symbol)}
  {d : Derivation Symbol}

/-- The states that can be reached are listed. -/
theorem lt_length_of_walk (ht : Table.Exact g start accept follow sets a t) (hw : walk a.edges γ = some q) :
    q.number.toNat < sets.length := by
  obtain ⟨_, hset⟩ := ht.automaton.exists_set_of_walk hw
  exact (List.getElem?_eq_some_iff.mp hset).1

/-- **Walks are not much longer than their leaves**: between two leaves no state comes twice. -/
theorem length_le_of_walk (ht : Table.Exact g start accept follow sets a t) (hnil : t.conflicts = [])
    (hprod : Productive g.Produces start) (hvalid : ∀ d ∈ ds, d.Valid g.Produces)
    (hw : walk a.edges (ds.map Derivation.symbol) = some q) :
    ds.length < sets.length * ((Derivation.yieldAll ds).length + 1) := by
  have hwalk : ∀ k, ∃ p, walk a.edges ((ds.take k).map Derivation.symbol) = some p := by
    intro k
    rw [← List.take_append_drop k ds, List.map_append] at hw
    obtain ⟨p, hp, _⟩ := walk_append.mp hw
    exact ⟨p, hp⟩
  choose state hstate using hwalk
  -- the state and the number of leaves after so many symbols
  have hmark : ∀ i j, i < j → j ≤ ds.length → state i = state j →
      (Derivation.yieldAll (ds.take i)).length ≠ (Derivation.yieldAll (ds.take j)).length := by
    intro i j hij hj hsame hlen
    have htake : ds.take j = ds.take i ++ (ds.take j).drop i := by
      conv_lhs => rw [← List.take_append_drop i (ds.take j), List.take_take, Nat.min_eq_left hij.le]
    rw [htake, Derivation.yieldAll_append, List.length_append] at hlen
    have hempty : Derivation.yieldAll ((ds.take j).drop i) = [] := List.length_eq_zero_iff.mp (by omega)
    have hne : (ds.take j).drop i ≠ [] := by
      intro hnil
      have := congrArg List.length hnil
      simp only [List.length_drop, List.length_take, List.length_nil] at this
      omega
    refine not_walk_back ht hnil hprod (fun d hd => ?_) hne hempty (hstate i) ?_
    · rw [← htake] at hd
      exact hvalid d (List.mem_of_mem_take hd)
    · rw [← htake, hstate j, hsame]
  have hcard := Finset.card_le_card_of_injOn (s := Finset.range (ds.length + 1))
    (t := Finset.range sets.length ×ˢ Finset.range ((Derivation.yieldAll ds).length + 1))
    (fun k => ((state k).number.toNat, (Derivation.yieldAll (ds.take k)).length)) ?_ ?_
  · rw [Finset.card_product, Finset.card_range, Finset.card_range, Finset.card_range] at hcard
    exact hcard
  · intro k _
    refine Finset.mem_coe.mpr (Finset.mem_product.mpr ⟨?_, ?_⟩)
    · exact Finset.mem_range.mpr (lt_length_of_walk ht (hstate k))
    · refine Finset.mem_range.mpr (Nat.lt_succ_of_le ?_)
      conv_rhs => rw [← List.take_append_drop k ds, Derivation.yieldAll_append, List.length_append]
      exact Nat.le_add_right _ _
  · intro i hi j hj heq
    have hi' := Nat.le_of_lt_succ (Finset.mem_range.mp (Finset.mem_coe.mp hi))
    have hj' := Nat.le_of_lt_succ (Finset.mem_range.mp (Finset.mem_coe.mp hj))
    obtain ⟨hnumber, hlen⟩ := Prod.mk.inj heq
    rcases Nat.lt_trichotomy i j with hij | hij | hij
    · exact absurd hlen (hmark i j hij hj' (StateId.toNat_inj hnumber))
    · exact hij
    · exact absurd hlen.symm (hmark j i hij hi' (StateId.toNat_inj hnumber.symm))

/-- The nonterminals along a walk are on the way down. -/
theorem exists_leads_of_walk (ht : Table.Exact g start accept follow sets a t)
    (hw : walk a.edges (ds.map Derivation.symbol) = some q) (hd : d ∈ ds) (hs : d.symbol.isNonterminal = true) :
    ∃ γ, Leads g.Produces start γ d.symbol := by
  obtain ⟨before, behind, rfl⟩ := List.append_of_mem hd
  rw [List.map_append, List.map_cons] at hw
  obtain ⟨p, hp, hrest⟩ := walk_append.mp hw
  obtain ⟨r, hedge, _⟩ := foldlM_get?_cons.mp hrest
  obtain ⟨i, rule, b, hi, htarget, _, hnext⟩ := Has.exists_of_edge ht.automaton rfl hedge
  obtain ⟨δ, rule', b', hlead, htarget', _, _, heq⟩ :=
    Automaton.validFor_of_has ht.automaton ht.augmented.start_eq_accept hp hi
  have hsame : (rule', b') = (rule, b) := Option.some.inj (htarget'.symm.trans htarget)
  cases hsame
  have hdown := hlead.down (Grammar.produces_of_target? htarget).2 (split_at_next hnext) hs
  refine ⟨_, (ht.augmented.leads hdown).resolve_left ?_⟩
  rintro ⟨_, haccept⟩
  exact ht.augmented.accept_not_mem_rhsSymbols (haccept ▸ Automaton.mem_rhsSymbols_of_nextIn htarget hnext)

/-- **The trees of the nonterminals along walks are not larger than their leaves allow**: only one has given leaves. -/
theorem exists_size_le (hg : g.WellFormed) (ht : (Table.build g).result = .ok t) (hnil : t.conflicts = [])
    (hstart : g.start = .ok start) (hprod : Productive g.Produces start) (w : List Symbol) : ∃ n,
      ∀ γ (d : Derivation Symbol), Leads g.Produces start γ d.symbol → d.Valid g.Produces → d.yield.Sublist w → d.size ≤ n := by
  have hunique : ∀ (γ : List Symbol) (d₁ d₂ : Derivation Symbol), Leads g.Produces start γ d₁.symbol →
      d₁.Valid g.Produces → d₂.Valid g.Produces → d₂.symbol = d₁.symbol → d₁.yield = d₂.yield → d₁ = d₂ := by
    intro γ d₁ d₂ hlead h₁ h₂ hs hyield
    refine hlead.unique_derivation hg.epsilonAlone hg.symbols_ne_nil (hg.start_nonterminal hstart) hprod ?_ h₁ h₂ rfl hs
      hyield
    rintro e₁ e₂ he₁ he₂ rfl hs₂ hyield
    exact Table.unique_derivation hg ht hnil he₁ he₂ hstart (hs₂ ▸ hstart) hyield
  have hbound : ∀ k : Symbol × List Symbol, ∃ n, ∀ γ (d : Derivation Symbol), Leads g.Produces start γ d.symbol →
      d.Valid g.Produces → d.symbol = k.1 → d.yield = k.2 → d.size ≤ n := by
    intro k
    by_cases h : ∃ d : Derivation Symbol, d.Valid g.Produces ∧ d.symbol = k.1 ∧ d.yield = k.2
    · obtain ⟨d, hd, hs, hy⟩ := h
      refine ⟨d.size, fun γ e hlead he hs' hy' => ?_⟩
      rw [hunique γ e d hlead he hd (hs.trans hs'.symm) (hy'.trans hy.symm)]
    · exact ⟨0, fun γ e _ he hs' hy' => absurd ⟨e, he, hs', hy'⟩ h⟩
  choose bound hbound using hbound
  refine ⟨(g.nonterminals.toFinset ×ˢ w.sublists.toFinset).sup bound, fun γ d hlead hd hw => ?_⟩
  refine (hbound (d.symbol, d.yield) γ d hlead hd rfl rfl).trans (Finset.le_sup ?_)
  refine Finset.mem_product.mpr ⟨?_, ?_⟩
  · exact List.mem_toFinset.mpr (hlead.mem_nonterminals hg hstart)
  · exact List.mem_toFinset.mpr (List.mem_sublists.mpr hw)

end Bounds

/-! ## Ends -/

section Ends

variable {σ ε : Type} [TokenSource σ ε] {g : Grammar} {start accept : Symbol} {follow : FollowSets}
  {sets : List ItemSet} {a : Automaton} {t : Table} {source₀ : σ} {tokens : List Token}
  {c c' : ParseConfig StateId Symbol σ}

/-- **The trees of a sound parse do not outgrow its input.** -/
theorem exists_tree_size_le (hg : g.WellFormed) (hb : (Table.build g).result = .ok t) (hnil : t.conflicts = [])
    (ht : Table.Exact g start accept follow sets a t) (hprod : Productive g.Produces start)
    (hsource : Supplies source₀ tokens) :
    ∃ n, ∀ c : ParseConfig StateId Symbol σ, Sound g a t source₀ c → c.1.1.mode = .reading → c.2.tree.size ≤ n := by
  obtain ⟨n, hn⟩ := exists_size_le hg hb hnil ht.augmented.start_eq hprod (tokens.filterMap t.terminals.find?)
  refine ⟨sets.length * ((tokens.filterMap t.terminals.find?).length + 1) * (n + 1), fun c hc hm => ?_⟩
  obtain ⟨⟨m, source⟩, b⟩ := c
  obtain ⟨hpath, done, hpulls, hdone, ds, read, hskim, hreal, hvalid, hmap⟩ := hc
  obtain ⟨rest, rfl, _⟩ := hsource.exists_rest hpulls hdone
  -- the leaves are terminals of the input
  have hyield : (Derivation.yieldAll ds).Sublist ((done ++ rest).filterMap t.terminals.find?) := by
    have heq : read.filterMap t.terminals.find? = Derivation.yieldAll ds := by
      have := congrArg (List.filterMap id) hmap
      simpa [List.filterMap_map, Function.comp_def] using this
    rw [← heq]
    exact (hskim.sublist.trans (List.sublist_append_left done rest)).filterMap _
  obtain ⟨q, hw⟩ : ∃ q, walk a.edges (ds.map Derivation.symbol) = some q := by
    have hpath' := hpath.path hm
    rw [hreal.map_symbol, List.map_reverse]
    obtain ⟨q, states, hs⟩ := List.exists_cons_of_length_eq_add_one hpath'.length_eq
    rw [hs] at hpath'
    exact ⟨q, hpath'.walk_eq⟩
  have hsize : ∀ d ∈ ds, d.size ≤ n + 1 := by
    intro d hd
    cases hs : d.symbol.isNonterminal with
    | true =>
      obtain ⟨γ, hlead⟩ := exists_leads_of_walk ht hw hd hs
      exact Nat.le_succ_of_le (hn γ d hlead (hvalid d hd) ((Derivation.yield_sublist_yieldAll hd).trans hyield))
    | false =>
      cases hvalid d hd with
      | terminal _ _ => exact Nat.le_add_left 1 n
      | empty hl _ _ => cases hl.symm.trans hs
      | inner hl _ _ _ _ _ => cases hl.symm.trans hs
  have hlen := length_le_of_walk ht hnil hprod hvalid hw
  have hle := Nat.mul_le_mul_left sets.length (Nat.succ_le_succ hyield.length_le)
  calc b.tree.size ≤ Derivation.sizeAll ds := hreal.size_le
    _ ≤ ds.length * (n + 1) := Derivation.sizeAll_le hsize
    _ ≤ _ := Nat.mul_le_mul_right _ (hlen.le.trans hle)

/-- A token that is no end of the input is read but once. -/
theorem supplies_of_peeks {m : Machine StateId Symbol} {source behind : σ} {token : Token} {rest : List Token}
    (h : Ahead m.peeked source rest) (hp : m.Peeks source token behind) (he : token.isEndOfFile = false) :
    Supplies behind rest.tail ∧ rest.tail.length < rest.length := by
  have hahead := h.of_peeks hp
  refine ⟨?_, hahead.tail_lt he⟩
  rcases hahead with ⟨left, rfl, hleft⟩ | ⟨_, he', _⟩
  · exact hleft
  · rw [he] at he'
    cases he'

/-- After a reduction a sound parse ends, or enters the state behind the nonterminal and does nothing else. -/
theorem exists_goto (ht : Table.Exact g start accept follow sets a t) (hc : Sound g a t source₀ c)
    (hm : c.1.1.mode = .pendingGoto) : Ends t.table.parseStep c ∨
      ∃ c', t.table.parseStep c = .inl c' ∧ Sound g a t source₀ c' ∧ c'.1.1.mode = .reading ∧ c'.2 = c.2 ∧
        c'.1.1.peeked = c.1.1.peeked ∧ c'.1.2 = c.1.2 := by
  cases hstep : t.table.parseStep c with
  | inr result => exact .inl (ends_of_step hstep)
  | inl c' =>
    have hmove := ActionTable.moves_of_parseStep hstep
    have hc' := hc.move ht hmove
    refine .inr ⟨c', rfl, hc', ?_⟩
    cases hmove with
    | skip hm' _ _ => cases hm.symm.trans hm'
    | shift hm' _ _ _ _ => cases hm.symm.trans hm'
    | reduce hm' _ _ _ _ _ _ _ => cases hm.symm.trans hm'
    | goto _ _ _ _ => exact ⟨rfl, rfl, rfl, rfl⟩
    | regoto _ _ hi ha _ _ _ =>
      exact absurd (Table.isTerminal_of_action ha nofun nofun) (Symbol.not_isTerminal (hc.onPath.pending hm hi).1)

/-- **A sound parse comes to an end** if its trees are bounded: moves without a token make them larger. -/
theorem ends_of_sound (ht : Table.Exact g start accept follow sets a t) {n : Nat}
    (hn : ∀ c : ParseConfig StateId Symbol σ, Sound g a t source₀ c → c.1.1.mode = .reading → c.2.tree.size ≤ n)
    {rest : List Token} (hc : Sound g a t source₀ c) (hm : c.1.1.mode = .reading)
    (hahead : Ahead c.1.1.peeked c.1.2 rest) : Ends t.table.parseStep c := by
  induction hk : (n - c.2.tree.size) + rest.length using Nat.strong_induction_on generalizing c rest with
  | _ k ih =>
  cases hstep : t.table.parseStep c with
  | inr result => exact ends_of_step hstep
  | inl c' =>
    refine (reaches_of_step hstep).ends ?_
    have hmove := ActionTable.moves_of_parseStep hstep
    have hc' := hc.move ht hmove
    cases hmove with
    | @skip m source behind b token hm' hp hnewline =>
      have he := Token.isEndOfFile_of_newline hnewline
      obtain ⟨hsupplies, hlt⟩ := supplies_of_peeks hahead hp he
      exact ih _ (by dsimp only at hk ⊢; omega) hc' hm' hsupplies rfl
    | @shift m source behind b token q r states s hm' _ hp hl _ =>
      obtain ⟨hsupplies, hlt⟩ := supplies_of_peeks hahead hp hl.of_some.1
      exact ih _ (by dsimp only at hk ⊢; omega) hc' hm' hsupplies rfl
    | goto hm' _ _ _ => cases hm.symm.trans hm'
    | regoto hm' _ _ _ _ _ _ => cases hm.symm.trans hm'
    | reduce _ _ hp _ _ _ _ hb =>
      have hlt := TreeBuild.size_lt_of_reduce hb
      rcases exists_goto ht hc' rfl with hends | ⟨c'', hstep', hc'', hm'', hbuild, hpeeked, hsource⟩
      · exact hends
      · refine (reaches_of_step hstep').ends ?_
        have hle := hn c'' hc'' hm''
        rw [hbuild] at hle
        have hahead' : Ahead c''.1.1.peeked c''.1.2 rest := by
          rw [hpeeked, hsource]
          exact hahead.of_peeks hp
        refine ih _ ?_ hc'' hm'' hahead' rfl
        rw [hbuild]
        dsimp only at hk hlt hle ⊢
        omega

end Ends

namespace Table

variable {σ ε : Type} [TokenSource σ ε] {g : Grammar} {start accept : Symbol} {follow : FollowSets}
  {sets : List ItemSet} {a : Automaton} {t : Table} {source : σ} {tokens : List Token}

/-- **Parses of tables without conflicts come to an end** if every nonterminal on a way down derives a terminal
string. -/
theorem exists_result (hg : g.WellFormed) (hb : (Table.build g).result = .ok t) (hnil : t.conflicts = [])
    (hstart : g.start = .ok start) (hprod : Productive g.Produces start) (hsource : Supplies source tokens) :
    ∃ fuel result, t.parse fuel source = some result := by
  obtain ⟨start', accept, follow, sets, a, ht⟩ := exact_of_build hg hb
  obtain rfl := ht.augmented.eq_start hstart
  obtain ⟨n, hn⟩ := exists_tree_size_le hg hb hnil ht hprod hsource
  obtain ⟨result, fuel, hfuel⟩ := ends_of_sound ht hn (sound_start source) rfl hsource
  exact ⟨fuel, result, hfuel⟩

/-- The table names alternatives of the grammar only. -/
def Grounded (t : Table) : Prop :=
  ∀ q s id, t.actions.get? q s = some (.reduce id) → t.grammar.hasAlternative id = true

theorem Exact.grounded (ht : Table.Exact g start accept follow sets a t) : t.Grounded := by
  intro q s id hid
  cases ht.action q s _ hid with
  | reduce _ htarget _ _ _ _ => exact Option.isSome_iff_exists.mpr ⟨_, htarget⟩

/-- Such a table always knows what to do. -/
theorem Grounded.exists_action (ht : t.Grounded) (q : StateId) (lookahead : Option Symbol) :
    ∃ action, t.action q lookahead = .ok action := by
  cases hs : (lookahead.getD Symbol.endMarker).isTerminal with
  | true =>
    rw [action_terminal hs]
    split
    · exact ⟨_, rfl⟩
    · rename_i id hid
      obtain ⟨target, htarget⟩ := Option.isSome_iff_exists.mp (ht q _ id hid)
      rw [Grammar.target_eq_ok.mpr htarget]
      exact ⟨_, rfl⟩
    · exact ⟨_, rfl⟩
    · exact ⟨_, rfl⟩
  | false =>
    cases lookahead with
    | none => cases hs
    | some s =>
      have hnt : s.isNonterminal = true := Symbol.isTerminal_eq_false_iff.mp hs
      rw [action_nonterminal hnt]
      split
      · exact ⟨_, rfl⟩
      · exact ⟨_, rfl⟩

/-- **Parses of such tables fault with their source only.** -/
theorem Grounded.fault_of_parse (ht : t.Grounded) {fuel : Nat} {f : Fault}
    (hparse : t.parse fuel source = some (.error (.fault f))) :
    ∃ done last behind, Pulls source done last ∧ TokenSource.next last = (.error (.fault f), behind) := by
  obtain ⟨c, hreach, hstep⟩ := answers_iff.mp ⟨fuel, hparse⟩
  cases ActionTable.faults_of_parseStep hstep with
  | source _ hn =>
    obtain ⟨done, hpulls, _⟩ := Reaches.exists_pulled (τ := σ) hreach
    exact ⟨done, _, _, hpulls, hn⟩
  | table _ ha =>
    obtain ⟨action, hok⟩ := ht.exists_action _ _
    cases hok.symm.trans ha

/-- **Parses of built tables fault with their source only.** -/
theorem fault_of_parse (hg : g.WellFormed) (hb : (Table.build g).result = .ok t) {fuel : Nat} {f : Fault}
    (hparse : t.parse fuel source = some (.error (.fault f))) :
    ∃ done last behind, Pulls source done last ∧ TokenSource.next last = (.error (.fault f), behind) := by
  obtain ⟨start, accept, follow, sets, a, ht⟩ := exact_of_build hg hb
  exact ht.grounded.fault_of_parse hparse

/-- So they do not fault if the source does not fail. -/
theorem not_fault_of_parse (hg : g.WellFormed) (hb : (Table.build g).result = .ok t) (hsource : Supplies source tokens)
    (fuel : Nat) (f : Fault) : t.parse fuel source ≠ some (.error (.fault f)) := by
  intro hparse
  obtain ⟨done, last, behind, hpulls, hn⟩ := fault_of_parse hg hb hparse
  obtain ⟨token, behind', hn'⟩ := hsource.next_of_pulls hpulls
  rw [hn] at hn'
  cases hn'

end Table
end LR
end TableParser
