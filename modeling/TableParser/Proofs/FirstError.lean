import TableParser.Proofs.Prefixes
import TableParser.Proofs.SlrSafety

/-!
# The first impossible token

Without conflicts, what the shift/reduce driver calls unexpected is the first token that no sentential form has at its
place (`LR.Table.firstImpossible_of_parse`), although the driver may reduce on a lookahead that cannot come before it
refuses it.

* **What was read** begins a sentential form, as the path on the stack does (`LR.exists_derives_of_grows`).
* **What can come next is not refused** (`LR.not_refuses_of_precedes`): the driver reads what stands before it, and goes
  on with it. Since the tokens behind may not all be handed out, the run is repeated on a transcript that ends with the
  refused token (`LR.exists_transcript`).
* **Sentences are not refused** at their end either (`LR.not_refuses_of_sentence`).
-/

namespace TableParser

/-! ## Transcripts -/

/-- The tokens that were pulled from some source, with one that is handed out behind them over and over. -/
structure Transcript where
  tokens : List Token
  ending : Token

namespace Transcript

/-- Hand out the next token. -/
def next : Transcript → Except (Failure Empty) Token × Transcript
  | ⟨[], e⟩ => (.ok e, ⟨[], e⟩)
  | ⟨t :: tokens, e⟩ => (.ok t, ⟨tokens, e⟩)

instance : TokenSource Transcript Empty where
  next := next

variable {tokens pulled : List Token} {e e' : Token}

/-- The tokens are pulled one after the other. -/
theorem pulls (tokens rest : List Token) (e : Token) : Pulls (⟨tokens ++ rest, e⟩ : Transcript) tokens ⟨rest, e⟩ := by
  induction tokens with
  | nil => exact .nil _
  | cons t tokens ih => exact .cons rfl ih

/-- Once no token is left, the tokens were pulled, and the ending behind them. -/
theorem eq_of_pulls (h : Pulls (⟨tokens, e⟩ : Transcript) pulled ⟨[], e'⟩) :
    ∃ n, pulled = tokens ++ List.replicate n e := by
  generalize hsource : (⟨tokens, e⟩ : Transcript) = source at h
  generalize hlast : (⟨[], e'⟩ : Transcript) = last at h
  induction h generalizing tokens with
  | nil source =>
    subst hsource
    cases hlast
    exact ⟨0, rfl⟩
  | cons hn _ ih =>
    subst hsource
    cases tokens with
    | nil =>
      cases hn
      obtain ⟨n, hn⟩ := ih rfl hlast
      exact ⟨n + 1, by rw [hn, List.replicate_succ]; rfl⟩
    | cons t tokens =>
      cases hn
      obtain ⟨n, hn⟩ := ih rfl hlast
      exact ⟨n, by rw [hn, List.cons_append]⟩

/-- A transcript of ends of the input stays at the end. -/
theorem ended (htokens : ∀ u ∈ tokens, u.isEndOfFile = true) (he : e.isEndOfFile = true) :
    Ended (⟨tokens, e⟩ : Transcript) := by
  intro pulled last h
  generalize hsource : (⟨tokens, e⟩ : Transcript) = source at h
  induction h generalizing tokens with
  | nil source =>
    subst hsource
    cases tokens with
    | nil => exact ⟨e, _, rfl, he⟩
    | cons t tokens => exact ⟨t, _, rfl, htokens t List.mem_cons_self⟩
  | cons hn _ ih =>
    subst hsource
    cases tokens with
    | nil =>
      cases hn
      exact ih htokens rfl
    | cons t tokens =>
      cases hn
      exact ih (fun u hu => htokens u (List.mem_cons_of_mem _ hu)) rfl

/-- The tokens before the end of the input are supplied. -/
theorem supplies (tokens : List Token) {ends : List Token} (hends : ∀ u ∈ ends, u.isEndOfFile = true)
    (he : e.isEndOfFile = true) : Supplies (⟨tokens ++ ends, e⟩ : Transcript) tokens :=
  ⟨⟨ends, e⟩, pulls tokens ends e, ended hends he⟩

end Transcript

/-- An end of the input that is not the given token. -/
theorem Token.exists_ending_ne (t : Token) : ∃ e : Token, e.isEndOfFile = true ∧ e ≠ t := by
  by_cases h : t = .endOfFile .first
  · exact ⟨.endOfFile ⟨0, 0⟩, rfl, by rw [h]; decide⟩
  · exact ⟨.endOfFile .first, rfl, fun heq => h heq.symm⟩

/-- What is pulled up to a token is the beginning of a list, or all of it with its end behind. -/
theorem TokenList.prefix_or_end_of_pulls {input read : List Token} {token : Token} {behind : TokenList}
    (h : Pulls (ofList input) (read ++ [token]) behind) (hread : ∀ u ∈ read, u.isEndOfFile = false) :
    read ++ [token] <+: input ∨ read = input ∧ token = .endOfFile token.position := by
  rcases eq_of_pulls h with ⟨rest, heq, _⟩ | ⟨ends, heq, _, hends⟩
  · exact .inl ⟨rest, heq.symm⟩
  · have heq' : read ++ [token] = input ++ ends := heq
    rcases List.eq_nil_or_concat' ends with rfl | ⟨ends, last, rfl⟩
    · rw [List.append_nil] at heq'
      exact .inl (heq' ▸ List.prefix_rfl)
    · rw [← List.append_assoc] at heq'
      obtain ⟨hreads, hlast⟩ := List.append_inj' heq' rfl
      -- no end of the input was read before
      have hnil : ends = [] := by
        refine List.eq_nil_iff_forall_not_mem.mpr fun u hu => ?_
        obtain ⟨_, rfl⟩ := hends u (List.mem_append_left _ hu)
        cases hread _ (hreads ▸ List.mem_append_right input hu)
      rw [hnil, List.append_nil] at hreads
      obtain rfl := (List.cons.inj hlast).1
      obtain ⟨_, rfl⟩ := hends token (List.mem_append_right ends List.mem_cons_self)
      exact .inr ⟨hreads, rfl⟩

/-! ## Refusals -/

section Refusals

variable {St S R σ ε : Type} [TokenSource σ ε] {table : ActionTable St S R} {c d : ParseConfig St S σ} {token : Token}

/-- The table refuses the token at hand, which is no line break. -/
inductive ActionTable.Refuses (table : ActionTable St S R) : ParseConfig St S σ → Token → Prop
  | intro {m : Machine St S} {source behind : σ} {b : TreeBuild S} {token : Token} {q : St} {states : List St}
      {lookahead : Option S} {cause : ActionError} (hm : m.mode = .reading) (hs : m.states = q :: states)
      (hp : m.Peeks source token behind) (hl : table.Looks token lookahead)
      (ha : table.action q lookahead = .ok (.error cause)) (hn : token.kind ≠ .newline) :
      Refuses table ((m, source), b) token

theorem ActionTable.Refuses.parseStep_eq (h : table.Refuses c token) :
    table.parseStep c = .inr (.error (.error (.unexpectedToken token.render token.position))) := by
  cases h with
  | intro hm hs hp hl ha hn => exact ActionTable.parseStep_refuse hm hs hp hl ha hn

/-- Behind the end of the input nothing comes any more. -/
theorem ActionTable.Moves.ahead_nil (h : table.Moves c d) (hc : Ahead c.1.1.peeked c.1.2 []) :
    Ahead d.1.1.peeked d.1.2 [] := by
  have hended : ∀ {token : Token} {behind : σ}, c.1.1.Peeks c.1.2 token behind →
      token.isEndOfFile = true ∧ Ended behind := by
    intro token behind hp
    rcases hc.of_peeks hp with ⟨rest, hnil, _⟩ | ⟨_, he, hended⟩
    · cases hnil
    · exact ⟨he, hended⟩
  cases h with
  | skip _ hp _ => exact supplies_nil.mpr (hended hp).2
  | shift _ _ hp _ _ => exact supplies_nil.mpr (hended hp).2
  | reduce _ _ hp _ _ _ _ _ => exact .inr ⟨rfl, hended hp⟩
  | goto _ _ _ _ => exact hc
  | regoto _ _ _ _ _ _ _ => exact hc

/-- A run is on the way to where it ends, wherever it is. -/
theorem Reaches.of_answer {α β : Type} {step : α → α ⊕ β} {a b c : α} {r : β} (hb : Reaches step a b)
    (hc : Reaches step a c) (hr : step c = .inr r) : Reaches step b c := by
  have hunique : Relator.RightUnique fun x y => step x = .inl y := fun _ _ _ hy hz => Sum.inl.inj (hy.symm.trans hz)
  rcases Relation.ReflTransGen.total_of_right_unique hunique hb hc with h | h
  · exact h
  · rcases h.cases_head with rfl | ⟨next, hnext, _⟩
    · exact .refl
    · rw [hr] at hnext
      cases hnext

end Refusals

namespace LR

open Automaton (Has Exact)

section Prefixes

variable {σ ε : Type} [TokenSource σ ε] {g : Grammar} {start accept : Symbol} {follow : FollowSets}
  {sets : List ItemSet} {a : Automaton} {t : Table} {γ w rest : List Symbol} {s : Symbol} {source : σ}
  {tokens tokens' : List Token} {driver : ActionTable StateId Symbol AlternativeId}

/-- **The driver reads what stands before a terminal that comes next**, and is then in a state with an edge for it. -/
theorem exists_at_of_precedes (hdr : Drives driver t) (ht : Table.Exact g start accept follow sets a t)
    (hnil : t.conflicts = []) (h : Precedes g.Produces start γ s) (hs : s.isTerminal = true) (hne : s ≠ Symbol.epsilon)
    (hgen : Generates g.Produces γ w) (hspell : Spells driver.terminal tokens w)
    (hspell' : Spells driver.terminal tokens' (s :: rest)) (hsource : Supplies source (tokens ++ tokens')) :
    ∃ q r states items ds c, Reaches driver.parseStep ((.start .start, source), .empty) c ∧
      At (q :: states) items tokens' ds tokens c ∧ a.edges.get? q s = some r := by
  have hwell := ht.augmented.wellFormed
  cases h with
  | start =>
    have hnt := ht.augmented.start_nonterminal
    exact absurd hs (Symbol.not_isTerminal hnt)
  | @next γ α β lhs _ al hlead hp hal =>
    have hlead' := ht.augmented.leads_accept hlead
    have hp' := ht.augmented.produces_iff.mpr (.inr hp)
    have hepsilon : Symbol.epsilon ∉ γ ++ α := by
      rw [List.mem_append, not_or]
      exact ⟨hlead.epsilon_not_mem hwell.epsilonAlone, epsilon_not_mem_before hwell.epsilonAlone hp hal hne⟩
    obtain ⟨es, hmap, hyield, hvalid⟩ := exists_derivations hwell.epsilonAlone hwell.symbols_ne_nil hgen hepsilon
    -- the state before the terminal
    obtain ⟨q₀, items, hq₀, hitems, hall⟩ := Automaton.exists_state_of_leads ht.automaton ht.augmented.start_eq_accept
      ht.augmented.epsilonAlone hlead'
    have he := hwell.epsilonAlone.isEpsilon_eq_false_of_ne hp (hal ▸ List.mem_append_right α List.mem_cons_self) hne
    obtain ⟨q, j, rule, hq, hj, hjt, hnext⟩ := Automaton.exists_has_before ht.automaton hq₀ hitems hall hp' he hal
    obtain ⟨r, _, hedge, _⟩ := hj.advance ht.automaton hjt he hnext
    -- the run to it
    have hfollow : FollowSets.Followed t.grammar.Produces follow (es.map Derivation.symbol) (s :: rest) := by
      intro β s' δ v hform hs' hv
      have hprecedes : Precedes t.grammar.Produces accept (γ ++ α) s := .next hlead' hp' hal
      exact hprecedes.lookahead_mem ht.closed_follow (FirstSets.closed_ofGrammar _) ht.augmented.nonterminal hs hne
        (hmap ▸ hform) hs' hv
    have hat : At [.start] [] (tokens ++ tokens') [] [] ((.start .start, source), .empty) :=
      ⟨rfl, rfl, rfl, hsource, .empty⟩
    obtain ⟨states, stack, c, hreach, hat', _⟩ := runs_along hdr ht hnil (r := q) (by rw [hmap]; exact hq) hvalid
      hfollow (hyield ▸ hspell) hspell' hat
    exact ⟨q, r, states, stack, _, c, hreach, hat', hedge⟩

/-- **No token is refused that can come next**: the driver would have read it before. -/
theorem not_refuses_of_precedes {token : Token} {c : ParseConfig StateId Symbol σ} (hdr : Drives driver t)
    (ht : Table.Exact g start accept follow sets a t) (hnil : t.conflicts = []) (h : Precedes g.Produces start γ s)
    (hs : s.isTerminal = true) (hne : s ≠ Symbol.epsilon) (hgen : Generates g.Produces γ w)
    (hspell : Spells driver.terminal tokens w) (hspell' : Spells driver.terminal [token] [s])
    (hsource : Supplies source (tokens ++ [token]))
    (hreach : Reaches driver.parseStep ((.start .start, source), .empty) c) : ¬driver.Refuses c token := by
  intro hrefuses
  obtain ⟨q, r, states, items, ds, c₁, hreach₁, hat, hedge⟩ :=
    exists_at_of_precedes hdr ht hnil h hs hne hgen hspell hspell' hsource
  obtain ⟨c₂, hshift, hat₂⟩ := At.shift hat hspell' hdr ht hnil hs hedge
  have hreach₂ : Reaches driver.parseStep ((.start .start, source), .empty) c₂ := hreach₁.trans hshift
  have hrest := hreach₂.of_answer hreach hrefuses.parseStep_eq
  have hahead : Ahead c.1.1.peeked c.1.2 [] := hrest.invariant hat₂.ahead fun _ _ hc hstep =>
    (ActionTable.moves_of_parseStep hstep).ahead_nil hc
  cases hrefuses with
  | intro _ _ hp _ _ _ =>
    rcases hahead.of_peeks hp with ⟨_, hcons, _⟩ | ⟨_, he, _⟩
    · cases hcons
    · rw [hspell'.not_eof token List.mem_cons_self] at he
      cases he

/-- **Nothing is refused behind a sentence**, which is accepted. -/
theorem not_refuses_of_sentence {token : Token} {c : ParseConfig StateId Symbol σ} (hdr : Drives driver t)
    (ht : Table.Exact g start accept follow sets a t) (hnil : t.conflicts = []) (h : Generates g.Produces [start] w)
    (hspell : Spells driver.terminal tokens w) (hsource : Supplies source tokens)
    (hreach : Reaches driver.parseStep ((.start .start, source), .empty) c) : ¬driver.Refuses c token := by
  intro hrefuses
  have hwell := ht.augmented.wellFormed
  obtain ⟨d, hd, hsymbol, rfl⟩ := exists_derivation hwell.epsilonAlone hwell.symbols_ne_nil
    ht.augmented.start_nonterminal h
  obtain ⟨tree, hanswers, _⟩ := answers_of_derivation hdr ht hnil hd hsymbol hspell hsource
  cases hanswers.unique (hreach.answers (answers_of_step hrefuses.parseStep_eq))

/-- The symbols on a path begin a sentential form. -/
theorem Path.exists_derives {q : StateId} {states : List StateId} {symbols : List Symbol}
    (ht : Table.Exact g start accept follow sets a t) (h : Path a.edges (q :: states) symbols) :
    ∃ rest, Derives g.Produces [start] (sententialForm symbols.reverse ++ rest) := by
  obtain ⟨i, δ, rule, b, hlead, htarget, _, _, heq⟩ := exists_validFor ht h.walk_eq
  have hp := (Grammar.produces_of_target? htarget).2
  have hsplit : b.symbols = b.symbols.take i.dot.toNat ++ b.symbols.drop i.dot.toNat :=
    (List.take_append_drop _ _).symm
  have hstart := ht.augmented.start_nonterminal
  rw [heq]
  rcases ht.augmented.produces_iff.mp hp with ⟨haccept, rfl⟩ | hp
  · -- the alternative of the new start symbol
    have hδ : δ = [] := by
      rcases ht.augmented.leads hlead with ⟨hδ, _⟩ | hlead
      · exact hδ
      · have hmem := hlead.mem_nonterminals ht.augmented.wellFormed ht.augmented.start_eq
        exact absurd (haccept ▸ hmem) ht.augmented.fresh
    refine ⟨sententialForm (List.drop i.dot.toNat [start]), ?_⟩
    rw [hδ, List.nil_append, ← sententialForm_append, List.take_append_drop,
      sententialForm_cons (Symbol.ne_epsilon_of_isNonterminal hstart)]
    exact .refl
  · have hlead' := (ht.augmented.leads hlead).resolve_left fun h => ht.augmented.ne_accept hp h.2
    exact hlead'.exists_derives_along hstart hp hsplit

/-- What was read begins a sentential form. -/
theorem exists_derives_of_grows {q : StateId} {states : List StateId} {items : List (StackItem Symbol)}
    {b : TreeBuild Symbol} {find : Token → Option Symbol} (ht : Table.Exact g start accept follow sets a t)
    (hpath : Path a.edges (q :: states) (items.map StackItem.symbol)) (h : Grows g find b items tokens)
    (hn : ∀ u ∈ tokens, u.kind ≠ .newline) :
    ∃ w rest, tokens.map find = w.map some ∧ Derives g.Produces [start] (w ++ rest) := by
  obtain ⟨ds, kept, hskim, hreal, hvalid, hmap⟩ := h
  obtain rfl := hskim.eq hn
  obtain ⟨rest, hd⟩ := hpath.exists_derives ht
  have hgen := generates_of_forest fun d hd => (hvalid d hd).generates ht.augmented.wellFormed.epsilonAlone
  rw [hreal.map_symbol, List.map_reverse] at hgen
  exact ⟨_, rest, hmap, hd.trans (hgen.derives.append .refl)⟩

end Prefixes

/-! ## Refused tokens -/

section Refused

variable {σ : Type} [TokenSource σ Empty] {g : Grammar} {start accept : Symbol} {follow : FollowSets}
  {sets : List ItemSet} {a : Automaton} {t : Table} {source : σ} {token : Token}

/-- A parse comes to refuse a token when nothing but the tokens read before and this one are handed out. -/
structure RefusedBehind (g : Grammar) (a : Automaton) (t : Table) (read : List Token) (token e : Token)
    (c : ParseConfig StateId Symbol Transcript) : Prop where
  not_eof : ∀ u ∈ read, u.isEndOfFile = false
  ending : e.isEndOfFile = true
  reaches : Reaches t.table.parseStep ((.start .start, ⟨read ++ [token], e⟩), .empty) c
  refuses : t.table.Refuses c token
  onPath : OnPath a.edges c.1.1
  grows : Grows g t.terminals.find? c.2 c.1.1.items read

/-- **A refusal is the same on a transcript** of the tokens read, with the refused one behind them. -/
theorem exists_transcript {c : ParseConfig StateId Symbol σ} (ht : Table.Exact g start accept follow sets a t)
    (hreach : Reaches t.table.parseStep ((.start .start, source), .empty) c) (h : t.table.Refuses c token) :
    ∃ read behind e c', Pulls source (read ++ [token]) behind ∧ RefusedBehind g a t read token e c' := by
  cases h with
  | @intro m source' behind b token q states lookahead cause hm hs hp hl ha hn =>
    obtain ⟨before, hbefore, hover⟩ := hreach.exists_pulled (τ := Transcript)
    obtain ⟨last, hlast, hpeeks⟩ := hp.exists_pulled (τ := Transcript)
    obtain ⟨e, he, hne⟩ := token.exists_ending_ne
    have hreach' := hover ⟨before ++ last, e⟩ ⟨last, e⟩ (Transcript.pulls before last e)
    have hend := Transcript.pulls last [] e
    rw [List.append_nil] at hend
    have hp' := hpeeks _ _ hend
    obtain ⟨hpath, read, hpulls, hread, hgrows⟩ := sound_of_reaches ht hreach'
    -- the refused token is the last one of the transcript, since it is not the ending
    have htokens : before ++ last = read ++ [token] := by
      obtain ⟨n, hn⟩ := Transcript.eq_of_pulls (pulls_of_peeks hpulls hp')
      cases n with
      | zero => simpa using hn.symm
      | succ n =>
        rw [List.replicate_succ', ← List.append_assoc] at hn
        exact absurd (List.cons.inj (List.append_inj' hn rfl).2).1.symm hne
    rw [htokens] at hreach'
    exact ⟨read, behind, e, _, htokens ▸ hbefore.trans hlast, hread, he, hreach', .intro hm hs hp' hl ha hn, hpath,
      hgrows⟩

/-- The token is the first one that no sentential form has at its place, if `w` are the terminals of the tokens read
before and `s` is that of the token. -/
structure FirstImpossible (g : Grammar) (start : Symbol) (read : List Token) (token : Token) (w : List Symbol)
    (s : Symbol) : Prop where
  read_eq : read.map (TerminalMap.ofGrammar g).find? = w.map some
  token_eq : (TerminalMap.ofGrammar g).find? token = some s
  /-- The tokens read begin a sentential form. -/
  begins : ∃ rest, Derives g.Produces [start] (w ++ rest)
  /-- None goes on with the token. -/
  stuck : token.isEndOfFile = false → ∀ rest, ¬Derives g.Produces [start] (w ++ s :: rest)
  /-- None ends where the input does. -/
  unfinished : token.isEndOfFile = true → ¬Derives g.Produces [start] w

/-- No other token behind it is the first impossible one. -/
theorem FirstImpossible.not_prefix {read read' : List Token} {token' : Token} {w w' : List Symbol} {s s' : Symbol}
    (h : FirstImpossible g start read token w s) (h' : FirstImpossible g start read' token' w' s')
    (hread : ∀ u ∈ read', u.isEndOfFile = false) : ¬read ++ [token] <+: read' := by
  rintro ⟨more, rfl⟩
  have heof := hread token (List.mem_append_left more (List.mem_append_right read List.mem_cons_self))
  have hmap := h'.read_eq
  rw [List.map_append, List.map_append, h.read_eq, List.map_singleton, h.token_eq] at hmap
  obtain ⟨v, u, rfl, hv, _⟩ := List.map_eq_append_iff.mp hmap.symm
  have hv' : v = w ++ [s] := List.map_injective_iff.mpr (Option.some_injective _) (by rw [hv]; simp)
  obtain ⟨rest, hd⟩ := h'.begins
  apply h.stuck heof (u ++ rest)
  rwa [hv', List.append_assoc, List.append_assoc] at hd

/-- The table is asked for tokens that stand for terminals. -/
theorem Table.exists_find?_of_looks {lookahead : Option Symbol} (h : t.table.Looks token lookahead) :
    ∃ s, t.terminals.find? token = some s := by
  rcases h with ⟨he, _⟩ | ⟨_, s, hs, _⟩
  · exact ⟨_, TerminalMap.find?_of_isEndOfFile he⟩
  · exact ⟨s, hs⟩

/-- **A token refused on a transcript is the first impossible one.** -/
theorem RefusedBehind.exists_firstImpossible {read : List Token} {e : Token} {c : ParseConfig StateId Symbol Transcript}
    (h : RefusedBehind g a t read token e c) (ht : Table.Exact g start accept follow sets a t) (hnil : t.conflicts = [])
    (hbreaks : ∀ u ∈ read, u.kind ≠ .newline) : ∃ w s, FirstImpossible g start read token w s := by
  obtain ⟨hread, he, hreach, hrefuses, hpath, hgrows⟩ := h
  have hdrives := Table.drives ht.terminals_eq
  -- the tokens stand for terminals
  obtain ⟨s, hs, w, behind, hmap, hbegins⟩ : ∃ s, t.terminals.find? token = some s ∧
      ∃ w rest, read.map t.terminals.find? = w.map some ∧ Derives g.Produces [start] (w ++ rest) := by
    cases hrefuses with
    | intro hm hq _ hl _ _ =>
      have hpath' := hpath.path hm
      dsimp only at hpath'
      rw [hq] at hpath'
      obtain ⟨s, hs⟩ := Table.exists_find?_of_looks hl
      exact ⟨s, hs, exists_derives_of_grows ht hpath' hgrows hbreaks⟩
  have hspell : Spells t.table.terminal read w := ⟨hread, hmap⟩
  have hlast : token.isEndOfFile = false → Spells t.table.terminal [token] [s] := fun heof =>
    ⟨by simpa using heof, congrArg (fun x => [x]) hs⟩
  rw [ht.terminals_eq] at hmap hs
  have hterminals := TerminalMap.isTerminal_of_map_find? hmap
  refine ⟨w, s, hmap, hs, ⟨behind, hbegins⟩, fun heof rest hd => ?_, fun heof hd => ?_⟩
  · obtain ⟨γ, hprecedes, hbefore⟩ := exists_precedes_of_derives hd
    obtain ⟨hterminal, hne⟩ := TerminalMap.isTerminal_of_find? hs
    have hsource : Supplies (⟨read ++ [token] ++ [], e⟩ : Transcript) (read ++ [token]) :=
      Transcript.supplies _ (by simp) he
    rw [List.append_nil] at hsource
    have hgen := (derives_iff_generates hterminals).mp hbefore
    exact not_refuses_of_precedes hdrives ht hnil hprecedes hterminal hne hgen hspell (hlast heof) hsource hreach
      hrefuses
  · have hsentence : Generates g.Produces [start] w := by
      refine (derives_iff_generates hterminals).mp ?_
      rwa [sententialForm_cons (Symbol.ne_epsilon_of_isNonterminal ht.augmented.start_nonterminal)]
    have hsource : Supplies (⟨read ++ [token], e⟩ : Transcript) read :=
      Transcript.supplies read (by simpa using heof) he
    exact not_refuses_of_sentence hdrives ht hnil hsentence hspell hsource hreach hrefuses

/-- **The parser reports the first impossible token**: if a parse without conflicts ends at an unexpected token, there
are sentential forms that begin with the terminals of the tokens read before, but none that goes on with the terminal of
the token, or none that ends there if the token is the end of the input. -/
theorem Table.firstImpossible_of_parse {steps : List DefinitionStep} {g : Grammar} {t : Table} {start : Symbol}
    {input : List Token} {fuel : Nat} {text : String} {place : Position} (hg : (Grammar.define steps).result = .ok g)
    (ht : (Table.build g).result = .ok t) (hnil : t.conflicts = []) (hstart : g.start = .ok start)
    (hinput : ∀ u ∈ input, u.kind ≠ .newline)
    (h : t.parse fuel (TokenList.ofList input) = some (.error (.error (.unexpectedToken text place)))) :
    ∃ read token w s, (read ++ [token] <+: input ∨ read = input ∧ token = .endOfFile place) ∧
      (∀ u ∈ read, u.isEndOfFile = false) ∧ text = token.render ∧ place = token.position ∧
      FirstImpossible g start read token w s := by
  obtain ⟨start', accept, follow, sets, a, hx⟩ := Table.exact_of_build (wellFormed_of_define hg) ht
  obtain rfl := hx.augmented.eq_start hstart
  obtain ⟨c, hreach, hstep⟩ := answers_iff.mp ⟨fuel, h⟩
  obtain ⟨token, hrefuses, rfl, rfl⟩ : ∃ token, t.table.Refuses c token ∧ text = token.render ∧
      place = token.position := by
    have hfails := ActionTable.fails_of_parseStep hstep
    cases hfails with
    | unexpectedToken hm hs hp hl ha hn => exact ⟨_, .intro hm hs hp hl ha hn, rfl, rfl⟩
  obtain ⟨read, _, e, c', hpulls, hrefused⟩ := exists_transcript hx hreach hrefuses
  have hplace := TokenList.prefix_or_end_of_pulls hpulls hrefused.not_eof
  have hbreaks : ∀ u ∈ read, u.kind ≠ .newline := by
    intro u hu
    apply hinput
    rcases hplace with hprefix | ⟨rfl, _⟩
    · exact hprefix.subset (List.mem_append_left [token] hu)
    · exact hu
  obtain ⟨w, s, himpossible⟩ := hrefused.exists_firstImpossible hx hnil hbreaks
  exact ⟨read, token, w, s, hplace, hrefused.not_eof, rfl, rfl, himpossible⟩

/-- A product without its first factor. -/
def danglingProduct : List Token :=
  [⟨.identifier, "a", ⟨1, 1⟩⟩, ⟨.positive, "+", ⟨1, 2⟩⟩, ⟨.sign, "*", ⟨1, 3⟩⟩, ⟨.identifier, "a", ⟨1, 4⟩⟩]

set_option maxRecDepth 10000 in
/-- The sign of the product is the first impossible token. -/
theorem Table.firstImpossible_of_parse_danglingProduct : ∃ g t, (Grammar.define Sample.products.steps).result = .ok g ∧
    (Table.build g).result = .ok t ∧ t.conflicts = [] ∧ g.start = .ok (.nonterminal "E") ∧
    t.parse 30 (TokenList.ofList danglingProduct) = some (.error (.error (.unexpectedToken "*" ⟨1, 3⟩))) ∧
    ∃ read token w s, (read ++ [token] <+: danglingProduct ∨ read = danglingProduct ∧ token = .endOfFile ⟨1, 3⟩) ∧
      (∀ u ∈ read, u.isEndOfFile = false) ∧ "*" = token.render ∧ ⟨1, 3⟩ = token.position ∧
      FirstImpossible g (.nonterminal "E") read token w s := by
  have heval : ((Grammar.define Sample.products.steps).result.toOption.any fun g =>
      (Table.build g).result.toOption.any fun t => t.conflicts == [] && g.start == .ok (.nonterminal "E") &&
        t.parse 30 (TokenList.ofList danglingProduct) == some (.error (.error (.unexpectedToken "*" ⟨1, 3⟩)))) =
      true := by rfl
  obtain ⟨g, hg, heval⟩ := exists_ok_of_any heval
  obtain ⟨t, ht, heval⟩ := exists_ok_of_any heval
  simp only [Bool.and_eq_true, beq_iff_eq] at heval
  obtain ⟨⟨hnil, hstart⟩, hparse⟩ := heval
  have hbreaks : ∀ u ∈ danglingProduct, u.kind ≠ .newline := by decide
  exact ⟨g, t, hg, ht, hnil, hstart, hparse, Table.firstImpossible_of_parse hg ht hnil hstart hbreaks hparse⟩

end Refused
end LR
end TableParser
