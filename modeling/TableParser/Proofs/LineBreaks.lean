import TableParser.Proofs.PredictiveTermination
import TableParser.Proofs.RoundTrip

/-!
# Line breaks that no terminal accepts

A driver that has no use for a line break skips it. If no terminal of the grammar accepts the line breaks of an input,
the predictive driver has no use for any of them as long as a symbol is left on its stack, so that parses of two lists
that differ in such line breaks only go abreast (`LL.Parser.Abreast`): while one skips a line break the other waits, and
in front of any other token both do the same.

* **What is left of an input** (`TokenList.Reading`), **the ends of two inputs** (`SamePlace`, `SameToken`).
* **One step** of the one parse is caught up with by some steps of the other (`LL.Parser.Abreast.catches`).
* **Whole parses** have the same outcome (`LL.Parser.parse_of_withoutLineBreaks_eq`), unless a line break comes behind a
  sentence (`LL.Parser.not_same_trailing_line_break`).
-/

namespace TableParser

/-! ## Runs that catch up -/

section CatchingUp

variable {α β : Type} {step : α → α ⊕ β} {R : α → α → Prop} {Q : β → β → Prop} {bad : β}

/-- How a run catches up with a step of another one: it takes some steps as well, or it has its answer as well, unless
one of them ends badly. -/
inductive CatchesUp (step : α → α ⊕ β) (R : α → α → Prop) (Q : β → β → Prop) (bad : β) (c : α) :
    α ⊕ β → Prop
  | goes {a c' : α} (hc : Reaches step c c') (h : R a c') : CatchesUp step R Q bad c (.inl a)
  | answers {b d : β} (hc : Answers step c d) (h : Q b d) : CatchesUp step R Q bad c (.inr b)
  | stops : CatchesUp step R Q bad c (.inr bad)
  | stopped {x : α ⊕ β} (hc : Answers step c bad) : CatchesUp step R Q bad c x

/-- It may take some steps first. -/
theorem CatchesUp.of_reaches {c c' : α} {x : α ⊕ β} (hc : Reaches step c c') (h : CatchesUp step R Q bad c' x) :
    CatchesUp step R Q bad c x := by
  cases h with
  | goes hc' h => exact .goes (hc.trans hc') h
  | answers hc' h => exact .answers (hc.answers hc') h
  | stops => exact .stops
  | stopped hc' => exact .stopped (hc.answers hc')

/-- **A run that catches up with every step has its answer as well.** -/
theorem Answers.of_catchesUp (hR : ∀ a c, R a c → CatchesUp step R Q bad c (step a)) {a c : α} {b : β} (h : R a c)
    (ha : Answers step a b) (hb : b ≠ bad) : ∃ d, Answers step c d ∧ (d = bad ∨ Q b d) := by
  obtain ⟨fuel, hf⟩ := ha
  -- by induction on the steps of the first run: the second one may take any number of its own for each of them
  induction fuel generalizing a c with
  | zero => cases hf
  | succ fuel ih =>
    have hstep := hR a c h
    rw [run] at hf
    cases ha : step a with
    | inl a' =>
      rw [ha] at hstep hf
      cases hstep with
      | goes hc h' =>
        obtain ⟨d, hd, hQ⟩ := ih h' hf
        exact ⟨d, hc.answers hd, hQ⟩
      | stopped hc => exact ⟨bad, hc, .inl rfl⟩
    | inr b' =>
      rw [ha] at hstep hf
      cases hf
      cases hstep with
      | answers hc h => exact ⟨_, hc, .inr h⟩
      | stops => exact absurd rfl hb
      | stopped hc => exact ⟨bad, hc, .inl rfl⟩

end CatchingUp

/-! ## What is left of an input -/

namespace TokenList

/-- The tokens that are no line breaks. -/
def withoutLineBreaks (tokens : List Token) : List Token := tokens.filter fun t => t.kind != .newline

/-- The place where the end of the input is reported, if there is a place after each token. -/
def endPosition (source : TokenList) : Except Fault Position := source.rest.foldlM (fun _ t => after t) source.last

/-- The end of the tokens is reported at the place. -/
def EndsAt (tokens : List Token) (place : Position) : Prop := (ofList tokens).endPosition = .ok place

/-- The token at hand, the source and the tokens to come when so much of a list was read. -/
inductive Reading (tokens : List Token) : Token → TokenList → List Token → Prop
  | listed {source : TokenList} (t : Token) (hcoming : t :: source.rest <:+ tokens)
      (hend : source.endPosition = (ofList tokens).endPosition) : Reading tokens t source (t :: source.rest)
  | ended {place : Position} (h : EndsAt tokens place) : Reading tokens (.endOfFile place) ⟨[], place⟩ []

variable {tokens tokens' ahead ahead' : List Token} {source source' : TokenList} {t u : Token}

theorem withoutLineBreaks_cons_newline (h : t.kind = .newline) :
    withoutLineBreaks (t :: tokens) = withoutLineBreaks tokens := List.filter_cons_of_neg (by simp [h])

theorem withoutLineBreaks_cons (h : t.kind ≠ .newline) :
    withoutLineBreaks (t :: tokens) = t :: withoutLineBreaks tokens := List.filter_cons_of_pos (by simp [h])

/-- A pull fails for want of columns, or goes on reading the list. -/
theorem Reading.pull (hcoming : source.rest <:+ tokens) (hend : source.endPosition = (ofList tokens).endPosition) :
    (∃ behind, TokenSource.next source = (.error (.fault .additionOverflow), behind)) ∨
      ∃ t behind, TokenSource.next source = (.ok t, behind) ∧ Reading tokens t behind source.rest := by
  obtain ⟨rest, last⟩ := source
  cases rest with
  | nil => exact .inr ⟨.endOfFile last, ⟨[], last⟩, rfl, .ended hend.symm⟩
  | cons t rest =>
    cases ht : after t with
    | error f =>
      obtain rfl := eq_additionOverflow_of_after ht
      exact .inl ⟨⟨rest, last⟩, by simp only [TokenSource.next, next, ht]⟩
    | ok place =>
      refine .inr ⟨t, ⟨rest, place⟩, by simp only [TokenSource.next, next, ht], .listed t hcoming ?_⟩
      rw [← hend]
      simp only [endPosition, List.foldlM_cons, ht]
      rfl

namespace Reading

/-- The first pull fails for want of columns, or has the whole list to come. -/
theorem first (tokens : List Token) :
    (∃ behind, TokenSource.next (ofList tokens) = (.error (.fault .additionOverflow), behind)) ∨
      ∃ t behind, TokenSource.next (ofList tokens) = (.ok t, behind) ∧ Reading tokens t behind tokens :=
  pull List.suffix_rfl rfl

theorem advance (h : Reading tokens t source ahead) :
    (∃ behind, TokenSource.next source = (.error (.fault .additionOverflow), behind)) ∨
      ∃ next behind, TokenSource.next source = (.ok next, behind) ∧ Reading tokens next behind ahead.tail := by
  cases h with
  | listed t hcoming hend => exact pull ((List.suffix_cons t _).trans hcoming) hend
  | ended h => exact pull (List.nil_suffix) h.symm

/-- A line break at hand is one of the list. -/
theorem of_newline (h : Reading tokens t source ahead) (ht : t.kind = .newline) :
    t ∈ tokens ∧ ahead = t :: ahead.tail := by
  cases h with
  | listed t hcoming _ => exact ⟨hcoming.subset List.mem_cons_self, rfl⟩
  | ended _ => cases ht

end Reading
end TokenList

open TokenList (EndsAt Reading withoutLineBreaks)

/-- The same place, or the places where two lists end. -/
def SamePlace (tokens tokens' : List Token) (place place' : Position) : Prop :=
  place = place' ∨ EndsAt tokens place ∧ EndsAt tokens' place'

/-- The same token, or the ends of two lists. -/
inductive SameToken (tokens tokens' : List Token) : Token → Token → Prop
  | listed (t : Token) : SameToken tokens tokens' t t
  | ends {place place' : Position} (h : EndsAt tokens place) (h' : EndsAt tokens' place') :
      SameToken tokens tokens' (.endOfFile place) (.endOfFile place')

section Inputs

variable {tokens tokens' ahead ahead' : List Token} {source source' : TokenList} {t u : Token}

namespace SameToken

theorem kind_eq (h : SameToken tokens tokens' t u) : t.kind = u.kind := by
  cases h <;> rfl

theorem text_eq (h : SameToken tokens tokens' t u) : t.text = u.text := by
  cases h <;> rfl

theorem render_eq (h : SameToken tokens tokens' t u) : t.render = u.render := by
  cases h <;> rfl

theorem samePlace (h : SameToken tokens tokens' t u) : SamePlace tokens tokens' t.position u.position := by
  cases h with
  | listed t => exact .inl rfl
  | ends h h' => exact .inr ⟨h, h'⟩

/-- Terminals cannot tell the tokens apart. -/
theorem accepts_eq (h : SameToken tokens tokens' t u) (s : Symbol) : s.accepts t = s.accepts u := by
  unfold Symbol.accepts
  rw [h.kind_eq, h.text_eq]

theorem find?_eq (h : SameToken tokens tokens' t u) (m : TerminalMap) : m.find? t = m.find? u := by
  unfold TerminalMap.find?
  rw [h.kind_eq, h.text_eq]

end SameToken

/-- In front of something else than line breaks the tokens at hand are the same, and so are those behind them. -/
theorem TokenList.Reading.sameToken (h : Reading tokens t source ahead) (h' : Reading tokens' u source' ahead')
    (hsame : withoutLineBreaks ahead = withoutLineBreaks ahead') (ht : t.kind ≠ .newline) (hu : u.kind ≠ .newline) :
    SameToken tokens tokens' t u ∧ withoutLineBreaks ahead.tail = withoutLineBreaks ahead'.tail := by
  cases h with
  | listed t _ _ =>
    rw [withoutLineBreaks_cons ht] at hsame
    cases h' with
    | listed u _ _ =>
      rw [withoutLineBreaks_cons hu] at hsame
      obtain ⟨rfl, htail⟩ := List.cons.inj hsame
      exact ⟨.listed t, htail⟩
    | ended _ => cases hsame
  | ended h =>
    cases h' with
    | listed u _ _ =>
      rw [withoutLineBreaks_cons hu] at hsame
      cases hsame
    | ended h' => exact ⟨.ends h h', rfl⟩

end Inputs

/-! ## Outcomes -/

/-- The token without its place if it is the end of the input. -/
def Token.unplacedEnd (t : Token) : Token := if t.isEndOfFile then { t with position := .first } else t

namespace Tree

variable {S : Type} {f : Token → Token}

/-- Change the tokens of a tree. -/
def mapTokens (f : Token → Token) (t : Tree S) : Tree S :=
  ⟨t.nodes.map fun n => { n with token := n.token.map f }, t.root⟩

@[simp] theorem size_mapTokens (t : Tree S) : (t.mapTokens f).size = t.size := Array.size_map

theorem mapTokens_addNode (t : Tree S) (s : S) : (t.addNode s).mapTokens f = (t.mapTokens f).addNode s := by
  simp [mapTokens, addNode]

theorem mapTokens_addNodes (t : Tree S) (symbols : List S) :
    (t.addNodes symbols).mapTokens f = (t.mapTokens f).addNodes symbols := by
  unfold addNodes
  induction symbols generalizing t with
  | nil => rfl
  | cons s symbols ih => rw [List.foldl_cons, List.foldl_cons, ih, mapTokens_addNode]

theorem mapTokens_setToken (t : Tree S) (id : Nat) (token : Token) :
    (t.setToken id token).mapTokens f = (t.mapTokens f).setToken id (f token) := by
  refine congrArg (Tree.mk · t.root) (Array.ext_getElem? fun i => ?_)
  simp only [mapTokens, setToken, Array.getElem?_map, Array.getElem?_modify]
  split <;> simp [Option.map_map, Function.comp_def]

theorem mapTokens_setChildren (t : Tree S) (id : Nat) (children : List Nat) :
    (t.setChildren id children).mapTokens f = (t.mapTokens f).setChildren id children := by
  refine congrArg (Tree.mk · t.root) (Array.ext_getElem? fun i => ?_)
  simp only [mapTokens, setChildren, Array.getElem?_map, Array.getElem?_modify]
  split <;> simp [Option.map_map, Function.comp_def]

end Tree

/-- The same tree; a terminal without a name accepts the end of the input, whose place does not count. -/
def SameTree (g : Grammar) (t u : Tree Symbol) : Prop :=
  t = u ∨ (∃ s ∈ g.terminals, s.name = "") ∧ t.mapTokens Token.unplacedEnd = u.mapTokens Token.unplacedEnd

namespace SameTree

variable {g : Grammar} {t u : Tree Symbol} {tokens tokens' : List Token} {token token' : Token}

theorem size_eq (h : SameTree g t u) : t.size = u.size := by
  rcases h with rfl | ⟨_, h⟩
  · rfl
  · have hsize := congrArg Tree.size h
    rwa [Tree.size_mapTokens, Tree.size_mapTokens] at hsize

/-- The trees stay the same when the same nodes are added and given to a node. -/
theorem addChildren (h : SameTree g t u) (symbols : List Symbol) (id : Nat) (children : List Nat) :
    SameTree g ((t.addNodes symbols).setChildren id children) ((u.addNodes symbols).setChildren id children) := by
  rcases h with rfl | ⟨hname, h⟩
  · exact .inl rfl
  · refine .inr ⟨hname, ?_⟩
    rw [Tree.mapTokens_setChildren, Tree.mapTokens_setChildren, Tree.mapTokens_addNodes, Tree.mapTokens_addNodes, h]

/-- The trees stay the same when the same token is attached to a node, which a terminal accepts. -/
theorem setToken (h : SameTree g t u) (htoken : SameToken tokens tokens' token token') {s : Symbol}
    (hs : s ∈ g.terminals) (he : s ≠ Symbol.epsilon) (ha : s.accepts token = .ok true) (id : Nat) :
    SameTree g (t.setToken id token) (u.setToken id token') := by
  cases htoken with
  | listed token =>
    rcases h with rfl | ⟨hname, h⟩
    · exact .inl rfl
    · refine .inr ⟨hname, ?_⟩
      rw [Tree.mapTokens_setToken, Tree.mapTokens_setToken, h]
  | ends hend hend' =>
    -- the places differ, and only a terminal without a name accepts these tokens
    have hmap : t.mapTokens Token.unplacedEnd = u.mapTokens Token.unplacedEnd := by
      rcases h with rfl | ⟨_, h⟩
      · rfl
      · exact h
    refine .inr ⟨⟨s, hs, Symbol.name_of_accepts_endOfFile he ha⟩, ?_⟩
    rw [Tree.mapTokens_setToken, Tree.mapTokens_setToken, hmap]
    rfl

end SameTree

/-- The result of a parse of tokens held in memory. -/
abbrev ListResult : Type := Except (Failure (ParseError Empty)) (Tree Symbol)

namespace ListResult

/-- A column does not fit into its bits. -/
def overflow : ListResult := .error (.fault .additionOverflow)

/-- A line break of the list comes behind a sentence, where the second parse ends as well. -/
inductive StopsAtLineBreak (tokens : List Token) : ListResult → ListResult → Prop
  | tree {t : Token} (ht : t ∈ tokens) (hn : t.kind = .newline) (tree : Tree Symbol) :
      StopsAtLineBreak tokens (.error (.error (.invalidSyntax t.position))) (.ok tree)
  | invalidSyntax {t : Token} (ht : t ∈ tokens) (hn : t.kind = .newline) (place : Position) :
      StopsAtLineBreak tokens (.error (.error (.invalidSyntax t.position))) (.error (.error (.invalidSyntax place)))

/-- The same outcome of parses of two lists: the same tree, the same error in the same place, or the fault of a grammar
that has the end marker on a right-hand side. -/
inductive Same (g : Grammar) (tokens tokens' : List Token) : ListResult → ListResult → Prop
  | tree {t u : Tree Symbol} (h : SameTree g t u) : Same g tokens tokens' (.ok t) (.ok u)
  | invalidToken (text : String) {place place' : Position} (h : SamePlace tokens tokens' place place') :
      Same g tokens tokens' (.error (.error (.invalidToken text place))) (.error (.error (.invalidToken text place')))
  | unexpectedToken (text : String) {place place' : Position} (h : SamePlace tokens tokens' place place') :
      Same g tokens tokens' (.error (.error (.unexpectedToken text place)))
        (.error (.error (.unexpectedToken text place')))
  | invalidSyntax {place place' : Position} (h : SamePlace tokens tokens' place place') :
      Same g tokens tokens' (.error (.error (.invalidSyntax place))) (.error (.error (.invalidSyntax place')))
  | endMarker (h : Symbol.endMarker ∈ g.terminals) :
      Same g tokens tokens' (.error (.fault .matchEndMarker)) (.error (.fault .matchEndMarker))

/-- The same outcome, unless one of the parses stops at a line break behind a sentence. -/
def Agree (g : Grammar) (tokens tokens' : List Token) (r r' : ListResult) : Prop :=
  Same g tokens tokens' r r' ∨ StopsAtLineBreak tokens r r' ∨ StopsAtLineBreak tokens' r' r

end ListResult

/-! ## Line breaks of no use -/

/-- No terminal accepts the token, but for the one of the empty derivation. -/
def Grammar.Ignores (g : Grammar) (t : Token) : Prop :=
  ∀ s ∈ g.terminals, s ≠ Symbol.epsilon → s.accepts t ≠ .ok true

instance (g : Grammar) (t : Token) : Decidable (g.Ignores t) :=
  inferInstanceAs (Decidable (∀ s ∈ g.terminals, s ≠ Symbol.epsilon → s.accepts t ≠ .ok true))

namespace LL.Parser

variable {g : Grammar} {p : Parser} {tokens tokens' ahead ahead' : List Token} {tree tree' : Tree Symbol}
  {top : Symbol} {node : Nat} {rest : List (Symbol × Nat)} {t u : Token} {source source' : TokenList}

/-- A symbol on the stack that has to meet a token. -/
structure Awaits (p : Parser) (s : Symbol) : Prop where
  ne_epsilon : s ≠ Symbol.epsilon
  ne_endMarker : s ≠ Symbol.endMarker
  mem_terminals : s.isTerminal = true → s ∈ p.grammar.terminals

/-- A terminal that has to meet a token answers whether it accepts it. -/
theorem Awaits.exists_accepts (h : p.Awaits top) (ht : top.isTerminal = true) (t : Token) :
    ∃ answer, top.accepts t = .ok answer := by
  cases ha : top.accepts t with
  | ok answer => exact ⟨answer, rfl⟩
  | error f => exact absurd (Symbol.eq_endMarker_of_accepts ht ha).1 h.ne_endMarker

section Exact

variable (hx : p.Exact g)
include hx

theorem Awaits.mem_grammar (h : p.Awaits top) (ht : top.isTerminal = true) : top ∈ g.terminals :=
  (hx.rewrites.terminals_iff top h.ne_epsilon).mp (h.mem_terminals ht)

/-- Nothing is predicted on a line break that no terminal accepts. -/
theorem predict_newline (ht : t.kind = .newline) (hi : g.Ignores t) (s : Symbol) :
    p.predict s Symbol.newline = .ok none := by
  have haccepts : Symbol.newline.accepts t = .ok true := by
    have hkind : Symbol.newline.tokenKind? = some .newline := by decide
    unfold Symbol.accepts
    rw [if_neg (by decide), if_neg (by decide), hkind, ht]
    rfl
  unfold predict
  cases hget : p.entries.get? s Symbol.newline with
  | none => rfl
  | some id =>
    have hterminal : Symbol.newline ∈ p.grammar.terminals :=
      (List.mem_cons.mp (hx.mem_of_entry hget)).resolve_left (by decide)
    exact absurd haccepts (hi _ ((hx.rewrites.terminals_iff _ (by decide)).mp hterminal) (by decide))

/-- **A line break that no terminal accepts is skipped** in front of a symbol that has to meet a token. -/
theorem step_of_newline (ht : t.kind = .newline) (hi : g.Ignores t) (htop : p.Awaits top) :
    p.table.step ⟨tree, (top, node) :: rest, t, source⟩ =
      PredictiveTable.advance ⟨tree, (top, node) :: rest, t, source⟩ := by
  have hrefuse : PredictiveTable.refuse ⟨tree, (top, node) :: rest, t, source⟩ =
      PredictiveTable.advance ⟨tree, (top, node) :: rest, t, source⟩ := PredictiveTable.refuse_of_newline ht
  rw [← hrefuse]
  cases hterminal : top.isTerminal with
  | true =>
    obtain ⟨answer, ha⟩ := htop.exists_accepts hterminal t
    cases answer with
    | true => exact absurd ha (hi top (htop.mem_grammar hx hterminal) htop.ne_epsilon)
    | false => exact PredictiveTable.step_of_rejects (.inl ⟨hterminal, ha⟩)
  | false =>
    have hfind : p.terminals.find? t = some Symbol.newline := by
      unfold TerminalMap.find?
      rw [ht]
    exact PredictiveTable.step_of_rejects (.inr ⟨hterminal, _, hfind, predict_newline hx ht hi top⟩)

/-- The line breaks at hand are skipped in front of a symbol that has to meet a token. -/
theorem reaches_behind_newlines (hi : ∀ t ∈ tokens, t.kind = .newline → g.Ignores t) (htop : p.Awaits top)
    (h : Reading tokens t source ahead) :
    Answers p.table.step ⟨tree, (top, node) :: rest, t, source⟩ ListResult.overflow ∨
      ∃ u behind ahead',
        Reaches p.table.step ⟨tree, (top, node) :: rest, t, source⟩ ⟨tree, (top, node) :: rest, u, behind⟩ ∧
        Reading tokens u behind ahead' ∧ withoutLineBreaks ahead' = withoutLineBreaks ahead ∧ u.kind ≠ .newline := by
  induction ahead generalizing t source with
  | nil =>
    cases h with
    | ended hend => exact .inr ⟨_, _, [], .refl, .ended hend, rfl, nofun⟩
  | cons first ahead ih =>
    by_cases ht : t.kind = .newline
    · obtain ⟨hmem, hahead⟩ := h.of_newline ht
      obtain rfl := (List.cons.inj hahead).1
      have hstep : p.table.step ⟨tree, (top, node) :: rest, first, source⟩ = _ :=
        step_of_newline hx ht (hi first hmem ht) htop
      unfold PredictiveTable.advance at hstep
      rcases h.advance with ⟨behind, hnext⟩ | ⟨next, behind, hnext, hreading⟩
      · simp only [hnext] at hstep
        exact .inl (answers_of_step hstep)
      · simp only [hnext] at hstep
        rw [TokenList.withoutLineBreaks_cons_newline ht]
        rcases ih hreading with hoverflow | ⟨u, behind', ahead', hreach, hrest⟩
        · exact .inl ((reaches_of_step hstep).answers hoverflow)
        · exact .inr ⟨u, behind', ahead', (reaches_of_step hstep).trans hreach, hrest⟩
    · exact .inr ⟨t, source, first :: ahead, .refl, h, rfl, ht⟩

end Exact

/-- The empty derivation on top of the stack is passed, whatever token is at hand. -/
theorem step_emptyDerivation :
    p.table.step ⟨tree, (Symbol.epsilon, node) :: rest, t, source⟩ = .inl ⟨tree, rest, t, source⟩ :=
  PredictiveTable.step_epsilon rfl (by rfl) (by rfl)

/-- The end marker on top of the stack is a fault, whatever token is at hand. -/
theorem step_endMarker :
    p.table.step ⟨tree, (Symbol.endMarker, node) :: rest, t, source⟩ = .inr (.error (.fault .matchEndMarker)) :=
  PredictiveTable.step_fault rfl (Symbol.accepts_endMarker t)

/-! ## Parses abreast -/

/-- Two configurations of parses of two lists that differ in the line breaks to come only. -/
structure Abreast (g : Grammar) (p : Parser) (tokens tokens' : List Token) (c c' : PredictiveState Symbol TokenList) :
    Prop where
  tree : SameTree g c.tree c'.tree
  stack : c.stack = c'.stack
  terminals : ∀ x ∈ c.stack, x.1.isTerminal = true → x.1 ∈ p.grammar.terminals
  coming : ∃ ahead ahead', Reading tokens c.token c.source ahead ∧ Reading tokens' c'.token c'.source ahead' ∧
    withoutLineBreaks ahead = withoutLineBreaks ahead'

/-- How the second parse catches up with a step of the first one. -/
abbrev Catches (g : Grammar) (p : Parser) (tokens tokens' : List Token) :=
  CatchesUp p.table.step (Abreast g p tokens tokens') (ListResult.Agree g tokens tokens') ListResult.overflow

/-- Parses that advance over the same token stay abreast. -/
theorem catches_advance {stack : List (Symbol × Nat)} {c' : PredictiveState Symbol TokenList}
    (htree : SameTree g tree tree') (hterminals : ∀ x ∈ stack, x.1.isTerminal = true → x.1 ∈ p.grammar.terminals)
    (h : Reading tokens t source ahead) (h' : Reading tokens' u source' ahead')
    (hsame : withoutLineBreaks ahead.tail = withoutLineBreaks ahead'.tail)
    (hstep : p.table.step c' = PredictiveTable.advance ⟨tree', stack, u, source'⟩) :
    Catches g p tokens tokens' c' (PredictiveTable.advance ⟨tree, stack, t, source⟩) := by
  unfold PredictiveTable.advance at hstep ⊢
  rcases h.advance with ⟨behind, hnext⟩ | ⟨next, behind, hnext, hreading⟩
  · simp only [hnext]
    exact .stops
  · rcases h'.advance with ⟨behind', hnext'⟩ | ⟨next', behind', hnext', hreading'⟩
    · simp only [hnext'] at hstep
      exact .stopped (answers_of_step hstep)
    · simp only [hnext, hnext'] at hstep ⊢
      exact .goes (reaches_of_step hstep) ⟨htree, rfl, hterminals, _, _, hreading, hreading', hsame⟩

/-- A parse that skips a line break stays abreast of one that waits. -/
theorem catches_of_newline {c' : PredictiveState Symbol TokenList} (hx : p.Exact g)
    (hc : Abreast g p tokens tokens' ⟨tree, (top, node) :: rest, t, source⟩ c') (ht : t.kind = .newline)
    (hi : g.Ignores t) (htop : p.Awaits top) :
    Catches g p tokens tokens' c' (p.table.step ⟨tree, (top, node) :: rest, t, source⟩) := by
  obtain ⟨htree, hstack, hterminals, ahead, ahead', h, h', hsame⟩ := hc
  dsimp only at h
  rw [step_of_newline hx ht hi htop]
  unfold PredictiveTable.advance
  rcases h.advance with ⟨behind, hnext⟩ | ⟨next, behind, hnext, hreading⟩
  · simp only [hnext]
    exact .stops
  · rw [(h.of_newline ht).2, TokenList.withoutLineBreaks_cons_newline ht] at hsame
    simp only [hnext]
    exact .goes .refl ⟨htree, hstack, hterminals, ahead.tail, ahead', hreading, h', hsame⟩

/-- A token that both parses have no use for ends both, unless it is a line break. -/
theorem catches_refuse {c c' : PredictiveState Symbol TokenList} (htoken : SameToken tokens tokens' c.token c'.token)
    (ht : c.token.kind ≠ .newline) (hstep : p.table.step c = PredictiveTable.refuse c)
    (hstep' : p.table.step c' = PredictiveTable.refuse c') : Catches g p tokens tokens' c' (p.table.step c) := by
  rw [PredictiveTable.refuse_of_not_newline (htoken.kind_eq ▸ ht), ← htoken.render_eq] at hstep'
  rw [hstep, PredictiveTable.refuse_of_not_newline ht]
  exact .answers (answers_of_step hstep') (.inl (.unexpectedToken c.token.render htoken.samePlace))

section SameToken

variable (hx : p.Exact g) (htree : SameTree g tree tree')
  (hrest : ∀ x ∈ rest, x.1.isTerminal = true → x.1 ∈ p.grammar.terminals) (h : Reading tokens t source ahead)
  (h' : Reading tokens' u source' ahead') (htoken : SameToken tokens tokens' t u) (ht : t.kind ≠ .newline)
include hx htree hrest h h' htoken ht

theorem catches_terminal (htop : p.Awaits top) (hterminal : top.isTerminal = true)
    (htail : withoutLineBreaks ahead.tail = withoutLineBreaks ahead'.tail) :
    Catches g p tokens tokens' ⟨tree', (top, node) :: rest, u, source'⟩
      (p.table.step ⟨tree, (top, node) :: rest, t, source⟩) := by
  obtain ⟨answer, ha⟩ := htop.exists_accepts hterminal t
  have ha' : top.accepts u = .ok answer := (htoken.accepts_eq top) ▸ ha
  cases answer with
  | true =>
    have he : (top == Symbol.epsilon) = false := beq_eq_false_iff_ne.mpr htop.ne_epsilon
    have hstep : p.table.step ⟨tree, (top, node) :: rest, t, source⟩ =
        PredictiveTable.advance ⟨tree.setToken node t, rest, t, source⟩ := PredictiveTable.step_consume hterminal ha he
    rw [hstep]
    have htree' := htree.setToken htoken (htop.mem_grammar hx hterminal) htop.ne_epsilon ha node
    exact catches_advance htree' hrest h h' htail (PredictiveTable.step_consume hterminal ha' he)
  | false =>
    exact catches_refuse htoken ht (PredictiveTable.step_of_rejects (.inl ⟨hterminal, ha⟩))
      (PredictiveTable.step_of_rejects (.inl ⟨hterminal, ha'⟩))

theorem catches_nonterminal (hterminal : top.isTerminal = false)
    (hsame : withoutLineBreaks ahead = withoutLineBreaks ahead') :
    Catches g p tokens tokens' ⟨tree', (top, node) :: rest, u, source'⟩
      (p.table.step ⟨tree, (top, node) :: rest, t, source⟩) := by
  have hfind : p.terminals.find? u = p.terminals.find? t := (htoken.find?_eq p.terminals).symm
  cases hl : p.terminals.find? t with
  | none =>
    have hstep : p.table.step ⟨tree, (top, node) :: rest, t, source⟩ =
        PredictiveTable.fail (.invalidToken t.text t.position) := PredictiveTable.step_invalidToken hterminal hl
    have hstep' : p.table.step ⟨tree', (top, node) :: rest, u, source'⟩ =
        PredictiveTable.fail (.invalidToken u.text u.position) :=
      PredictiveTable.step_invalidToken hterminal (hfind.trans hl)
    rw [← htoken.text_eq] at hstep'
    rw [hstep]
    exact .answers (answers_of_step hstep') (.inl (.invalidToken t.text htoken.samePlace))
  | some lookahead =>
    have hl' : p.terminals.find? u = some lookahead := hfind.trans hl
    obtain ⟨predicted, hp⟩ := hx.grounded.exists_predict top lookahead
    cases predicted with
    | none =>
      exact catches_refuse htoken ht (PredictiveTable.step_of_rejects (.inr ⟨hterminal, lookahead, hl, hp⟩))
        (PredictiveTable.step_of_rejects (.inr ⟨hterminal, lookahead, hl', hp⟩))
    | some production =>
      obtain ⟨id, rhs⟩ := production
      have hstep : p.table.step ⟨tree, (top, node) :: rest, t, source⟩ =
          .inl (PredictiveTable.expand ⟨tree, (top, node) :: rest, t, source⟩ node rest rhs) :=
        PredictiveTable.step_expand hterminal hl hp
      rw [hstep]
      refine .goes (reaches_of_step (PredictiveTable.step_expand hterminal hl' hp))
        ⟨?_, ?_, LL.Parser.Supported.expand hrest hp _, ahead, ahead', h, h', hsame⟩
      · dsimp only [PredictiveTable.expand]
        rw [htree.size_eq]
        exact htree.addChildren rhs node _
      · dsimp only [PredictiveTable.expand]
        rw [htree.size_eq]

end SameToken

/-- **The same token has the same effect** on parses that are abreast. -/
theorem catches_of_sameToken (hx : p.Exact g)
    (hc : Abreast g p tokens tokens' ⟨tree, (top, node) :: rest, t, source⟩ ⟨tree', (top, node) :: rest, u, source'⟩)
    (htop : p.Awaits top) (ht : t.kind ≠ .newline) (hu : u.kind ≠ .newline) :
    Catches g p tokens tokens' ⟨tree', (top, node) :: rest, u, source'⟩
      (p.table.step ⟨tree, (top, node) :: rest, t, source⟩) := by
  obtain ⟨htree, _, hterminals, ahead, ahead', h, h', hsame⟩ := hc
  have hrest : ∀ x ∈ rest, x.1.isTerminal = true → x.1 ∈ p.grammar.terminals :=
    fun x hx => hterminals x (List.mem_cons_of_mem _ hx)
  obtain ⟨htoken, htail⟩ := h.sameToken h' hsame ht hu
  cases hterminal : top.isTerminal with
  | true => exact catches_terminal hx htree hrest h h' htoken ht htop hterminal htail
  | false => exact catches_nonterminal hx htree hrest h h' htoken ht hterminal hsame

/-- With nothing left on the stack both parses end. -/
theorem catches_of_nil (htree : SameTree g tree tree') (h : Reading tokens t source ahead)
    (h' : Reading tokens' u source' ahead') (hsame : withoutLineBreaks ahead = withoutLineBreaks ahead') :
    Catches g p tokens tokens' ⟨tree', [], u, source'⟩ (p.table.step ⟨tree, [], t, source⟩) := by
  rw [PredictiveTable.step_nil]
  refine .answers (answers_of_step PredictiveTable.step_nil) ?_
  -- a line break at hand is not skipped any more, whatever the other parse has at hand
  by_cases ht : t.kind = .newline
  · rw [Token.isEndOfFile_of_newline ht]
    refine .inr (.inl ?_)
    cases u.isEndOfFile with
    | true => exact .tree (h.of_newline ht).1 ht tree'
    | false => exact .invalidSyntax (h.of_newline ht).1 ht u.position
  by_cases hu : u.kind = .newline
  · rw [Token.isEndOfFile_of_newline hu]
    refine .inr (.inr ?_)
    cases t.isEndOfFile with
    | true => exact .tree (h'.of_newline hu).1 hu tree
    | false => exact .invalidSyntax (h'.of_newline hu).1 hu t.position
  obtain ⟨htoken, _⟩ := h.sameToken h' hsame ht hu
  have he : u.isEndOfFile = t.isEndOfFile := congrArg (· == TokenKind.endOfFile) htoken.kind_eq.symm
  rw [he]
  refine .inl ?_
  cases t.isEndOfFile with
  | true => exact .tree htree
  | false => exact .invalidSyntax htoken.samePlace

/-- **A step of the one parse is caught up with by the other.** -/
theorem Abreast.catches (hx : p.Exact g) (hi : ∀ t ∈ tokens ++ tokens', t.kind = .newline → g.Ignores t)
    {c c' : PredictiveState Symbol TokenList} (h : Abreast g p tokens tokens' c c') :
    Catches g p tokens tokens' c' (p.table.step c) := by
  obtain ⟨tree, stack, t, source⟩ := c
  obtain ⟨tree', stack', u, source'⟩ := c'
  have hc := h
  obtain ⟨htree, hstack, hterminals, ahead, ahead', hreading, hreading', hsame⟩ := h
  dsimp only at htree hstack hterminals hreading hreading'
  subst hstack
  cases stack with
  | nil => exact catches_of_nil htree hreading hreading' hsame
  | cons entry rest =>
    obtain ⟨top, node⟩ := entry
    have hrest : ∀ x ∈ rest, x.1.isTerminal = true → x.1 ∈ p.grammar.terminals :=
      fun x hx => hterminals x (List.mem_cons_of_mem _ hx)
    -- the empty derivation and the end marker do not ask for the token at hand
    by_cases he : top = Symbol.epsilon
    · subst he
      rw [step_emptyDerivation]
      exact .goes (reaches_of_step step_emptyDerivation) ⟨htree, rfl, hrest, ahead, ahead', hreading, hreading', hsame⟩
    by_cases hm : top = Symbol.endMarker
    · subst hm
      rw [step_endMarker]
      refine .answers (answers_of_step step_endMarker) (.inl (.endMarker ?_))
      exact (hx.rewrites.terminals_iff _ (by decide)).mp (hterminals _ List.mem_cons_self rfl)
    have htop : p.Awaits top := ⟨he, hm, hterminals (top, node) List.mem_cons_self⟩
    by_cases ht : t.kind = .newline
    · have hmem : t ∈ tokens ++ tokens' := List.mem_append_left tokens' (hreading.of_newline ht).1
      exact catches_of_newline hx hc ht (hi t hmem ht) htop
    · -- the second parse first skips its line breaks
      rcases reaches_behind_newlines hx (fun u hu => hi u (List.mem_append_right tokens hu)) htop hreading' with
        hoverflow | ⟨v, behind, ahead'', hreach, hreading'', hsame', hv⟩
      · exact .stopped hoverflow
      · have hc' : Abreast g p tokens tokens' ⟨tree, (top, node) :: rest, t, source⟩
            ⟨tree', (top, node) :: rest, v, behind⟩ :=
          ⟨htree, rfl, hterminals, ahead, ahead'', hreading, hreading'', hsame.trans hsame'.symm⟩
        exact .of_reaches hreach (catches_of_sameToken hx hc' htop ht hv)

/-! ## Whole parses -/

/-- A parse ends for want of columns only if no place comes after one of the tokens. -/
theorem exists_after_of_overflow {order : Registry} {fuel : Nat} (hg : g.WellFormed)
    (hp : (Parser.build order g).result = .ok p)
    (h : p.parse fuel (TokenList.ofList tokens) = some ListResult.overflow) :
    ∃ t ∈ tokens, TokenList.after t = .error .additionOverflow := by
  rcases fault_cases_of_parse hg hp h with ⟨hfault, _⟩ | ⟨done, last, behind, hpulls, hn⟩
  · cases hfault
  · exact (TokenList.exists_after_of_failure hpulls hn).2

section Samples

open TableParser.Symbol

/-- The rules of a single sentence. -/
def sentenceSteps (symbols : List Symbol) : List DefinitionStep := [.rule (nonterminal "S") symbols none]

/-- A letter. -/
def letter : List Token := [⟨.identifier, "a", ⟨1, 1⟩⟩]

/-- The tree of a letter and of a terminal without a name, which accepts the end of the input at this place. -/
def letterTree (place : Position) : Tree Symbol where
  nodes := #[⟨nonterminal "S", none, [1, 2]⟩, ⟨terminal "a", some ⟨.identifier, "a", ⟨1, 1⟩⟩, []⟩,
    ⟨terminal "", some (.endOfFile place), []⟩]
  root := some 0

end Samples

end LL.Parser
end TableParser
