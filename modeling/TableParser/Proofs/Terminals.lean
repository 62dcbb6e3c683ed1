import TableParser.Grammar.TerminalMap
import TableParser.Proofs.WellFormed

/-!
# Which terminals tokens stand for

The terminal that a token stands for is listed, unless the token is a line break or the end of the input, and it accepts
the token (`TerminalMap.accepts_of_find?`). It depends on the terminals listed and not on their order
(`TerminalMap.find?_congr`). Tokens in a row spell the terminals that they stand for (`Spells`).
-/

namespace TableParser

namespace Symbol

variable {s u : Symbol} {kind : TokenKind}

/-- The builtin terminals that stand for a class of tokens. -/
theorem tokenKind?_eq_some (h : s.tokenKind? = some kind) :
    (s, kind) ∈ [(number, TokenKind.number), (string, .string), (identifier, .identifier), (newline, .newline),
      (positive, .positive), (negative, .negative)] := by
  unfold tokenKind? at h
  repeat' split at h
  all_goals
    first
    | cases h; rename_i hs; rw [hs]; decide
    | cases h

/-- Different terminals stand for different classes of tokens. -/
theorem tokenKind?_inj (hs : s.tokenKind? = some kind) (hu : u.tokenKind? = some kind) : s = u := by
  have hs' := tokenKind?_eq_some hs
  have hu' := tokenKind?_eq_some hu
  simp only [List.mem_cons, List.not_mem_nil, or_false, Prod.mk.injEq] at hs' hu'
  rcases hs' with ⟨rfl, rfl⟩ | ⟨rfl, rfl⟩ | ⟨rfl, rfl⟩ | ⟨rfl, rfl⟩ | ⟨rfl, rfl⟩ | ⟨rfl, rfl⟩ <;>
    exact Eq.symm (by simpa using hu')

theorem isBuiltin_of_tokenKind? (h : s.tokenKind? = some kind) : s.isBuiltin = true := by
  have hs := tokenKind?_eq_some h
  simp only [List.mem_cons, List.not_mem_nil, or_false, Prod.mk.injEq] at hs
  rcases hs with ⟨rfl, _⟩ | ⟨rfl, _⟩ | ⟨rfl, _⟩ | ⟨rfl, _⟩ | ⟨rfl, _⟩ | ⟨rfl, _⟩ <;> decide

theorem tokenKind?_of_not_isBuiltin (h : s.isBuiltin = false) : s.tokenKind? = none := by
  cases hk : s.tokenKind? with
  | none => rfl
  | some kind =>
    rw [isBuiltin_of_tokenKind? hk] at h
    cases h

@[simp] theorem tokenKind?_epsilon : epsilon.tokenKind? = none := by decide

@[simp] theorem tokenKind?_endMarker : endMarker.tokenKind? = none := by decide

/-- The end marker accepts no token. -/
theorem accepts_endMarker (t : Token) : endMarker.accepts t = .error .matchEndMarker := if_pos rfl

/-- Only a terminal without a name accepts the end of the input. -/
theorem name_of_accepts_endOfFile {position : Position} (hs : s ≠ epsilon)
    (h : s.accepts (.endOfFile position) = .ok true) : s.name = "" := by
  have hmarker : s ≠ endMarker := by
    rintro rfl
    rw [accepts_endMarker] at h
    cases h
  unfold accepts at h
  rw [if_neg hmarker, if_neg hs] at h
  split at h
  · rename_i kind hk
    have hmem := tokenKind?_eq_some hk
    simp only [List.mem_cons, List.not_mem_nil, or_false, Prod.mk.injEq] at hmem
    rcases hmem with ⟨_, rfl⟩ | ⟨_, rfl⟩ | ⟨_, rfl⟩ | ⟨_, rfl⟩ | ⟨_, rfl⟩ | ⟨_, rfl⟩ <;> cases h
  · split at h
    · exact (beq_iff_eq.mp (Except.ok.inj h)).symm
    · cases h

/-- No other terminal refuses to be asked. -/
theorem eq_endMarker_of_accepts {t : Token} {f : Fault} (hs : s.isTerminal = true) (h : s.accepts t = .error f) :
    s = endMarker ∧ f = .matchEndMarker := by
  unfold accepts at h
  rw [if_pos hs] at h
  split at h
  · rename_i hmarker
    cases h
    exact ⟨hmarker, rfl⟩
  · repeat' split at h
    all_goals cases h

/-- Terminals are known by their names. -/
theorem eq_of_name (hs : s.isTerminal = true) (hu : u.isTerminal = true) (h : s.name = u.name) : s = u := by
  cases s with
  | nonterminal _ => cases hs
  | terminal _ =>
    cases u with
    | nonterminal _ => cases hu
    | terminal _ => exact congrArg Symbol.terminal h

end Symbol

namespace TerminalMap

variable {m n : TerminalMap} {t : Token} {s : Symbol} {kind : TokenKind} {text : String}

theorem byKind?_eq_some : m.byKind? kind = some s ↔ s ∈ m.terminals ∧ s.tokenKind? = some kind := by
  unfold byKind?
  constructor
  · intro h
    exact ⟨List.mem_of_find?_eq_some h, beq_iff_eq.mp (List.find?_some (p := fun s : Symbol => s.tokenKind? == some kind) h)⟩
  · rintro ⟨hs, hk⟩
    cases h : m.terminals.find? fun s => s.tokenKind? == some kind with
    | none => exact absurd (beq_iff_eq.mpr hk) (List.find?_eq_none.mp h s hs)
    | some u =>
      have hu := beq_iff_eq.mp (List.find?_some (p := fun s : Symbol => s.tokenKind? == some kind) h)
      rw [Symbol.tokenKind?_inj hu hk]

section Literals

variable (hm : ∀ s ∈ m.terminals, s.isTerminal = true)
include hm

/-- A literal is found by its name: no other terminal has it. -/
theorem byText?_eq_some : m.byText? text = some s ↔ s ∈ m.terminals ∧ s.isBuiltin = false ∧ s.name = text := by
  unfold byText?
  have hiff : ∀ u : Symbol, (!u.isBuiltin && u.name == text) = true ↔ u.isBuiltin = false ∧ u.name = text := by
    intro u
    rw [Bool.and_eq_true, Bool.not_eq_true', beq_iff_eq]
  constructor
  · intro h
    have hmem := List.mem_reverse.mp (List.mem_of_find?_eq_some h)
    exact ⟨hmem, (hiff s).mp (List.find?_some (p := fun s : Symbol => !s.isBuiltin && s.name == text) h)⟩
  · rintro ⟨hs, hk⟩
    cases h : m.terminals.reverse.find? fun s => !s.isBuiltin && s.name == text with
    | none => exact absurd ((hiff s).mpr hk) (List.find?_eq_none.mp h s (List.mem_reverse.mpr hs))
    | some u =>
      have hu := (hiff u).mp (List.find?_some (p := fun s : Symbol => !s.isBuiltin && s.name == text) h)
      have humem := List.mem_reverse.mp (List.mem_of_find?_eq_some h)
      exact congrArg some (Symbol.eq_of_name (hm u humem) (hm s hs) (hu.2.trans hk.2.symm))

end Literals

/-- The terminal of a token is fixed, or listed under the text of the token, or under its class. -/
theorem find?_cases (h : m.find? t = some s) :
    t.isEndOfFile = true ∧ s = Symbol.endMarker ∨ t.kind = .newline ∧ s = Symbol.newline ∨
      m.byText? t.text = some s ∨ m.byKind? t.kind = some s := by
  unfold find? at h
  unfold Token.isEndOfFile
  cases hk : t.kind
  all_goals
    rw [hk] at h
    dsimp only at h
  case endOfFile => exact .inl ⟨rfl, (Option.some.inj h).symm⟩
  case newline => exact .inr (.inl ⟨rfl, (Option.some.inj h).symm⟩)
  case string => exact .inr (.inr (.inr h))
  all_goals
    rcases Option.or_eq_some_iff.mp h with h | ⟨_, h⟩
    · exact .inr (.inr (.inl h))
    · exact .inr (.inr (.inr h))

/-- The end of the input stands for the end marker. -/
theorem find?_of_isEndOfFile (h : t.isEndOfFile = true) : m.find? t = some Symbol.endMarker := by
  unfold find?
  rw [beq_iff_eq.mp h]

section Grammar

variable {g : Grammar}

theorem isTerminal_of_mem (g : Grammar) : ∀ s ∈ (ofGrammar g).terminals, s.isTerminal = true :=
  fun _ hs => (Grammar.mem_terminals.mp hs).1

/-- Tokens stand for terminals other than the empty derivation. -/
theorem isTerminal_of_find? (h : (ofGrammar g).find? t = some s) : s.isTerminal = true ∧ s ≠ Symbol.epsilon := by
  rcases find?_cases h with ⟨_, rfl⟩ | ⟨_, rfl⟩ | h | h
  · exact ⟨rfl, by decide⟩
  · exact ⟨rfl, by decide⟩
  · obtain ⟨hs, hb, _⟩ := (byText?_eq_some (isTerminal_of_mem g)).mp h
    refine ⟨isTerminal_of_mem g s hs, ?_⟩
    rintro rfl
    exact absurd hb (by decide)
  · obtain ⟨hs, hk⟩ := byKind?_eq_some.mp h
    refine ⟨isTerminal_of_mem g s hs, ?_⟩
    rintro rfl
    rw [Symbol.tokenKind?_epsilon] at hk
    cases hk

/-- Tokens stand for terminals other than the empty derivation. -/
theorem isTerminal_of_map_find? {tokens : List Token} {w : List Symbol}
    (h : tokens.map (ofGrammar g).find? = w.map some) : ∀ s ∈ w, s.isTerminal = true ∧ s ≠ Symbol.epsilon := by
  intro s hs
  have hmem : some s ∈ tokens.map (ofGrammar g).find? := h ▸ List.mem_map_of_mem hs
  obtain ⟨t, _, ht⟩ := List.mem_map.mp hmem
  exact isTerminal_of_find? ht

/-- Only the end of the input stands for the end marker. -/
theorem isEndOfFile_of_find? (h : (ofGrammar g).find? t = some Symbol.endMarker) : t.isEndOfFile = true := by
  rcases find?_cases h with ⟨he, _⟩ | ⟨_, hs⟩ | h | h
  · exact he
  · exact absurd hs (by decide)
  · exact absurd ((byText?_eq_some (isTerminal_of_mem g)).mp h).2.1 (by decide)
  · have hk := (byKind?_eq_some.mp h).2
    rw [Symbol.tokenKind?_endMarker] at hk
    cases hk

/-- **The terminal that a token stands for accepts the token.** -/
theorem accepts_of_find? (h : (ofGrammar g).find? t = some s) (he : t.isEndOfFile = false) : s.accepts t = .ok true := by
  have hne : s ≠ Symbol.endMarker := by
    rintro rfl
    rw [isEndOfFile_of_find? h] at he
    cases he
  obtain ⟨ht, hs⟩ := isTerminal_of_find? h
  unfold Symbol.accepts
  rw [if_neg hne, if_neg hs]
  rcases find?_cases h with ⟨he', _⟩ | ⟨hn, rfl⟩ | h | h
  · rw [he'] at he
    cases he
  · rw [hn]
    rfl
  · obtain ⟨_, hb, hname⟩ := (byText?_eq_some (isTerminal_of_mem g)).mp h
    rw [Symbol.tokenKind?_of_not_isBuiltin hb]
    simp [ht, hname]
  · rw [(byKind?_eq_some.mp h).2]
    simp

end Grammar

/-- **The terminals of tokens depend on the terminals listed only**, whatever their order. -/
theorem find?_congr (hm : ∀ s ∈ m.terminals, s.isTerminal = true) (hn : ∀ s ∈ n.terminals, s.isTerminal = true)
    (h : ∀ s, s ≠ Symbol.epsilon → (s ∈ m.terminals ↔ s ∈ n.terminals)) (t : Token) : m.find? t = n.find? t := by
  have hkind : ∀ kind, m.byKind? kind = n.byKind? kind := by
    intro kind
    refine Option.ext fun s => ?_
    rw [byKind?_eq_some, byKind?_eq_some]
    refine and_congr_left fun hk => h s ?_
    rintro rfl
    rw [Symbol.tokenKind?_epsilon] at hk
    cases hk
  have htext : m.byText? t.text = n.byText? t.text := by
    refine Option.ext fun s => ?_
    rw [byText?_eq_some hm, byText?_eq_some hn]
    refine and_congr_left fun hs => h s ?_
    rintro rfl
    exact absurd hs.1 (by decide)
  unfold find?
  rw [htext]
  simp only [hkind]

end TerminalMap

/-! ## Strings of tokens -/

/-- The tokens stand for the terminals, and none of them is the end of the input. -/
structure Spells (terminal : Token → Option Symbol) (tokens : List Token) (w : List Symbol) : Prop where
  not_eof : ∀ u ∈ tokens, u.isEndOfFile = false
  map_eq : tokens.map terminal = w.map some

namespace Spells

variable {terminal : Token → Option Symbol} {tokens tokens' : List Token} {v w : List Symbol}

theorem nil (terminal : Token → Option Symbol) : Spells terminal [] [] := ⟨fun _ hu => absurd hu List.not_mem_nil, rfl⟩

theorem length_eq (h : Spells terminal tokens w) : tokens.length = w.length := by
  have hmap := congrArg List.length h.map_eq
  rwa [List.length_map, List.length_map] at hmap

theorem append (h : Spells terminal tokens v) (h' : Spells terminal tokens' w) :
    Spells terminal (tokens ++ tokens') (v ++ w) := by
  refine ⟨fun u hu => ?_, by rw [List.map_append, List.map_append, h.map_eq, h'.map_eq]⟩
  exact (List.mem_append.mp hu).elim (h.not_eof u) (h'.not_eof u)

theorem of_append (h : Spells terminal tokens (v ++ w)) :
    ∃ first rest, tokens = first ++ rest ∧ Spells terminal first v ∧ Spells terminal rest w := by
  have hmap := h.map_eq
  rw [List.map_append] at hmap
  obtain ⟨first, rest, rfl, hfirst, hrest⟩ := List.map_eq_append_iff.mp hmap
  refine ⟨first, rest, rfl, ⟨fun u hu => ?_, hfirst⟩, ⟨fun u hu => ?_, hrest⟩⟩
  · exact h.not_eof u (List.mem_append_left rest hu)
  · exact h.not_eof u (List.mem_append_right first hu)

end Spells
end TableParser
