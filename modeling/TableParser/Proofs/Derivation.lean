import TableParser.Grammar.Definition

/-!
# Derivations

What a grammar says is which alternatives a nonterminal has (`Grammar.Produces`), whatever their order. `Generates`
relates a string of symbols to the terminal strings that it derives, `Translates` also lists the actions of the
alternatives used, the innermost first. A `Derivation` is a tree of symbols; it is `Valid` when every inner node is
expanded by an alternative of its symbol, an empty alternative giving a node without children.

* **Trees and generation** (`Derivation.generates`, `exists_derivations`): a string is generated exactly when trees
  spell it.
-/

namespace TableParser

/-- The alternatives of each nonterminal. -/
abbrev Productions : Type := Symbol → Alternative → Prop

/-- The alternatives of each nonterminal of a grammar. -/
def Grammar.Produces (g : Grammar) (lhs : Symbol) (a : Alternative) : Prop :=
  ∃ r ∈ g.rules, r.lhs = lhs ∧ a ∈ r.alternatives

/-! ## Generated strings -/

/-- The terminal strings that a string of symbols derives. -/
inductive Generates (P : Productions) : List Symbol → List Symbol → Prop
  | nil : Generates P [] []
  | epsilon {rest w : List Symbol} (h : Generates P rest w) : Generates P (Symbol.epsilon :: rest) w
  | terminal {s : Symbol} {rest w : List Symbol} (ht : s.isTerminal = true) (hs : s ≠ Symbol.epsilon)
      (h : Generates P rest w) : Generates P (s :: rest) (s :: w)
  | nonterminal {lhs : Symbol} {a : Alternative} {rest u v : List Symbol} (hl : lhs.isNonterminal = true)
      (hp : P lhs a) (ha : Generates P a.symbols u) (h : Generates P rest v) : Generates P (lhs :: rest) (u ++ v)

/-- The terminal strings that a string of symbols derives, with the actions of the alternatives used: those of an
alternative's own symbols come before its own. -/
inductive Translates (P : Productions) : List Symbol → List Symbol → List String → Prop
  | nil : Translates P [] [] []
  | epsilon {rest w : List Symbol} {acts : List String} (h : Translates P rest w acts) :
      Translates P (Symbol.epsilon :: rest) w acts
  | terminal {s : Symbol} {rest w : List Symbol} {acts : List String} (ht : s.isTerminal = true)
      (hs : s ≠ Symbol.epsilon) (h : Translates P rest w acts) : Translates P (s :: rest) (s :: w) acts
  | nonterminal {lhs : Symbol} {a : Alternative} {rest u v : List Symbol} {acts₁ acts₂ : List String}
      (hl : lhs.isNonterminal = true) (hp : P lhs a) (ha : Translates P a.symbols u acts₁)
      (h : Translates P rest v acts₂) :
      Translates P (lhs :: rest) (u ++ v) (acts₁ ++ a.action.toList ++ acts₂)

namespace Generates

variable {P Q : Productions} {α β u v w : List Symbol}

theorem append (h₁ : Generates P α u) (h₂ : Generates P β v) : Generates P (α ++ β) (u ++ v) := by
  induction h₁ with
  | nil => exact h₂
  | epsilon _ ih => exact .epsilon ih
  | terminal ht hs _ ih => exact .terminal ht hs ih
  | nonterminal hl hp ha _ _ ih =>
    rw [List.append_assoc]
    exact .nonterminal hl hp ha ih

/-- A string derived from a concatenation falls into two parts. -/
theorem of_append (h : Generates P (α ++ β) w) : ∃ u v, w = u ++ v ∧ Generates P α u ∧ Generates P β v := by
  induction α generalizing w with
  | nil => exact ⟨[], w, rfl, .nil, h⟩
  | cons s α ih =>
    rw [List.cons_append] at h
    cases h with
    | epsilon h =>
      obtain ⟨u, v, rfl, hu, hv⟩ := ih h
      exact ⟨u, v, rfl, .epsilon hu, hv⟩
    | terminal ht hs h =>
      obtain ⟨u, v, rfl, hu, hv⟩ := ih h
      exact ⟨s :: u, v, rfl, .terminal ht hs hu, hv⟩
    | nonterminal hl hp ha h =>
      obtain ⟨u, v, rfl, hu, hv⟩ := ih h
      exact ⟨_, v, (List.append_assoc _ u v).symm, .nonterminal hl hp ha hu, hv⟩

/-- The empty derivation derives the empty string. -/
theorem eq_nil_of_epsilon (h : Generates P [Symbol.epsilon] w) : w = [] := by
  cases h with
  | epsilon h =>
    cases h
    rfl
  | terminal _ hs _ => exact absurd rfl hs
  | nonterminal hl _ _ _ => cases hl

theorem of_alternative {lhs : Symbol} {a : Alternative} (hl : lhs.isNonterminal = true) (hp : P lhs a)
    (h : Generates P a.symbols w) : Generates P [lhs] w := by
  have := Generates.nonterminal hl hp h .nil
  rwa [List.append_nil] at this

/-- A nonterminal derives what its alternatives derive. -/
theorem exists_alternative {lhs : Symbol} (hl : lhs.isNonterminal = true) (h : Generates P [lhs] w) :
    ∃ a, P lhs a ∧ Generates P a.symbols w := by
  generalize hα : [lhs] = α at h
  cases h with
  | nil => cases hα
  | epsilon _ =>
    cases hα
    cases hl
  | terminal ht _ _ =>
    cases hα
    exact absurd ht (Symbol.not_isTerminal hl)
  | nonterminal _ hp ha h =>
    cases hα
    cases h
    rw [List.append_nil]
    exact ⟨_, hp, ha⟩

/-- More alternatives derive more. -/
theorem mono (hPQ : ∀ lhs a, P lhs a → Q lhs a) (h : Generates P α w) : Generates Q α w := by
  induction h with
  | nil => exact .nil
  | epsilon _ ih => exact .epsilon ih
  | terminal ht hs _ ih => exact .terminal ht hs ih
  | nonterminal hl hp _ _ ih₁ ih₂ => exact .nonterminal hl (hPQ _ _ hp) ih₁ ih₂

/-- Only terminals are derived, and the empty derivation is none of them. -/
theorem terminals (h : Generates P α w) : ∀ s ∈ w, s.isTerminal = true ∧ s ≠ Symbol.epsilon := by
  induction h with
  | nil =>
    intro s hs
    cases hs
  | epsilon _ ih => exact ih
  | terminal ht hs _ ih =>
    intro u hu
    rcases List.mem_cons.mp hu with rfl | hu
    · exact ⟨ht, hs⟩
    · exact ih u hu
  | nonterminal _ _ _ _ ih₁ ih₂ =>
    intro s hs
    exact (List.mem_append.mp hs).elim (ih₁ s) (ih₂ s)

/-- A concatenation vanishes if both parts do. -/
theorem append_nil_iff : Generates P (α ++ β) [] ↔ Generates P α [] ∧ Generates P β [] := by
  constructor
  · intro h
    obtain ⟨u, v, huv, hu, hv⟩ := h.of_append
    obtain ⟨rfl, rfl⟩ := List.append_eq_nil_iff.mp huv.symm
    exact ⟨hu, hv⟩
  · rintro ⟨hα, hβ⟩
    exact hα.append hβ

/-- A string derives a terminal string if its nonterminals do. -/
theorem exists_of_nonterminals (h : ∀ s ∈ α, s.isNonterminal = true → ∃ w, Generates P [s] w) :
    ∃ w, Generates P α w := by
  induction α with
  | nil => exact ⟨[], .nil⟩
  | cons s α ih =>
    obtain ⟨v, hv⟩ := ih fun u hu => h u (List.mem_cons_of_mem s hu)
    cases hs : s.isTerminal with
    | true =>
      by_cases he : s = Symbol.epsilon
      · subst he
        exact ⟨v, .epsilon hv⟩
      · exact ⟨s :: v, .terminal hs he hv⟩
    | false =>
      obtain ⟨u, hu⟩ := h s List.mem_cons_self (Symbol.isTerminal_eq_false_iff.mp hs)
      exact ⟨u ++ v, hu.append hv⟩

/-- What a string derives by some productions, it derives by others by which its nonterminals derive as much. -/
theorem of_nonterminals (h : Generates P α w)
    (hPQ : ∀ lhs ∈ α, lhs.isNonterminal = true → ∀ w, Generates P [lhs] w → Generates Q [lhs] w) : Generates Q α w := by
  induction h with
  | nil => exact .nil
  | epsilon _ ih => exact .epsilon (ih fun lhs hl => hPQ lhs (List.mem_cons_of_mem _ hl))
  | terminal ht hs _ ih => exact .terminal ht hs (ih fun lhs hl => hPQ lhs (List.mem_cons_of_mem _ hl))
  | @nonterminal lhs a rest u v hl hp ha _ _ ih =>
    have hlhs := hPQ lhs List.mem_cons_self hl u (.of_alternative hl hp ha)
    exact hlhs.append (ih fun lhs hl => hPQ lhs (List.mem_cons_of_mem _ hl))

/-- Generation is translation whatever the actions. -/
theorem iff_translates : Generates P α w ↔ ∃ acts, Translates P α w acts := by
  constructor
  · intro h
    induction h with
    | nil => exact ⟨[], .nil⟩
    | epsilon _ ih =>
      obtain ⟨acts, h⟩ := ih
      exact ⟨acts, .epsilon h⟩
    | terminal ht hs _ ih =>
      obtain ⟨acts, h⟩ := ih
      exact ⟨acts, .terminal ht hs h⟩
    | nonterminal hl hp _ _ ih₁ ih₂ =>
      obtain ⟨acts₁, h₁⟩ := ih₁
      obtain ⟨acts₂, h₂⟩ := ih₂
      exact ⟨_, .nonterminal hl hp h₁ h₂⟩
  · rintro ⟨acts, h⟩
    induction h with
    | nil => exact .nil
    | epsilon _ ih => exact .epsilon ih
    | terminal ht hs _ ih => exact .terminal ht hs ih
    | nonterminal hl hp _ _ ih₁ ih₂ => exact .nonterminal hl hp ih₁ ih₂

end Generates

/-! ## Trees -/

/-- A tree of symbols; a leaf stands for a terminal of the input. -/
inductive Derivation (S : Type)
  | leaf (s : S)
  | node (s : S) (children : List (Derivation S))

namespace Derivation

section Basic

variable {S : Type}

/-- The symbol at the root. -/
def symbol : Derivation S → S
  | .leaf s => s
  | .node s _ => s

mutual

/-- The leaves from left to right. -/
def yield : Derivation S → List S
  | .leaf s => [s]
  | .node _ children => yieldAll children

/-- The leaves of several trees from left to right. -/
def yieldAll : List (Derivation S) → List S
  | [] => []
  | d :: rest => yield d ++ yieldAll rest

end

theorem yieldAll_append (ds es : List (Derivation S)) : yieldAll (ds ++ es) = yieldAll ds ++ yieldAll es := by
  induction ds with
  | nil => rfl
  | cons d ds ih => rw [List.cons_append, yieldAll, yieldAll, ih, List.append_assoc]

mutual

/-- The number of nodes. -/
def size : Derivation S → Nat
  | .leaf _ => 1
  | .node _ children => sizeAll children + 1

/-- The number of nodes of several trees. -/
def sizeAll : List (Derivation S) → Nat
  | [] => 0
  | d :: rest => size d + sizeAll rest

end

theorem sizeAll_le {ds : List (Derivation S)} {n : Nat} (h : ∀ d ∈ ds, d.size ≤ n) : sizeAll ds ≤ ds.length * n := by
  induction ds with
  | nil => exact Nat.zero_le _
  | cons d ds ih =>
    have hd := h d List.mem_cons_self
    have hds := ih fun e he => h e (List.mem_cons_of_mem d he)
    rw [sizeAll, List.length_cons, Nat.succ_mul]
    omega

theorem yield_sublist_yieldAll {d : Derivation S} {ds : List (Derivation S)} (h : d ∈ ds) :
    d.yield.Sublist (yieldAll ds) := by
  obtain ⟨before, behind, rfl⟩ := List.append_of_mem h
  rw [yieldAll_append, yieldAll]
  exact (List.sublist_append_left _ _).trans (List.sublist_append_right _ _)

end Basic

/-- The derivation trees over some productions. -/
inductive Valid (P : Productions) : Derivation Symbol → Prop
  | terminal {s : Symbol} (ht : s.isTerminal = true) (hs : s ≠ Symbol.epsilon) : Valid P (.leaf s)
  | empty {lhs : Symbol} {a : Alternative} (hl : lhs.isNonterminal = true) (hp : P lhs a)
      (he : a.isEpsilon = true) : Valid P (.node lhs [])
  | inner {lhs : Symbol} {a : Alternative} {children : List (Derivation Symbol)} (hl : lhs.isNonterminal = true)
      (hp : P lhs a) (he : a.isEpsilon = false) (hne : children ≠ []) (hs : children.map symbol = a.symbols)
      (hc : ∀ d ∈ children, Valid P d) : Valid P (.node lhs children)

/-- The derivation trees that show alternatives as they are written, the empty derivation being a node of its own. -/
inductive Written (P : Productions) : Derivation Symbol → Prop
  | terminal {s : Symbol} (ht : s.isTerminal = true) (hs : s ≠ Symbol.epsilon) : Written P (.leaf s)
  | epsilon : Written P (.node Symbol.epsilon [])
  | inner {lhs : Symbol} {a : Alternative} {children : List (Derivation Symbol)} (hl : lhs.isNonterminal = true)
      (hp : P lhs a) (hs : children.map symbol = a.symbols) (hc : ∀ d ∈ children, Written P d) :
      Written P (.node lhs children)

variable {P : Productions}

/-- A derivation tree of a nonterminal is no leaf. -/
theorem Valid.exists_node {d : Derivation Symbol} (h : d.Valid P) (hl : d.symbol.isNonterminal = true) :
    ∃ children, d = .node d.symbol children := by
  cases h with
  | terminal ht _ => exact absurd ht (Symbol.not_isTerminal hl)
  | empty _ _ _ => exact ⟨[], rfl⟩
  | inner _ _ _ _ _ _ => exact ⟨_, rfl⟩

end Derivation

/-! ## Trees and generation -/

/-- The empty derivation stands alone in its alternatives. -/
def EpsilonAlone (P : Productions) : Prop :=
  ∀ lhs a, P lhs a → Symbol.epsilon ∈ a.symbols → a.symbols = [Symbol.epsilon]

theorem Alternative.isEpsilon_iff {a : Alternative} : a.isEpsilon = true ↔ ∃ rest, a.symbols = Symbol.epsilon :: rest := by
  rw [isEpsilon, beq_iff_eq, List.head?_eq_some_iff]

theorem Alternative.isEpsilon_cons {s : Symbol} (hs : s ≠ Symbol.epsilon) (symbols : List Symbol)
    (action : Option String) : isEpsilon ⟨s :: symbols, action⟩ = false := by
  rw [Bool.eq_false_iff]
  intro he
  obtain ⟨rest, hrest⟩ := isEpsilon_iff.mp he
  exact hs (List.cons.inj hrest).1

theorem Alternative.arity_of_isEpsilon {a : Alternative} (he : a.isEpsilon = true) : a.arity = 0 := if_pos he

theorem Alternative.arity_of_isEpsilon_eq_false {a : Alternative} (he : a.isEpsilon = false) :
    a.arity = a.symbols.length := by
  rw [arity, he]
  exact if_neg Bool.false_ne_true

theorem EpsilonAlone.symbols_eq {P : Productions} (hP : EpsilonAlone P) {lhs : Symbol} {a : Alternative} (hp : P lhs a)
    (he : a.isEpsilon = true) : a.symbols = [Symbol.epsilon] := by
  obtain ⟨rest, hr⟩ := Alternative.isEpsilon_iff.mp he
  exact hP lhs a hp (hr ▸ List.mem_cons_self)

theorem EpsilonAlone.not_mem {P : Productions} (hP : EpsilonAlone P) {lhs : Symbol} {a : Alternative} (hp : P lhs a)
    (he : a.isEpsilon = false) : Symbol.epsilon ∉ a.symbols := by
  intro hm
  have ht : a.isEpsilon = true := Alternative.isEpsilon_iff.mpr ⟨[], hP lhs a hp hm⟩
  rw [he] at ht
  cases ht

/-- An alternative with a symbol in it is not empty. -/
theorem EpsilonAlone.isEpsilon_eq_false_of_ne {P : Productions} (hP : EpsilonAlone P) {lhs s : Symbol} {a : Alternative}
    (hp : P lhs a) (hs : s ∈ a.symbols) (hne : s ≠ Symbol.epsilon) : a.isEpsilon = false := by
  rw [Bool.eq_false_iff]
  intro he
  rw [hP.symbols_eq hp he, List.mem_singleton] at hs
  exact hne hs

theorem EpsilonAlone.isEpsilon_eq_false {P : Productions} (hP : EpsilonAlone P) {lhs s : Symbol} {a : Alternative}
    (hp : P lhs a) (hs : s ∈ a.symbols) (hnt : s.isNonterminal = true) : a.isEpsilon = false :=
  hP.isEpsilon_eq_false_of_ne hp hs (Symbol.ne_epsilon_of_isNonterminal hnt)

/-- Trees for the symbols of a string spell a string that it derives. -/
theorem generates_of_forest {P : Productions} {ds : List (Derivation Symbol)}
    (h : ∀ d ∈ ds, Generates P [d.symbol] d.yield) :
    Generates P (ds.map Derivation.symbol) (Derivation.yieldAll ds) := by
  induction ds with
  | nil => exact .nil
  | cons d ds ih =>
    have hd := h d List.mem_cons_self
    have hds := ih fun e he => h e (List.mem_cons_of_mem d he)
    exact hd.append hds

/-- **A derivation tree spells what its symbol derives.** -/
theorem Derivation.Valid.generates {P : Productions} (hP : EpsilonAlone P) {d : Derivation Symbol} (h : d.Valid P) :
    Generates P [d.symbol] d.yield := by
  induction h with
  | terminal ht hs => exact .terminal ht hs .nil
  | empty hl hp he =>
    refine .of_alternative hl hp ?_
    rw [hP.symbols_eq hp he]
    exact .epsilon .nil
  | inner hl hp _ _ hs _ ih =>
    refine .of_alternative hl hp ?_
    rw [← hs]
    exact generates_of_forest ih

/-- A tree of written alternatives spells what its symbol derives. -/
theorem Derivation.Written.generates {P : Productions} {d : Derivation Symbol} (h : d.Written P) :
    Generates P [d.symbol] d.yield := by
  induction h with
  | terminal ht hs => exact .terminal ht hs .nil
  | epsilon => exact .epsilon .nil
  | inner hl hp hs _ ih =>
    refine .of_alternative hl hp ?_
    rw [← hs]
    exact generates_of_forest ih

/-- **What a string derives is spelled by trees for its symbols.** -/
theorem exists_derivations {P : Productions} (hP : EpsilonAlone P) (hne : ∀ lhs a, P lhs a → a.symbols ≠ [])
    {α w : List Symbol} (h : Generates P α w) (hα : Symbol.epsilon ∉ α) : ∃ ds : List (Derivation Symbol),
      ds.map Derivation.symbol = α ∧ Derivation.yieldAll ds = w ∧ ∀ d ∈ ds, d.Valid P := by
  induction h with
  | nil =>
    refine ⟨[], rfl, rfl, ?_⟩
    intro d hd
    cases hd
  | epsilon _ _ => exact absurd List.mem_cons_self hα
  | @terminal s rest w ht hs _ ih =>
    obtain ⟨ds, hm, hy, hv⟩ := ih fun hm => hα (List.mem_cons_of_mem s hm)
    refine ⟨.leaf s :: ds, by rw [List.map_cons, hm]; rfl, by rw [Derivation.yieldAll, hy]; rfl, ?_⟩
    intro d hd
    rcases List.mem_cons.mp hd with rfl | hd
    · exact .terminal ht hs
    · exact hv d hd
  | @nonterminal lhs a rest u v hl hp ha _ ih₁ ih₂ =>
    obtain ⟨ds, hm, hy, hv⟩ := ih₂ fun hm => hα (List.mem_cons_of_mem lhs hm)
    obtain ⟨d, hs, hd, hvd⟩ : ∃ d : Derivation Symbol, d.symbol = lhs ∧ d.yield = u ∧ d.Valid P := by
      cases he : a.isEpsilon with
      | true =>
        rw [hP.symbols_eq hp he] at ha
        rw [ha.eq_nil_of_epsilon]
        exact ⟨.node lhs [], rfl, rfl, .empty hl hp he⟩
      | false =>
        obtain ⟨cs, hc, hyc, hvc⟩ := ih₁ (hP.not_mem hp he)
        have hcs : cs ≠ [] := by
          rintro rfl
          exact hne lhs a hp hc.symm
        exact ⟨.node lhs cs, rfl, hyc, .inner hl hp he hcs hc hvc⟩
    refine ⟨d :: ds, by rw [List.map_cons, hs, hm], by rw [Derivation.yieldAll, hd, hy], ?_⟩
    intro e he
    rcases List.mem_cons.mp he with rfl | he
    · exact hvd
    · exact hv e he

/-- What a nonterminal derives is spelled by a derivation tree for it. -/
theorem exists_derivation {P : Productions} (hP : EpsilonAlone P) (hne : ∀ lhs a, P lhs a → a.symbols ≠ [])
    {lhs : Symbol} {w : List Symbol} (hl : lhs.isNonterminal = true) (h : Generates P [lhs] w) :
    ∃ d : Derivation Symbol, d.Valid P ∧ d.symbol = lhs ∧ d.yield = w := by
  have hα : Symbol.epsilon ∉ [lhs] := by
    intro hm
    rw [← List.mem_singleton.mp hm] at hl
    cases hl
  obtain ⟨ds, hm, hy, hv⟩ := exists_derivations hP hne h hα
  obtain ⟨d, rfl, hd⟩ := List.map_eq_singleton_iff.mp hm
  rw [Derivation.yieldAll, Derivation.yieldAll, List.append_nil] at hy
  exact ⟨d, hv d List.mem_cons_self, hd, hy⟩

end TableParser
