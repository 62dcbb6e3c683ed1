import TableParser.Proofs.Factoring
import TableParser.Proofs.Follow
import TableParser.Proofs.LeftRecursion
import TableParser.Proofs.SententialForm

/-!
# FIRST and FOLLOW sets are those of derivations

The passes come to an end, and what they end with is what sentential forms show: a FIRST set holds the terminals that
begin a form derived from the nonterminal (`FirstSets.IsFirst`), a FOLLOW set those that stand right behind the
nonterminal in a form derived from some left-hand side (`FollowSets.IsFollow`). That is so for defined grammars and for
what transformations make of them (`Grammar.TransformsTo`).

* **FOLLOW sets are sound** (`FollowSets.follows_of_mem`): each member comes behind the nonterminal, pass by pass
  (`FollowSets.behind_of_mem`), and what does has a derivation.
* **FOLLOW sets are complete** (`FollowSets.mem_of_follows`): the steps of a derivation keep what comes behind every
  nonterminal of the form within its FOLLOW set (`FollowSets.Covers`).
-/

namespace TableParser

/-! ## Transformed grammars -/

/-- What comes of a grammar by removing left recursion and by left factoring, in any order and any number of times. -/
inductive Grammar.TransformsTo (g : Grammar) : Grammar → Prop
  | refl : TransformsTo g g
  | removeLeftRecursion {h : Grammar} {order : Registry} {t : Transformation} (hh : TransformsTo g h)
      (ht : (h.removeLeftRecursion order).result = .ok t) : TransformsTo g t.grammar
  | leftFactor {h : Grammar} {order : Registry} {t : Transformation} (hh : TransformsTo g h)
      (ht : (h.leftFactor order : Reported Fault Transformation).result = .ok t) : TransformsTo g t.grammar

/-- Transformations rewrite well-formed grammars. -/
theorem Grammar.TransformsTo.rewrites {g g' : Grammar} (h : g.TransformsTo g') (hg : g.WellFormed) :
    Grammar.Rewrites g g' := by
  induction h with
  | refl => exact .refl hg
  | removeLeftRecursion _ ht ih => exact ih.trans (rewrites_of_removeLeftRecursion ih.wellFormed ht)
  | leftFactor _ ht ih => exact ih.trans (retranslates_of_leftFactor ih.wellFormed ht).rewrites

/-- What transformations make of a defined grammar is well-formed. -/
theorem Grammar.TransformsTo.wellFormed_of_define {steps : List DefinitionStep} {g g' : Grammar}
    (h : g.TransformsTo g') (hg : (Grammar.define steps).result = .ok g) : g'.WellFormed :=
  (h.rewrites (TableParser.wellFormed_of_define hg)).wellFormed

/-! ## FIRST sets -/

namespace FirstSets

variable {first : FirstSets} {g g' : Grammar} {s x : Symbol}

/-- The sets are the FIRST sets of the grammar: passes over its rules end with them, and they hold the terminals that
begin the forms derived from a nonterminal, or from any string of symbols, and the empty derivation where the empty form
is derived. -/
structure IsFirst (g : Grammar) (first : FirstSets) : Prop where
  saturates : ∃ passes, Saturates (pass g) .empty first passes
  mem_iff : ∀ lhs t, lhs.isNonterminal = true → t.isTerminal = true → t ≠ Symbol.epsilon →
    (t ∈ first.members lhs ↔ ∃ rest, Derives g.Produces [lhs] (t :: rest))
  epsilon_mem_iff : ∀ lhs, lhs.isNonterminal = true →
    (Symbol.epsilon ∈ first.members lhs ↔ Derives g.Produces [lhs] [])
  mem_ofSequence_iff : ∀ α t, t.isTerminal = true → t ≠ Symbol.epsilon →
    (t ∈ first.ofSequence α ↔ ∃ rest, Derives g.Produces (sententialForm α) (t :: rest))
  epsilon_mem_ofSequence_iff : ∀ α, Symbol.epsilon ∈ first.ofSequence α ↔ Derives g.Produces (sententialForm α) []

/-- A nonterminal by itself begins with the members of its set. -/
theorem mem_sequenceHeads_singleton (hs : s.isNonterminal = true) :
    x ∈ first.sequenceHeads [s] ↔ x ∈ first.members s := by
  rw [mem_sequenceHeads_cons, mem_heads_nonterminal hs, isNullable_nonterminal hs]
  by_cases hx : x = Symbol.epsilon <;> simp [hx, sequenceHeads]

/-- The FIRST sets of a well-formed grammar are what derivations say. -/
theorem isFirst_of_wellFormed (hg : g.WellFormed) : IsFirst g (ofGrammar g) := by
  have hterminal : ∀ α t, t.isTerminal = true → t ≠ Symbol.epsilon →
      (t ∈ (ofGrammar g).sequenceHeads α ↔ ∃ rest, Derives g.Produces (sententialForm α) (t :: rest)) :=
    fun α t ht hne => by rw [mem_iff_begins hg.nonterminal_lhs hne, exists_derives_cons_iff ht hne]
  have hempty : ∀ α, Symbol.epsilon ∈ (ofGrammar g).sequenceHeads α ↔ Derives g.Produces (sententialForm α) [] :=
    fun α => by rw [epsilon_mem_iff hg.nonterminal_lhs, derives_nil_iff]
  -- a nonterminal is a form by itself
  have hform : ∀ lhs : Symbol, lhs.isNonterminal = true → sententialForm [lhs] = [lhs] := fun lhs hl =>
    sententialForm_cons (Symbol.ne_epsilon_of_isNonterminal hl)
  constructor
  case saturates => exact ⟨_, saturates_ofGrammar g⟩
  case mem_iff =>
    intro lhs t hl ht hne
    rw [← mem_sequenceHeads_singleton hl, hterminal [lhs] t ht hne, hform lhs hl]
  case epsilon_mem_iff =>
    intro lhs hl
    rw [← mem_sequenceHeads_singleton hl, hempty, hform lhs hl]
  case mem_ofSequence_iff =>
    intro α t ht hne
    rw [mem_ofSequence, hterminal α t ht hne]
  case epsilon_mem_ofSequence_iff =>
    intro α
    rw [mem_ofSequence, hempty]

/-- **FIRST sets are those of derivations**, for defined grammars and what transformations make of them. -/
theorem isFirst_ofGrammar {steps : List DefinitionStep} (hg : (Grammar.define steps).result = .ok g)
    (h : g.TransformsTo g') : IsFirst g' (ofGrammar g') :=
  isFirst_of_wellFormed (h.wellFormed_of_define hg)

section Layered

open TableParser.Symbol

/-- Lists that may be empty, with alternatives that begin alike, a nonterminal that can vanish in the middle of a form,
and one that has no strings. -/
def layeredSteps : List DefinitionStep := [
  .rule (nonterminal "S") [nonterminal "A", nonterminal "B"] none,
  .rule (nonterminal "A") [terminal "a", nonterminal "A"] none,
  .rule (nonterminal "A") [epsilon] none,
  .rule (nonterminal "B") [nonterminal "B", terminal ",", nonterminal "A"] none,
  .rule (nonterminal "B") [nonterminal "A"] none,
  .rule (nonterminal "B") [nonterminal "A", nonterminal "U", terminal "b"] none,
  .rule (nonterminal "U") [terminal "u", nonterminal "U"] none]

/-- The layers without left recursion and factored: a list begins with what its parts begin with, or is empty. -/
theorem isFirst_ofGrammar_layered : ∃ g t u, (Grammar.define layeredSteps).result = .ok g ∧
    (g.removeLeftRecursion .fresh).result = .ok t ∧
    (t.grammar.leftFactor .fresh : Reported Fault Transformation).result = .ok u ∧
    IsFirst u.grammar (ofGrammar u.grammar) ∧
    (ofGrammar u.grammar).members (nonterminal "B") = [terminal "a", terminal "u", terminal ",", epsilon] ∧
    (ofGrammar u.grammar).members (nonterminal "U") = [terminal "u"] := by
  have heval : ((Grammar.define layeredSteps).result.toOption.any fun g =>
      (g.removeLeftRecursion .fresh).result.toOption.any fun t =>
        (t.grammar.leftFactor .fresh : Reported Fault Transformation).result.toOption.any fun u =>
          (ofGrammar u.grammar).members (nonterminal "B") = [terminal "a", terminal "u", terminal ",", epsilon] ∧
          (ofGrammar u.grammar).members (nonterminal "U") = [terminal "u"]) = true := by rfl
  obtain ⟨g, hg, heval⟩ := exists_ok_of_any heval
  obtain ⟨t, ht, heval⟩ := exists_ok_of_any heval
  obtain ⟨u, hu, heval⟩ := exists_ok_of_any heval
  exact ⟨g, t, u, hg, ht, hu, isFirst_ofGrammar hg (.leftFactor (.removeLeftRecursion .refl ht) hu),
    of_decide_eq_true heval⟩

end Layered

end FirstSets

/-! ## FOLLOW sets -/

/-- A nonterminal of an alternative appears in a form that its left-hand side derives, and what is behind it there goes
on deriving. -/
theorem Derives.of_occurrence {P : Productions} {lhs s : Symbol} {a : Alternative} {α β v : List Symbol}
    (hl : lhs.isNonterminal = true) (hp : P lhs a) (ha : a.symbols = α ++ s :: β) (hs : s.isNonterminal = true)
    (hv : Derives P (sententialForm β) v) : Derives P [lhs] (sententialForm α ++ s :: v) := by
  have hform : sententialForm a.symbols = sententialForm α ++ s :: sententialForm β := by
    rw [ha, sententialForm_append, sententialForm_cons (Symbol.ne_epsilon_of_isNonterminal hs)]
  have hbehind := hv.frame (sententialForm α ++ [s]) []
  simp only [List.append_nil, List.append_assoc, List.singleton_append] at hbehind
  exact (hform ▸ Derives.of_alternative hl hp).trans hbehind

/-- An occurrence in a concatenation is in one of its parts. -/
theorem occurrence_cases {α β γ δ : List Symbol} {s : Symbol} (h : α ++ β = γ ++ s :: δ) :
    (∃ δ', α = γ ++ s :: δ' ∧ δ = δ' ++ β) ∨ ∃ γ', γ = α ++ γ' ∧ β = γ' ++ s :: δ := by
  rcases List.append_eq_append_iff.mp h with ⟨γ', hγ, hβ⟩ | ⟨δ', hα, hδ⟩
  · exact .inr ⟨γ', hγ, hβ⟩
  · cases δ' with
    | nil => exact .inr ⟨[], by simpa using hα.symm, hδ.symm⟩
    | cons u δ' =>
      obtain ⟨rfl, rfl⟩ := List.cons.inj hδ
      exact .inl ⟨δ', hα, rfl⟩

namespace FollowSets

variable {first : FirstSets} {follow : FollowSets} {g g' : Grammar} {P : Productions} {start lhs s t x : Symbol}
  {α β ω : List Symbol}

/-- Some left-hand side derives a form in which the terminal stands right behind the nonterminal, or the terminal is the
end marker and the start symbol derives a form with the nonterminal at its end. -/
def Follows (g : Grammar) (start s t : Symbol) : Prop :=
  (∃ lhs ∈ g.lhsSymbols, ∃ α β, Derives g.Produces [lhs] (α ++ s :: t :: β)) ∨
    t = Symbol.endMarker ∧ ∃ α, Derives g.Produces [start] (α ++ [s])

/-- The sets are the FOLLOW sets of the grammar with these FIRST sets: passes over its rules end with them, they hold the
terminals that derivations bring behind a nonterminal, and the empty derivation is in none. -/
structure IsFollow (g : Grammar) (first : FirstSets) (start : Symbol) (follow : FollowSets) : Prop where
  saturates : ∃ passes, Saturates (pass g first) (seed start) follow passes
  mem_iff : ∀ s t, s.isNonterminal = true → t.isTerminal = true →
    (t ∈ SymbolSets.members follow s ↔ Follows g start s t)
  epsilon_not_mem : ∀ s, Symbol.epsilon ∉ SymbolSets.members follow s

/-! ### Soundness -/

/-- What follows a left-hand side follows an occurrence behind which the alternative vanishes. -/
theorem Follows.of_vanish {a : Alternative} (h : Follows g start lhs x) (hl : lhs.isNonterminal = true)
    (hp : g.Produces lhs a) (ha : a.symbols = α ++ s :: β) (hs : s.isNonterminal = true)
    (hβ : Generates g.Produces β []) : Follows g start s x := by
  have hlast : Derives g.Produces [lhs] (sententialForm α ++ [s]) := .of_occurrence hl hp ha hs hβ.derives
  rcases h with ⟨top, htop, γ, δ, hd⟩ | ⟨rfl, γ, hd⟩
  · refine .inl ⟨top, htop, γ ++ sententialForm α, δ, ?_⟩
    have hstep := hd.trans (hlast.frame γ (x :: δ))
    simpa only [List.append_assoc, List.singleton_append] using hstep
  · refine .inr ⟨rfl, γ ++ sententialForm α, ?_⟩
    have hstep := hd.trans (hlast.frame γ [])
    simpa only [List.append_assoc, List.append_nil] using hstep

/-- The terminal comes behind the nonterminal: as the end marker behind the start symbol, as a beginning of what is
behind the nonterminal in an alternative, or behind the left-hand side if that vanishes. -/
inductive Behind (P : Productions) (start : Symbol) : Symbol → Symbol → Prop
  | endMarker : Behind P start start Symbol.endMarker
  | begins {lhs s t : Symbol} {a : Alternative} {α β : List Symbol} (hp : P lhs a) (ha : a.symbols = α ++ s :: β)
      (hs : s.isNonterminal = true) (hb : Begins P β t) : Behind P start s t
  | vanishes {lhs s t : Symbol} {a : Alternative} {α β : List Symbol} (hp : P lhs a) (ha : a.symbols = α ++ s :: β)
      (hs : s.isNonterminal = true) (hv : Generates P β []) (h : Behind P start lhs t) : Behind P start s t

theorem Behind.isTerminal (h : Behind P start s t) : t.isTerminal = true := by
  induction h with
  | endMarker => rfl
  | begins _ _ _ hb => exact hb.isTerminal.1
  | vanishes _ _ _ _ _ ih => exact ih

/-- What comes behind a nonterminal has derivations. -/
theorem Behind.follows (hg : g.WellFormed) (h : Behind g.Produces start s t) : Follows g start s t := by
  induction h with
  | endMarker => exact .inr ⟨rfl, [], .refl⟩
  | begins hp ha hs hb =>
    obtain ⟨rest, hd⟩ := hb.exists_derives
    exact .inl ⟨_, hp.mem_lhsSymbols, _, rest, .of_occurrence (hg.nonterminal hp) hp ha hs hd⟩
  | vanishes hp ha hs hv _ ih => exact ih.of_vanish (hg.nonterminal hp) hp ha hs hv

/-- **Members of FOLLOW sets come behind their nonterminals**: the seed does, and each occurrence adds members that do. -/
theorem behind_of_mem (hg : g.WellFormed) (h : ofGrammar g (.ofGrammar g) = .ok follow) (hstart : g.start = .ok start)
    (hx : x ∈ SymbolSets.members follow s) : Behind g.Produces start s x := by
  refine ofGrammar_induction
    (motive := fun follow => ∀ s x, x ∈ SymbolSets.members follow s → Behind g.Produces start s x) h ?_ ?_ s x hx
  · intro start' hstart' s x hx
    rw [hstart] at hstart'
    cases hstart'
    rcases SymbolSets.mem_members_add.mp hx with hold | ⟨rfl, hnew⟩
    · exact absurd hold SymbolSets.not_mem_members_empty
    · exact List.mem_singleton.mp hnew ▸ .endMarker
  · intro lhs a α s β follow hp ha hs ih k x hx
    rcases SymbolSets.mem_members_add.mp hx with hold | ⟨rfl, hnew⟩
    · exact ih k x hold
    rcases mem_behind.mp hnew with ⟨hhead, hne⟩ | ⟨hnull, hx⟩
    · exact .begins hp ha hs ((FirstSets.mem_iff_begins hg.nonterminal_lhs hne).mp hhead)
    · exact .vanishes hp ha hs ((FirstSets.epsilon_mem_iff hg.nonterminal_lhs).mp hnull) (ih lhs x hx)

/-- **Members of FOLLOW sets have derivations.** -/
theorem follows_of_mem (hg : g.WellFormed) (h : ofGrammar g (.ofGrammar g) = .ok follow) (hstart : g.start = .ok start)
    (hx : x ∈ SymbolSets.members follow s) : Follows g start s x := (behind_of_mem hg h hstart hx).follows hg

/-! ### Completeness -/

/-- What comes behind each nonterminal of the form is in its FOLLOW set: what the rest of the form begins with and, if
that can vanish, what follows the nonterminal that the form is derived from. -/
def Covers (P : Productions) (follow : FollowSets) (lhs : Symbol) (ω : List Symbol) : Prop :=
  ∀ γ s δ, ω = γ ++ s :: δ → s.isNonterminal = true →
    ∀ x, Begins P δ x ∨ Generates P δ [] ∧ x ∈ SymbolSets.members follow lhs → x ∈ SymbolSets.members follow s

theorem Covers.refl (P : Productions) (follow : FollowSets) (lhs : Symbol) : Covers P follow lhs [lhs] := by
  intro γ s δ heq _ x hx
  obtain ⟨rfl, rfl, rfl⟩ : γ = [] ∧ s = lhs ∧ δ = [] := by simpa [List.singleton_eq_append_iff] using heq
  rcases hx with hx | ⟨_, hx⟩
  · cases hx
  · exact hx

/-- **A step of a derivation** brings nothing behind a nonterminal that is not in its FOLLOW set. -/
theorem Covers.step {ω' : List Symbol} (hfollow : Closed first follow P) (hfirst : FirstSets.Closed first P)
    (h : Covers P follow lhs ω) (hs : DerivationStep P ω ω') : Covers P follow lhs ω' := by
  obtain ⟨μ, ν, hl, hp⟩ := hs
  rename_i top a
  intro γ s δ heq hnt x hx
  rcases occurrence_cases heq with ⟨δ', rfl, rfl⟩ | ⟨γ', rfl, hrest⟩
  · -- the nonterminal stands before the alternative: the step is undone behind it
    have hback := DerivationStep.expand δ' ν hl hp
    refine h γ s (δ' ++ top :: ν) (by simp) hnt x (hx.imp hback.begins fun hx => ⟨hback.generates hx.1, hx.2⟩)
  rcases occurrence_cases hrest with ⟨δ', ha, rfl⟩ | ⟨γ'', rfl, rfl⟩
  · -- the nonterminal stands in the alternative
    obtain ⟨α, β, ha', rfl, rfl⟩ := exists_of_sententialForm_eq ha
    have htop : (Begins P ν x ∨ Generates P ν [] ∧ x ∈ SymbolSets.members follow lhs) →
        x ∈ SymbolSets.members follow top := fun hx => h μ top ν rfl hl x hx
    rcases hx with hx | ⟨hvanish, hx⟩
    · rcases Begins.append_iff.mp hx with hx | ⟨hβ, hx⟩
      · exact hfollow.mem_of_begins hfirst hp ha' hnt (begins_sententialForm.mp hx)
      · exact hfollow.mem_of_vanish hfirst hp ha' hnt (generates_sententialForm.mp hβ) (htop (.inl hx))
    · obtain ⟨hβ, hν⟩ := Generates.append_nil_iff.mp hvanish
      exact hfollow.mem_of_vanish hfirst hp ha' hnt (generates_sententialForm.mp hβ) (htop (.inr ⟨hν, hx⟩))
  · -- the nonterminal stands behind the alternative
    exact h (μ ++ top :: γ'') s δ (by simp) hnt x hx

theorem Covers.derives (hfollow : Closed first follow P) (hfirst : FirstSets.Closed first P)
    (h : Derives P [lhs] ω) : Covers P follow lhs ω := by
  induction h with
  | refl => exact .refl P follow lhs
  | tail _ hs ih => exact ih.step hfollow hfirst hs

/-- **What derivations bring behind a nonterminal is in its FOLLOW set.** -/
theorem mem_of_follows (hg : g.WellFormed) (h : ofGrammar g (.ofGrammar g) = .ok follow) (hstart : g.start = .ok start)
    (hs : s.isNonterminal = true) (ht : t.isTerminal = true) (hfollows : Follows g start s t) :
    t ∈ SymbolSets.members follow s := by
  have hfirst := FirstSets.closed_ofGrammar g
  have hfollow := closed_ofGrammar (FirstSets.members_ofGrammar_subset g) h
  rcases hfollows with ⟨lhs, hlhs, α, β, hd⟩ | ⟨rfl, α, hd⟩
  · have hl := hg.isNonterminal_of_mem (Grammar.mem_nonterminals.mpr (.inl hlhs))
    have hne : t ≠ Symbol.epsilon := by
      rintro rfl
      refine hd.epsilon_not_mem ?_ (by simp)
      exact fun hmem => Symbol.ne_epsilon_of_isNonterminal hl (List.mem_singleton.mp hmem).symm
    exact Covers.derives hfollow hfirst hd α s (t :: β) rfl hs t (.inl (.terminal ht hne))
  · exact Covers.derives hfollow hfirst hd α s [] rfl hs _ (.inr ⟨.nil, endMarker_mem h hstart⟩)

/-- **FOLLOW sets are those of derivations**, for defined grammars and what transformations make of them. -/
theorem isFollow_ofGrammar {steps : List DefinitionStep} (hg : (Grammar.define steps).result = .ok g)
    (h : g.TransformsTo g') : ∃ start follow, g'.start = .ok start ∧
      ofGrammar g' (.ofGrammar g') = .ok follow ∧ IsFollow g' (.ofGrammar g') start follow := by
  have hwell := h.wellFormed_of_define hg
  obtain ⟨r, _, hstart⟩ := hwell.exists_start
  obtain ⟨follow, passes, hconverge, hsaturates⟩ :=
    saturates_ofGrammar (FirstSets.members_ofGrammar_subset g') hstart
  have hfollow : ofGrammar g' (.ofGrammar g') = .ok follow := congrArg (Except.map Prod.fst) hconverge
  exact ⟨r.lhs, follow, hstart, hfollow, ⟨passes, hsaturates⟩,
    fun s t hs ht => ⟨follows_of_mem hwell hfollow hstart, mem_of_follows hwell hfollow hstart hs ht⟩,
    epsilon_not_mem hfollow⟩

open TableParser.Symbol in
/-- Behind a list in the factored layers comes another one, a separator, the nonterminal without strings, or the end. -/
theorem isFollow_ofGrammar_layered : ∃ g t u, (Grammar.define FirstSets.layeredSteps).result = .ok g ∧
    (g.removeLeftRecursion .fresh).result = .ok t ∧
    (t.grammar.leftFactor .fresh : Reported Fault Transformation).result = .ok u ∧
    ∃ start follow, u.grammar.start = .ok start ∧ ofGrammar u.grammar (.ofGrammar u.grammar) = .ok follow ∧
      IsFollow u.grammar (.ofGrammar u.grammar) start follow ∧
      SymbolSets.members follow (nonterminal "A") = [terminal "a", terminal "u", terminal ",", endMarker] ∧
      SymbolSets.members follow (nonterminal "U") = [terminal "b"] := by
  have heval : ((Grammar.define FirstSets.layeredSteps).result.toOption.any fun g =>
      (g.removeLeftRecursion .fresh).result.toOption.any fun t =>
        (t.grammar.leftFactor .fresh : Reported Fault Transformation).result.toOption.any fun u =>
          (ofGrammar u.grammar (.ofGrammar u.grammar)).toOption.any fun follow =>
            SymbolSets.members follow (nonterminal "A") = [terminal "a", terminal "u", terminal ",", endMarker] ∧
            SymbolSets.members follow (nonterminal "U") = [terminal "b"]) = true := by rfl
  obtain ⟨g, hg, heval⟩ := exists_ok_of_any heval
  obtain ⟨t, ht, heval⟩ := exists_ok_of_any heval
  obtain ⟨u, hu, heval⟩ := exists_ok_of_any heval
  obtain ⟨follow, hfollow, heval⟩ := exists_ok_of_any heval
  obtain ⟨start, follow', hstart, hfollow', hexact⟩ :=
    isFollow_ofGrammar hg (.leftFactor (.removeLeftRecursion .refl ht) hu)
  obtain rfl := Except.ok.inj (hfollow'.symm.trans hfollow)
  exact ⟨g, t, u, hg, ht, hu, start, follow', hstart, hfollow, hexact, of_decide_eq_true heval⟩

end FollowSets
end TableParser
