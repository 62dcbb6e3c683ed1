import TableParser.Analysis.Follow
import TableParser.Proofs.First

/-!
# FOLLOW sets are closed

What can come behind an occurrence of a nonterminal is in its FOLLOW set (`FollowSets.closed_ofGrammar`): what the rest
of the alternative can begin with, and what follows the left-hand side if the rest can vanish. The end marker follows
the start symbol, and the empty derivation follows nothing.
-/

namespace TableParser
namespace FollowSets

variable {first : FirstSets} {follow other : FollowSets} {g : Grammar} {lhs s x : Symbol} {β symbols : List Symbol}

/-! ## Occurrences -/

/-- What an occurrence of a symbol before the rest of an alternative adds to its set. -/
def behind (first : FirstSets) (lhs : Symbol) (follow : FollowSets) (rest : List Symbol) : List Symbol :=
  (first.ofSequence rest).filter (· != Symbol.epsilon) ++
    if (first.ofSequence rest).contains Symbol.epsilon then SymbolSets.members follow lhs else []

theorem mem_behind : x ∈ behind first lhs follow β ↔
    x ∈ first.sequenceHeads β ∧ x ≠ Symbol.epsilon ∨
      Symbol.epsilon ∈ first.sequenceHeads β ∧ x ∈ SymbolSets.members follow lhs := by
  unfold behind
  rw [List.mem_append, List.mem_filter, FirstSets.mem_ofSequence, bne_iff_ne]
  refine or_congr_right ?_
  split
  · rename_i h
    have he := FirstSets.mem_ofSequence.mp (List.contains_iff_mem.mp h)
    exact (and_iff_right he).symm
  · rename_i h
    have he : Symbol.epsilon ∉ first.sequenceHeads β := fun he =>
      h (List.contains_iff_mem.mpr (FirstSets.mem_ofSequence.mpr he))
    exact ⟨fun hx => absurd hx List.not_mem_nil, fun hx => absurd hx.1 he⟩

theorem adding_updateOccurrence (first : FirstSets) (lhs s : Symbol) (β : List Symbol) :
    SymbolSets.Adding fun follow => updateOccurrence first lhs follow s β :=
  .add s fun follow => behind first lhs follow β

theorem adding_updateSymbols (first : FirstSets) (lhs : Symbol) (symbols : List Symbol) :
    SymbolSets.Adding fun follow => updateSymbols first lhs follow symbols := by
  induction symbols with
  | nil => exact .id
  | cons s rest ih =>
    unfold updateSymbols
    split
    · exact ih
    · exact (adding_updateOccurrence first lhs s rest).comp ih

theorem adding_updateRule (first : FirstSets) (r : Rule) :
    SymbolSets.Adding fun follow => updateRule first follow r :=
  .foldl fun a _ => adding_updateSymbols first r.lhs a.symbols

theorem adding_update (g : Grammar) (first : FirstSets) : SymbolSets.Adding fun follow => update follow first g :=
  .foldl fun r _ => adding_updateRule first r

/-- What is kept by the additions for occurrences is kept by a pass. -/
theorem update_induction {motive : FollowSets → Prop}
    (hocc : ∀ lhs a α s β follow, g.Produces lhs a → a.symbols = α ++ s :: β → s.isNonterminal = true →
      motive follow → motive (updateOccurrence first lhs follow s β)) (h : motive follow) :
    motive (update follow first g) := by
  have hsymbols : ∀ lhs a, g.Produces lhs a → ∀ rest α, a.symbols = α ++ rest →
      ∀ follow, motive follow → motive (updateSymbols first lhs follow rest) := by
    intro lhs a hp rest
    induction rest with
    | nil => exact fun _ _ _ h => h
    | cons s rest ih =>
      intro α hα follow h
      have hα' : a.symbols = (α ++ [s]) ++ rest := by rw [hα, List.append_assoc, List.singleton_append]
      unfold updateSymbols
      split
      · exact ih _ hα' follow h
      · rename_i ht
        have hs := Symbol.isTerminal_eq_false_iff.mp (Bool.eq_false_iff.mpr ht)
        exact ih _ hα' _ (hocc lhs a α s rest follow hp hα hs h)
  refine List.foldlRecOn (motive := motive) g.rules (updateRule first) h ?_
  intro follow h r hr
  refine List.foldlRecOn (motive := motive) r.alternatives _ h ?_
  intro follow h a ha
  exact hsymbols r.lhs a ⟨r, hr, rfl, ha⟩ a.symbols [] rfl follow h

/-- Sets to which no occurrence in a string adds anything. -/
theorem exists_stable_occurrence (h : (updateSymbols first lhs follow symbols).size = SymbolSets.size follow) :
    ∀ α s β, symbols = α ++ s :: β → s.isNonterminal = true → ∃ u : FollowSets,
      (∀ k, u.members k = SymbolSets.members follow k) ∧ (updateOccurrence first lhs u s β).size = u.size := by
  induction symbols generalizing follow with
  | nil =>
    intro α s β hs
    cases α <;> cases hs
  | cons u rest ih =>
    intro α s β hα hs
    unfold updateSymbols at h
    split at h
    · rename_i ht
      cases α with
      | nil =>
        obtain ⟨rfl, rfl⟩ := List.cons.inj hα
        exact absurd ht (Symbol.not_isTerminal hs)
      | cons v α => exact ih h α s β (List.cons.inj hα).2 hs
    · have h₁ := (adding_updateOccurrence first lhs u rest).size_le follow
      have h₂ := (adding_updateSymbols first lhs rest).size_le (updateOccurrence first lhs follow u rest)
      have hsame : (updateOccurrence first lhs follow u rest).size = SymbolSets.size follow := by omega
      cases α with
      | nil =>
        obtain ⟨rfl, rfl⟩ := List.cons.inj hα
        exact ⟨follow, fun _ => rfl, hsame⟩
      | cons v α =>
        have hrest : (updateSymbols first lhs (updateOccurrence first lhs follow u rest) rest).size =
            SymbolSets.size (updateOccurrence first lhs follow u rest) := by omega
        obtain ⟨w, hw, hsize⟩ := ih hrest α s β (List.cons.inj hα).2 hs
        have hsets := (adding_updateOccurrence first lhs u rest).members_eq follow hsame
        exact ⟨w, fun k => (hw k).trans (hsets k), hsize⟩

/-! ## Closed sets -/

/-- The set of each nonterminal holds what can come behind its occurrences. -/
def Closed (first : FirstSets) (follow : FollowSets) (P : Productions) : Prop :=
  ∀ lhs a α s β, P lhs a → a.symbols = α ++ s :: β → s.isNonterminal = true →
    ∀ x ∈ behind first lhs follow β, x ∈ SymbolSets.members follow s

theorem closed_congr {P : Productions} (h : ∀ k, SymbolSets.members follow k = SymbolSets.members other k)
    (hf : Closed first follow P) : Closed first other P := by
  intro lhs a α s β hp hα hs x hx
  rw [mem_behind, ← h lhs] at hx
  rw [← h s]
  exact hf lhs a α s β hp hα hs x (mem_behind.mpr hx)

/-- Sets that a pass does not add to are closed. -/
theorem closed_of_size_update (h : (update follow first g).size = SymbolSets.size follow) :
    Closed first follow g.Produces := by
  rintro _ a α s β ⟨r, hr, rfl, ha⟩ hα hs x hx
  obtain ⟨u, hu, hsize⟩ := SymbolSets.exists_stable (fun r _ => adding_updateRule first r) h r hr
  obtain ⟨v, hv, hsize⟩ :=
    SymbolSets.exists_stable (fun (a : Alternative) _ => adding_updateSymbols first r.lhs a.symbols) hsize a ha
  obtain ⟨w, hw, hsize⟩ := exists_stable_occurrence hsize α s β hα hs
  have hall : ∀ k, SymbolSets.members w k = SymbolSets.members follow k := fun k =>
    ((hw k).trans (hv k)).trans (hu k)
  rw [← hall s]
  refine SymbolSets.subset_of_size_add hsize x ?_
  rw [mem_behind, ← hall r.lhs] at hx
  exact mem_behind.mpr hx

/-! ## The sets of a grammar -/

/-- Nothing but the end marker behind the start symbol. -/
theorem within_seed {start : Symbol} (hstart : g.start = .ok start) :
    SymbolSets.Within g.nonterminals (Symbol.endMarker :: g.terminals) (seed start) := by
  refine SymbolSets.Within.empty.add ?_ ?_
  · refine Grammar.mem_nonterminals.mpr (.inl ?_)
    unfold Grammar.start at hstart
    unfold Grammar.lhsSymbols
    cases hrules : g.rules with
    | nil =>
      rw [hrules] at hstart
      cases hstart
    | cons r rules =>
      rw [hrules] at hstart
      cases hstart
      exact List.mem_cons_self
  · intro x hx
    rw [List.mem_singleton.mp hx]
    exact List.mem_cons_self

section OfGrammar

variable (hfirst : ∀ k, ∀ x ∈ SymbolSets.members first k, x ∈ Symbol.epsilon :: g.terminals)
include hfirst

theorem within_update (h : SymbolSets.Within g.nonterminals (Symbol.endMarker :: g.terminals) follow) :
    SymbolSets.Within g.nonterminals (Symbol.endMarker :: g.terminals) (update follow first g) := by
  refine update_induction
    (motive := fun follow => SymbolSets.Within g.nonterminals (Symbol.endMarker :: g.terminals) follow) ?_ h
  intro lhs a α s β follow hp hα hs hfollow
  have hmem : ∀ u ∈ s :: β, u ∈ a.symbols := fun u hu => hα ▸ List.mem_append_right α hu
  have hadd : ∀ x ∈ behind first lhs follow β, x ∈ Symbol.endMarker :: g.terminals := by
    intro x hx
    rcases mem_behind.mp hx with ⟨hx, hne⟩ | ⟨_, hx⟩
    · have hvalue : x ∈ Symbol.epsilon :: g.terminals := by
        refine FirstSets.mem_of_mem_sequenceHeads hfirst List.mem_cons_self ?_ x hx
        intro u hu ht
        have hterminal := Grammar.mem_terminals.mpr ⟨ht, lhs, a, hp, hmem u (List.mem_cons_of_mem s hu)⟩
        exact List.mem_cons_of_mem _ hterminal
      exact List.mem_cons_of_mem _ ((List.mem_cons.mp hvalue).resolve_left hne)
    · exact hfollow.members x hx
  exact hfollow.add (Grammar.mem_nonterminals.mpr (.inr ⟨hs, lhs, a, hp, hmem s List.mem_cons_self⟩)) hadd

/-- **The passes over a grammar come to an end** with its FOLLOW sets. -/
theorem saturates_ofGrammar {start : Symbol} (hstart : g.start = .ok start) : ∃ (follow : FollowSets) (passes : Nat),
    converge g first = .ok (follow, passes) ∧ Saturates (pass g first) (seed start) follow passes := by
  have hroom : ∀ follow : FollowSets, SymbolSets.Within g.nonterminals (Symbol.endMarker :: g.terminals) follow →
      SymbolSets.size follow ≤ g.nonterminals.length * (g.terminals.length + 1) := fun _ h => h.size_le
  have hfuel : g.nonterminals.length * (g.terminals.length + 1) <
      SymbolSets.size (seed start) + passBound g first := by
    have := Nat.mul_le_mul_left g.nonterminals.length
      (show g.terminals.length + 1 ≤ g.terminals.length + SymbolSets.size first + 1 by omega)
    unfold passBound
    omega
  have hsaturates := saturates_saturate (pass g first) SymbolSets.size (within_seed hstart)
    (fun _ h => within_update hfirst h) (fun _ h => SymbolSets.grew_iff.mp h) hroom hfuel
  refine ⟨_, _, ?_, hsaturates⟩
  rw [converge, hstart]
  rfl

/-- The passes over a grammar end with one that adds nothing. -/
theorem exists_last_update {start : Symbol} (hstart : g.start = .ok start) : ∃ follow : FollowSets,
    ofGrammar g first = .ok (update follow first g) ∧ (update follow first g).size = SymbolSets.size follow := by
  obtain ⟨sets, _, hconverge, hsaturates⟩ := saturates_ofGrammar hfirst hstart
  obtain ⟨follow, _, hpass⟩ := hsaturates.exists_last (within_seed hstart) fun _ h => within_update hfirst h
  obtain ⟨rfl, hgrew⟩ := Prod.mk.inj hpass
  refine ⟨follow, congrArg (Except.map Prod.fst) hconverge, ?_⟩
  have hle := (adding_update g first).size_le follow
  have hnot : ¬SymbolSets.size follow < (update follow first g).size := by
    rw [← SymbolSets.grew_iff, hgrew]
    exact Bool.false_ne_true
  omega

/-- **The FOLLOW sets of a grammar are closed.** -/
theorem closed_ofGrammar (h : ofGrammar g first = .ok follow) : Closed first follow g.Produces := by
  cases hstart : g.start with
  | error f =>
    rw [ofGrammar, converge, hstart] at h
    cases h
  | ok start =>
    obtain ⟨last, heq, hsize⟩ := exists_last_update hfirst hstart
    rw [heq] at h
    cases h
    exact closed_congr (fun k => ((adding_update g first).members_eq last hsize k).symm) (closed_of_size_update hsize)

end OfGrammar

/-- The report on FOLLOW sets gives the FOLLOW sets. -/
theorem result_report (g : Grammar) (first : FirstSets) : (report g first).result = ofGrammar g first := by
  unfold report ofGrammar
  rw [Trail.result_bind]
  show converge g first >>= _ = _
  cases converge g first with
  | error f => rfl
  | ok found => rfl

/-- What holds of the seed and is kept by occurrences holds of the FOLLOW sets. -/
theorem ofGrammar_induction {motive : FollowSets → Prop} (h : ofGrammar g first = .ok follow)
    (hseed : ∀ start, g.start = .ok start → motive (seed start))
    (hocc : ∀ lhs a α s β follow, g.Produces lhs a → a.symbols = α ++ s :: β → s.isNonterminal = true →
      motive follow → motive (updateOccurrence first lhs follow s β)) : motive follow := by
  cases hstart : g.start with
  | error f =>
    rw [ofGrammar, converge, hstart] at h
    cases h
  | ok start =>
    rw [ofGrammar, converge, hstart] at h
    cases h
    exact saturate_induction (pass g first) (fun _ ha => update_induction hocc ha) (hseed start hstart) _

/-- The end marker follows the start symbol. -/
theorem endMarker_mem {start : Symbol} (h : ofGrammar g first = .ok follow) (hstart : g.start = .ok start) :
    Symbol.endMarker ∈ SymbolSets.members follow start := by
  refine ofGrammar_induction (motive := fun follow => Symbol.endMarker ∈ SymbolSets.members follow start) h ?_ ?_
  · intro start' hstart'
    rw [hstart] at hstart'
    cases hstart'
    exact SymbolSets.mem_members_add.mpr (.inr ⟨rfl, List.mem_singleton.mpr rfl⟩)
  · intro lhs a α s β follow _ _ _ hf
    exact SymbolSets.mem_members_add.mpr (.inl hf)

/-- FOLLOW sets list no member twice. -/
theorem nodup_members (h : ofGrammar g first = .ok follow) (k : Symbol) : (SymbolSets.members follow k).Nodup := by
  have hadd : ∀ {t : FollowSets} {s : Symbol} {added : List Symbol}, (∀ k, (SymbolSets.members t k).Nodup) →
      ∀ k, (SymbolSets.members (SymbolSets.add t s added) k).Nodup := by
    intro t s added ht k
    rw [SymbolSets.members_add]
    split
    · exact nodup_insertSymbols (ht k) added
    · exact ht k
  refine ofGrammar_induction (motive := fun follow => ∀ k, (SymbolSets.members follow k).Nodup) h ?_ ?_ k
  · exact fun start _ => hadd fun _ => .nil
  · exact fun lhs a α s β follow _ _ _ hf => hadd hf

/-- The empty derivation follows nothing. -/
theorem epsilon_not_mem (h : ofGrammar g first = .ok follow) (k : Symbol) :
    Symbol.epsilon ∉ SymbolSets.members follow k := by
  refine ofGrammar_induction (motive := fun follow => ∀ k, Symbol.epsilon ∉ SymbolSets.members follow k) h ?_ ?_ k
  · intro start _ k hk
    rcases SymbolSets.mem_members_add.mp hk with hk | ⟨_, hk⟩
    · exact SymbolSets.not_mem_members_empty hk
    · exact absurd (List.mem_singleton.mp hk) (by decide)
  · intro lhs a α s β follow _ _ _ hf k hk
    rcases SymbolSets.mem_members_add.mp hk with hk | ⟨_, hk⟩
    · exact hf k hk
    · rcases mem_behind.mp hk with ⟨_, hne⟩ | ⟨_, hk⟩
      · exact hne rfl
      · exact hf lhs hk

/-! ## What comes behind an occurrence -/

section Behind

variable {P : Productions} {t : Symbol} {a : Alternative} {α : List Symbol}

/-- What the rest of an alternative begins with follows the occurrence before it. -/
theorem Closed.mem_of_begins (h : Closed first follow P) (hfirst : FirstSets.Closed first P) (hp : P lhs a)
    (ha : a.symbols = α ++ s :: β) (hs : s.isNonterminal = true) (hb : Begins P β t) :
    t ∈ SymbolSets.members follow s :=
  h lhs a α s β hp ha hs t (mem_behind.mpr (.inl ⟨hfirst.mem_of_begins hb, hb.isTerminal.2⟩))

/-- What follows a left-hand side follows the last symbol of its alternative that does not vanish, and those behind. -/
theorem Closed.mem_of_vanish (h : Closed first follow P) (hfirst : FirstSets.Closed first P) (hp : P lhs a)
    (ha : a.symbols = α ++ s :: β) (hs : s.isNonterminal = true) (hv : Generates P β [])
    (hx : x ∈ SymbolSets.members follow lhs) : x ∈ SymbolSets.members follow s :=
  h lhs a α s β hp ha hs x (mem_behind.mpr (.inr ⟨hfirst.epsilon_mem hv, hx⟩))

/-- The symbol that comes first, or the end marker if there is none. -/
def lookahead (w : List Symbol) : Symbol := w.head?.getD Symbol.endMarker

/-- **The lookahead behind an occurrence** is in its FOLLOW set, if that behind the alternative is in the FOLLOW set of
the left-hand side. -/
theorem Closed.lookahead_mem (h : Closed first follow P) (hfirst : FirstSets.Closed first P) (hp : P lhs a)
    (ha : a.symbols = α ++ s :: β) (hs : s.isNonterminal = true) {v w : List Symbol} (hv : Generates P β v)
    (hw : lookahead w ∈ SymbolSets.members follow lhs) : lookahead (v ++ w) ∈ SymbolSets.members follow s := by
  cases v with
  | nil => exact h.mem_of_vanish hfirst hp ha hs hv hw
  | cons t v => exact h.mem_of_begins hfirst hp ha hs (.of_generates hv)

/-- What comes behind each nonterminal of a string, if the terminals `w` come behind the string, is in its FOLLOW set. -/
def Followed (P : Productions) (follow : FollowSets) (α w : List Symbol) : Prop :=
  ∀ β s γ v, α = β ++ s :: γ → s.isNonterminal = true → Generates P γ v →
    lookahead (v ++ w) ∈ SymbolSets.members follow s

/-- An alternative is followed by what follows its left-hand side. -/
theorem Closed.followed (h : Closed first follow P) (hfirst : FirstSets.Closed first P) (hp : P lhs a)
    {w : List Symbol} (hw : lookahead w ∈ SymbolSets.members follow lhs) : Followed P follow a.symbols w :=
  fun _ _ _ _ ha hs hv => h.lookahead_mem hfirst hp ha hs hv hw

namespace Followed

variable {v w : List Symbol}

/-- The end of a string is followed by what follows the string. -/
theorem behind (h : Followed P follow (α ++ β) w) : Followed P follow β w :=
  fun γ s δ v hβ => h (α ++ γ) s δ v (by rw [hβ, List.append_assoc])

/-- The beginning of a string is followed by what its end derives. -/
theorem before (h : Followed P follow (α ++ β) w) (hv : Generates P β v) : Followed P follow α (v ++ w) := by
  intro γ s δ u hα hs hu
  have hmem := h γ s (δ ++ β) (u ++ v) (by rw [hα, List.append_assoc, List.cons_append]) hs (hu.append hv)
  rwa [List.append_assoc] at hmem

theorem tail (h : Followed P follow (s :: α) w) : Followed P follow α w := behind (α := [s]) h

theorem head (h : Followed P follow (s :: α) w) (hs : s.isNonterminal = true) (hv : Generates P α v) :
    lookahead (v ++ w) ∈ SymbolSets.members follow s :=
  h [] s α v rfl hs hv

end Followed
end Behind
end FollowSets
end TableParser
