import TableParser.Proofs.Context
import TableParser.Proofs.SententialForm

/-!
# Beginnings of sentential forms

A derivation can be cut at any symbol of a sentential form: what stands before the symbol is derived from a string that
leads from the start symbol down to it (`LR.exists_precedes_of_derives`), whatever becomes of the symbols behind. The
other way round, every string on a way down begins a sentential form (`LR.Leads.exists_derives`).

* **What comes next** (`LR.Precedes`): the strings on the ways down, with the symbol that stands behind them.
* **FOLLOW sets** hold what comes next behind each nonterminal of such a string (`LR.Precedes.lookahead_mem`).
-/

namespace TableParser
namespace LR

open FollowSets (lookahead)

variable {P : Productions} {start lhs s t : Symbol} {a : Alternative} {α β γ δ w : List Symbol}

/-! ## Cuts -/

/-- The symbol comes next behind a string that leads down to it. -/
inductive Precedes (P : Productions) (start : Symbol) : List Symbol → Symbol → Prop
  | start : Precedes P start [] start
  | next {γ α β : List Symbol} {lhs s : Symbol} {a : Alternative} (h : Leads P start γ lhs) (hp : P lhs a)
      (ha : a.symbols = α ++ s :: β) : Precedes P start (γ ++ α) s

/-- Before a nonterminal stands a way down. -/
theorem Precedes.leads (h : Precedes P start γ s) (hs : s.isNonterminal = true) : Leads P start γ s := by
  cases h with
  | start => exact .start
  | next h hp ha => exact h.down hp ha hs

/-- **Sentential forms can be cut at every symbol.** What stands before it is derived from a string that it comes next
to, by induction on the steps of the derivation. -/
theorem exists_precedes_of_derives (h : Derives P [start] (β ++ s :: γ)) :
    ∃ δ, Precedes P start δ s ∧ Derives P (sententialForm δ) β := by
  generalize hform : β ++ s :: γ = form at h
  induction h generalizing β s γ with
  | refl =>
    obtain ⟨rfl, rfl, _⟩ : β = [] ∧ s = start ∧ γ = [] := by simpa [List.append_eq_singleton_iff] using hform
    exact ⟨[], .start, .refl⟩
  | tail _ hstep ih =>
    obtain @⟨lhs, a, before, behind, hl, hp⟩ := hstep
    rcases split_of_append_eq hform with ⟨mid, rfl, rfl⟩ | ⟨mid, rfl, hrest⟩
    · -- the symbol stands before the left-hand side that was replaced
      exact ih (by rw [List.append_assoc, List.cons_append])
    rcases split_of_append_eq hrest.symm with ⟨mid', ha, rfl⟩ | ⟨mid', rfl, rfl⟩
    · -- it stands in the alternative
      obtain ⟨δ, hδ, hbefore⟩ := ih rfl
      obtain ⟨α, β, hsymbols, rfl, _⟩ := exists_of_sententialForm_eq ha
      refine ⟨δ ++ α, .next (hδ.leads hl) hp hsymbols, ?_⟩
      rw [sententialForm_append]
      exact hbefore.append .refl
    · -- it stands behind
      obtain ⟨δ, hδ, hbefore⟩ := ih (β := before ++ lhs :: mid') (by rw [List.append_assoc, List.cons_append])
      exact ⟨δ, hδ, hbefore.tail (.expand before mid' hl hp)⟩

/-- The string on a way down begins a sentential form, with the nonterminal at the end of the way behind it. -/
theorem Leads.exists_derives (h : Leads P start γ lhs) (hstart : start.isNonterminal = true) :
    ∃ rest, Derives P [start] (sententialForm γ ++ lhs :: rest) := by
  induction h with
  | start => exact ⟨[], .refl⟩
  | @down γ α β lhs s a h hp ha hs ih =>
    obtain ⟨rest, hd⟩ := ih
    refine ⟨sententialForm β ++ rest, ?_⟩
    have hstep := DerivationStep.expand (sententialForm γ) rest (h.isNonterminal hstart) hp
    rw [ha, sententialForm_append, sententialForm_cons (Symbol.ne_epsilon_of_isNonterminal hs)] at hstep
    simpa using hd.tail hstep

/-- So does the string with the first symbols of an alternative behind it. -/
theorem Leads.exists_derives_along (h : Leads P start γ lhs) (hstart : start.isNonterminal = true) (hp : P lhs a)
    (ha : a.symbols = α ++ β) : ∃ rest, Derives P [start] (sententialForm (γ ++ α) ++ rest) := by
  obtain ⟨rest, hd⟩ := h.exists_derives hstart
  refine ⟨sententialForm β ++ rest, ?_⟩
  have hstep := DerivationStep.expand (sententialForm γ) rest (h.isNonterminal hstart) hp
  rw [ha, sententialForm_append] at hstep
  simpa using hd.tail hstep

/-! ## What may follow -/

/-- The empty derivation does not stand before another symbol. -/
theorem epsilon_not_mem_before (halone : EpsilonAlone P) (hp : P lhs a) (ha : a.symbols = α ++ s :: β)
    (hs : s ≠ Symbol.epsilon) : Symbol.epsilon ∉ α := by
  have hnot := halone.not_mem hp (halone.isEpsilon_eq_false_of_ne hp (ha ▸ by simp) hs)
  rw [ha] at hnot
  exact fun hmem => hnot (List.mem_append_left _ hmem)

/-- The empty derivation stands on no way down. -/
theorem Leads.epsilon_not_mem (h : Leads P start γ lhs) (halone : EpsilonAlone P) : Symbol.epsilon ∉ γ := by
  induction h with
  | start => exact List.not_mem_nil
  | down _ hp ha hs ih =>
    intro hmem
    rcases List.mem_append.mp hmem with hmem | hmem
    · exact ih hmem
    · exact epsilon_not_mem_before halone hp ha (Symbol.ne_epsilon_of_isNonterminal hs) hmem

variable {first : FirstSets} {follow : FollowSets}

/-- **Along an alternative**: if all that begins behind the nonterminals of a string, with a left-hand side next to it,
is in their FOLLOW sets, so is what begins behind those of the string with the first symbols of an alternative. -/
theorem mem_follow_along (hfollow : FollowSets.Closed first follow P) (hfirst : FirstSets.Closed first P)
    (h : ∀ β s δ, γ = β ++ s :: δ → s.isNonterminal = true → Begins P (δ ++ [lhs]) t →
      t ∈ SymbolSets.members follow s)
    (hl : lhs.isNonterminal = true) (hp : P lhs a) {u : Symbol} {α' : List Symbol} (ha : a.symbols = α ++ u :: α')
    (hform : γ ++ α = β ++ s :: δ) (hs : s.isNonterminal = true) (ht : Begins P (δ ++ [u]) t) :
    t ∈ SymbolSets.members follow s := by
  rcases split_of_append_eq hform.symm with ⟨mid, hγ, rfl⟩ | ⟨mid, _, rfl⟩
  · -- the nonterminal stands before the left-hand side, which the alternative is derived from
    refine h β s mid hγ hs (Begins.append_iff.mpr ?_)
    rw [List.append_assoc] at ht
    refine (Begins.append_iff.mp ht).imp_right fun ⟨hmid, hb⟩ => ⟨hmid, .expand hl hp ?_⟩
    rw [ha, List.append_cons]
    exact hb.append_right α'
  · refine hfollow.mem_of_begins hfirst hp (α := mid) (β := δ ++ u :: α') (by rw [ha]; simp) hs ?_
    rw [List.append_cons]
    exact ht.append_right α'

/-- What begins behind a nonterminal on a way down is in its FOLLOW set, by induction on the way. -/
theorem Leads.mem_follow (hfollow : FollowSets.Closed first follow P) (hfirst : FirstSets.Closed first P)
    (hstart : start.isNonterminal = true) (h : Leads P start γ lhs) (hform : γ = β ++ s :: δ)
    (hs : s.isNonterminal = true) (ht : Begins P (δ ++ [lhs]) t) : t ∈ SymbolSets.members follow s := by
  induction h generalizing β s δ with
  | start => simp at hform
  | down h hp ha _ ih =>
    exact mem_follow_along hfollow hfirst (fun _ _ _ hform hs => ih hform hs) (h.isNonterminal hstart) hp ha hform hs ht

/-- **The lookahead behind a nonterminal** on the way to a terminal that comes next is in its FOLLOW set. -/
theorem Precedes.lookahead_mem (hfollow : FollowSets.Closed first follow P) (hfirst : FirstSets.Closed first P)
    (hstart : start.isNonterminal = true) (h : Precedes P start γ t) (ht : t.isTerminal = true)
    (hne : t ≠ Symbol.epsilon) (hform : γ = β ++ s :: δ) (hs : s.isNonterminal = true) {v rest : List Symbol}
    (hv : Generates P δ v) : lookahead (v ++ t :: rest) ∈ SymbolSets.members follow s := by
  have hbegins : Begins P (δ ++ [t]) (lookahead (v ++ t :: rest)) := by
    refine Begins.append_iff.mpr ?_
    cases v with
    | nil => exact .inr ⟨hv, .terminal ht hne⟩
    | cons u v => exact .inl (.of_generates hv)
  cases h with
  | start => simp at hform
  | next h hp ha =>
    exact mem_follow_along hfollow hfirst (fun _ _ _ hform hs => h.mem_follow hfollow hfirst hstart hform hs)
      (h.isNonterminal hstart) hp ha hform hs hbegins

end LR

/-- The ways down from the old start symbol are ways down from the new one. -/
theorem Grammar.Augmented.leads_accept {g g' : Grammar} {start accept lhs : Symbol} {γ : List Symbol}
    (h : Augmented g g' start accept) (hl : LR.Leads g.Produces start γ lhs) : LR.Leads g'.Produces accept γ lhs := by
  induction hl with
  | start => exact .down .start (h.produces_iff.mpr (.inl ⟨rfl, rfl⟩)) (α := []) (β := []) rfl h.start_nonterminal
  | down _ hp ha hs ih => exact ih.down (h.produces_iff.mpr (.inr hp)) ha hs

end TableParser
