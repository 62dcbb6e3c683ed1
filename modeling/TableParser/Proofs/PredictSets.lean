import TableParser.Proofs.DerivedSets

/-!
# Predict sets

The terminals that predict an alternative are those that derivations bring to its front, and those behind the left-hand
side if the alternative vanishes (`BeginsBefore`). They are disjoint for the alternatives of a nonterminal if the
productions are `Predictable`; on grammars that is said by derivations (`Grammar.IsLL1`, `Grammar.IsLL1.predictable`).

* **Helpers that begin with nothing new** (`Conservative`): read as the nonterminals that they help, they begin with
  what these begin with, and terminals come behind them that come behind these. So alternatives without helpers keep
  their predict sets, and only the two rules of a replacement need a look (`Conservative.predictable`).
-/

namespace TableParser

open FollowSets (Behind)

variable {P Q : Productions} {F G : Symbol → Prop} {α β w : List Symbol} {start lhs s t : Symbol} {a : Alternative}

/-! ## Beginnings of alternatives -/

/-- A derivation brings the terminal to the front of the string, or the string vanishes before the terminal. -/
def BeginsBefore (P : Productions) (behind : Symbol → Prop) (α : List Symbol) (t : Symbol) : Prop :=
  Begins P α t ∨ Generates P α [] ∧ behind t

@[simp] theorem beginsBefore_nil : BeginsBefore P F [] t ↔ F t :=
  ⟨fun h => h.elim (fun h => nomatch h) fun h => h.2, fun h => .inr ⟨.nil, h⟩⟩

/-- What is behind a concatenation is behind its second part, which is behind the first one. -/
theorem beginsBefore_append : BeginsBefore P F (α ++ β) t ↔ BeginsBefore P (BeginsBefore P F β) α t := by
  unfold BeginsBefore
  rw [Begins.append_iff, Generates.append_nil_iff]
  tauto

@[simp] theorem beginsBefore_epsilon_cons : BeginsBefore P F (Symbol.epsilon :: α) t ↔ BeginsBefore P F α t := by
  unfold BeginsBefore
  rw [← begins_sententialForm, sententialForm_epsilon_cons, begins_sententialForm, generates_epsilon_cons]

theorem BeginsBefore.mono (hFG : F t → G t) (h : BeginsBefore P F α t) : BeginsBefore P G α t :=
  h.imp_right fun h => ⟨h.1, hFG h.2⟩

/-- What begins the rest of an alternative comes behind the nonterminal before it. -/
theorem BeginsBefore.behind (h : BeginsBefore P (Behind P start lhs) β t) (hp : P lhs a) (ha : a.symbols = α ++ s :: β)
    (hs : s.isNonterminal = true) : Behind P start s t :=
  h.elim (.begins hp ha hs) fun h => .vanishes hp ha hs h.1 h.2

theorem BeginsBefore.isTerminal (h : BeginsBefore P (Behind P start lhs) α t) : t.isTerminal = true :=
  h.elim (fun h => h.isTerminal.1) fun h => h.2.isTerminal

/-- A nonterminal begins with what one of its alternatives begins with. -/
theorem Begins.exists_alternative (h : Begins P [lhs] t) (hl : lhs.isNonterminal = true) :
    ∃ a, P lhs a ∧ Begins P a.symbols t := by
  cases h with
  | terminal ht _ => exact absurd ht (Symbol.not_isTerminal hl)
  | vanish _ h => cases h
  | expand _ hp h => exact ⟨_, hp, h⟩

theorem BeginsBefore.exists_alternative (h : BeginsBefore P F [lhs] t) (hl : lhs.isNonterminal = true) :
    ∃ a, P lhs a ∧ BeginsBefore P F a.symbols t := by
  rcases h with h | ⟨h, ht⟩
  · obtain ⟨a, hp, ha⟩ := h.exists_alternative hl
    exact ⟨a, hp, .inl ha⟩
  · obtain ⟨a, hp, ha⟩ := h.exists_alternative hl
    exact ⟨a, hp, .inr ⟨ha, ht⟩⟩

/-! ## Mute strings -/

/-- The string vanishes and begins with no terminal: it derives the empty string only. -/
structure Mute (P : Productions) (α : List Symbol) : Prop where
  vanishes : Generates P α []
  not_begins : ∀ t, ¬Begins P α t

namespace Mute

/-- A string that derives some terminal string but begins with no terminal is mute. -/
theorem of_generates (h : Generates P α w) (hno : ∀ t, ¬Begins P α t) : Mute P α := by
  cases w with
  | nil => exact ⟨h, hno⟩
  | cons t w => exact absurd (.of_generates h) (hno t)

/-- A mute string leaves the beginning to what is behind it. -/
theorem beginsBefore_iff (h : Mute P α) : BeginsBefore P F α t ↔ F t :=
  ⟨fun ht => ht.elim (fun ht => absurd ht (h.not_begins t)) fun ht => ht.2, fun ht => .inr ⟨h.vanishes, ht⟩⟩

end Mute

/-! ## Disjoint predict sets -/

/-- Every alternative derives some terminal string, and no terminal predicts two alternatives of a nonterminal. -/
structure Predictable (P : Productions) (start : Symbol) : Prop where
  productive : ∀ lhs a, P lhs a → ∃ w, Generates P a.symbols w
  unique : ∀ lhs a b t, P lhs a → P lhs b → BeginsBefore P (Behind P start lhs) a.symbols t →
    BeginsBefore P (Behind P start lhs) b.symbols t → a = b

namespace Grammar

/-- The terminal is in the predict set of the alternative: a form derived from its symbols begins with the terminal, or
the empty form is derived from them and the terminal follows the left-hand side. -/
def Selects (g : Grammar) (start lhs : Symbol) (a : Alternative) (t : Symbol) : Prop :=
  t.isTerminal = true ∧ ((∃ rest, Derives g.Produces (sententialForm a.symbols) (t :: rest)) ∨
    Derives g.Produces (sententialForm a.symbols) [] ∧ FollowSets.Follows g start lhs t)

/-- Every nonterminal derives a string of terminals, and the predict sets of any two different alternatives of a
nonterminal are disjoint. -/
structure IsLL1 (g : Grammar) (start : Symbol) : Prop where
  productive : ∀ s ∈ g.nonterminals, ∃ w, (∀ t ∈ w, t.isTerminal = true) ∧ Derives g.Produces [s] w
  disjoint : ∀ lhs a b, g.Produces lhs a → g.Produces lhs b → a ≠ b →
    ∀ t, g.Selects start lhs a t → ¬g.Selects start lhs b t

/-- **LL(1) grammars are predictable.** -/
theorem IsLL1.predictable {g : Grammar} (h : g.IsLL1 start) (hg : g.WellFormed) : Predictable g.Produces start := by
  constructor
  case productive =>
    intro lhs a hp
    refine Generates.exists_of_nonterminals fun s hs hnt => ?_
    obtain ⟨w, hw, hd⟩ := h.productive s (Grammar.mem_nonterminals.mpr (.inr ⟨hnt, lhs, a, hp, hs⟩))
    have hform : sententialForm [s] = [s] := sententialForm_cons (Symbol.ne_epsilon_of_isNonterminal hnt)
    have hempty : Symbol.epsilon ∉ w := hd.epsilon_not_mem (hform ▸ epsilon_not_mem_sententialForm)
    rw [← hform] at hd
    exact ⟨w, (derives_iff_generates fun t ht => ⟨hw t ht, fun he => hempty (he ▸ ht)⟩).mp hd⟩
  case unique =>
    have hselects : ∀ {lhs a t}, BeginsBefore g.Produces (Behind g.Produces start lhs) a.symbols t →
        g.Selects start lhs a t := fun ht => ⟨ht.isTerminal,
      ht.imp Begins.exists_derives fun ht => ⟨ht.1.derives, ht.2.follows hg⟩⟩
    intro lhs a b t ha hb hat hbt
    by_contra hne
    exact h.disjoint lhs a b ha hb hne t (hselects hat) (hselects hbt)

end Grammar

/-! ## Helpers that begin with nothing new -/

/-- A helper is read as the nonterminal that it helps. -/
def unhelped (helper lhs s : Symbol) : Symbol := if s = helper then lhs else s

section Unhelped

variable {helper : Symbol}

@[simp] theorem unhelped_self : unhelped helper lhs helper = lhs := if_pos rfl

theorem unhelped_of_ne (hs : s ≠ helper) : unhelped helper lhs s = s := if_neg hs

@[simp] theorem unhelped_lhs : unhelped helper lhs lhs = lhs := ite_self lhs

theorem map_unhelped (hα : helper ∉ α) : α.map (unhelped helper lhs) = α := by
  refine (List.map_congr_left fun s hs => unhelped_of_ne ?_).trans (List.map_id α)
  rintro rfl
  exact hα hs

end Unhelped

/-- A replacement after which the other nonterminals derive what they did, and the helper begins with nothing that the
left-hand side did not begin with. -/
structure Conservative (P Q : Productions) (r r' h : Rule) (helper : Symbol) : Prop extends
    Helped P Q r r' h helper where
  generates_iff : ∀ lhs, lhs.isNonterminal = true → lhs ≠ helper → ∀ w,
    Generates P [lhs] w ↔ Generates Q [lhs] w
  vanishes : Generates Q [helper] [] → Generates P [r.lhs] []
  begins : ∀ a ∈ r'.alternatives ++ h.alternatives, ∀ t,
    Begins P (a.symbols.map (unhelped helper r.lhs)) t → Begins P [r.lhs] t

namespace Conservative

variable {r r' h : Rule} {helper : Symbol} (hC : Conservative P Q r r' h helper)
include hC

theorem generates_old (hα : helper ∉ α) (hw : Generates Q α w) : Generates P α w :=
  hw.of_nonterminals fun lhs hmem hl w => (hC.generates_iff lhs hl (fun heq => hα (heq ▸ hmem)) w).mpr

theorem generates_new (hα : helper ∉ α) (hw : Generates P α w) : Generates Q α w :=
  hw.of_nonterminals fun lhs hmem hl w => (hC.generates_iff lhs hl (fun heq => hα (heq ▸ hmem)) w).mp

/-- What a replaced rule or the rule of the helper has is an alternative of one of them, for the same left-hand side. -/
theorem cases_of_produces (hp : Q lhs a) : unhelped helper r.lhs lhs = r.lhs ∧ a ∈ r'.alternatives ++ h.alternatives ∨
    unhelped helper r.lhs lhs = lhs ∧ P lhs a := by
  by_cases hh : lhs = helper
  · subst hh
    exact .inl ⟨unhelped_self, List.mem_append_right _ ((hC.tail a).mp hp)⟩
  · by_cases hl : lhs = r.lhs
    · subst hl
      exact .inl ⟨unhelped_lhs, List.mem_append_left _ ((hC.head a).mp hp)⟩
    · exact .inr ⟨unhelped_of_ne hh, (hC.other lhs a hl hh).mp hp⟩

/-- **What begins a string begins it before the replacement** when the helper is read as the left-hand side. -/
theorem begins_unhelped (ht : Begins Q α t) : Begins P (α.map (unhelped helper r.lhs)) t := by
  induction ht with
  | @terminal t rest ht hs =>
    have hne : t ≠ helper := by
      rintro rfl
      exact Symbol.not_isTerminal hC.nonterminal ht
    rw [List.map_cons, unhelped_of_ne hne]
    exact .terminal ht hs
  | @vanish s t rest hs _ ih =>
    refine .vanish ?_ ih
    by_cases hh : s = helper
    · rw [hh, unhelped_self]
      exact hC.vanishes (hh ▸ hs)
    · rw [unhelped_of_ne hh]
      exact hC.generates_old (fun hmem => hh (List.mem_singleton.mp hmem).symm) hs
  | @expand lhs t a rest hl hp _ ih =>
    rw [List.map_cons]
    rcases hC.cases_of_produces hp with ⟨hlhs, ha⟩ | ⟨hlhs, hp⟩
    · rw [hlhs]
      exact (hC.begins a ha t ih).append_right _
    · rw [map_unhelped (hC.not_mem lhs a hp)] at ih
      rw [hlhs]
      exact .expand hl hp ih

theorem begins_old (hα : helper ∉ α) (ht : Begins Q α t) : Begins P α t :=
  map_unhelped hα ▸ hC.begins_unhelped ht

theorem beginsBefore_old (hα : helper ∉ α) (ht : BeginsBefore Q F α t) : BeginsBefore P F α t :=
  ht.imp (hC.begins_old hα) fun ht => ⟨hC.generates_old hα ht.1, ht.2⟩

/-- An occurrence in an alternative that was there before the replacement has no more behind it. -/
theorem behind_old (hp : P lhs a) (ha : a.symbols = α ++ s :: β) (hs : s.isNonterminal = true)
    (ht : BeginsBefore Q (Behind P start lhs) β t) : Behind P start (unhelped helper r.lhs s) t := by
  have hnot := ha ▸ hC.not_mem lhs a hp
  rw [List.mem_append, List.mem_cons, not_or, not_or] at hnot
  rw [unhelped_of_ne (Ne.symm hnot.2.1)]
  exact (hC.beginsBefore_old hnot.2.2 ht).behind hp ha hs

variable (hstart : start ≠ helper) (hbehind : ∀ a ∈ r'.alternatives ++ h.alternatives, ∀ α s β t,
  a.symbols = α ++ s :: β → s.isNonterminal = true → BeginsBefore Q (Behind P start r.lhs) β t →
  Behind P start (unhelped helper r.lhs s) t)
include hstart hbehind

/-- **What comes behind a nonterminal came behind it before the replacement** when the helper is read as the left-hand
side, if that is so for the occurrences in the two rules. -/
theorem behind_unhelped (ht : Behind Q start s t) : Behind P start (unhelped helper r.lhs s) t := by
  have hoccurrence : ∀ {lhs a α s β t}, Q lhs a → a.symbols = α ++ s :: β → s.isNonterminal = true →
      BeginsBefore Q (Behind P start (unhelped helper r.lhs lhs)) β t →
      Behind P start (unhelped helper r.lhs s) t := by
    intro lhs a α s β t hp ha hs ht
    rcases hC.cases_of_produces hp with ⟨hlhs, hmem⟩ | ⟨hlhs, hp⟩
    · exact hbehind a hmem α s β t ha hs (hlhs ▸ ht)
    · exact hC.behind_old hp ha hs (hlhs ▸ ht)
  induction ht with
  | endMarker =>
    rw [unhelped_of_ne hstart]
    exact .endMarker
  | begins hp ha hs hb => exact hoccurrence hp ha hs (.inl hb)
  | vanishes hp ha hs hv _ ih => exact hoccurrence hp ha hs (.inr ⟨hv, ih⟩)

/-- **A replacement keeps predict sets disjoint** if it does so for its two rules. -/
theorem predictable (hP : Predictable P start)
    (hproductive : ∀ a ∈ r'.alternatives ++ h.alternatives, ∃ w, Generates Q a.symbols w)
    (hhead : ∀ a ∈ r'.alternatives, ∀ b ∈ r'.alternatives, ∀ t, BeginsBefore Q (Behind P start r.lhs) a.symbols t →
      BeginsBefore Q (Behind P start r.lhs) b.symbols t → a = b)
    (htail : ∀ a ∈ h.alternatives, ∀ b ∈ h.alternatives, ∀ t, BeginsBefore Q (Behind P start r.lhs) a.symbols t →
      BeginsBefore Q (Behind P start r.lhs) b.symbols t → a = b) : Predictable Q start := by
  constructor
  case productive =>
    intro lhs a hp
    rcases hC.cases_of_produces hp with ⟨_, hmem⟩ | ⟨_, hp⟩
    · exact hproductive a hmem
    · obtain ⟨w, hw⟩ := hP.productive lhs a hp
      exact ⟨w, hC.generates_new (hC.not_mem lhs a hp) hw⟩
  case unique =>
    intro lhs a b t ha hb hat hbt
    have hat := hat.mono (hC.behind_unhelped hstart hbehind)
    have hbt := hbt.mono (hC.behind_unhelped hstart hbehind)
    by_cases hh : lhs = helper
    · subst hh
      rw [unhelped_self] at hat hbt
      exact htail a ((hC.tail a).mp ha) b ((hC.tail b).mp hb) t hat hbt
    · by_cases hl : lhs = r.lhs
      · subst hl
        rw [unhelped_lhs] at hat hbt
        exact hhead a ((hC.head a).mp ha) b ((hC.head b).mp hb) t hat hbt
      · rw [unhelped_of_ne hh] at hat hbt
        have ha := (hC.other lhs a hl hh).mp ha
        have hb := (hC.other lhs b hl hh).mp hb
        exact hP.unique lhs a b t ha hb (hC.beginsBefore_old (hC.not_mem lhs a ha) hat)
          (hC.beginsBefore_old (hC.not_mem lhs b hb) hbt)

end Conservative
end TableParser
