import Mathlib.Data.List.Nodup
import TableParser.Proofs.DerivedSets

/-!
# The order of the passes does not matter

FIRST sets and FOLLOW sets can be computed side by side: FOLLOW passes may read FIRST sets that are still growing, and
passes of both kinds may follow each other in any order. What they add is always contained in the finished sets, because
those are closed (`FirstSets.Closed.update_below`, `FollowSets.Closed.update_below`), and tables that no pass adds to are
closed themselves. So every schedule that comes to rest does so at the same sets (`Analysis.confluent_of_define`).

* **Tables are compared by members** (`SymbolSets.Below`, `SymbolSets.Agree`), and the flag of a pass is about them
  (`SymbolSets.Tells`): it is up exactly when some set has a member that it did not have.
* **Schedules** (`Analysis.Scheduled`) begin with some FIRST passes and the FOLLOW sets for what these have found.
-/

namespace TableParser

/-! ## Tables by their members -/

namespace SymbolSets

variable {t u v : SymbolSets} {s k x : Symbol} {added keys values : List Symbol}

/-- Every member of a set of the first table is one of the set of the second table. -/
def Below (t u : SymbolSets) : Prop := ∀ k, ∀ x ∈ t.members k, x ∈ u.members k

/-- The sets of both tables have the same members. -/
def Agree (t u : SymbolSets) : Prop := ∀ k x, x ∈ t.members k ↔ x ∈ u.members k

/-- Some set of the second table has a member that it does not have in the first one. -/
def Gains (before after : SymbolSets) : Prop := ∃ k, ∃ x ∈ after.members k, x ∉ before.members k

/-- A pass removes nothing, and tells whether a set has grown. -/
structure Tells (before : SymbolSets) (pass : SymbolSets × Bool) : Prop where
  below : before.Below pass.1
  grown_iff : pass.2 = true ↔ before.Gains pass.1

theorem Below.refl (t : SymbolSets) : t.Below t := fun _ _ h => h

theorem Below.trans (h : t.Below u) (h' : u.Below v) : t.Below v := fun k x hx => h' k x (h k x hx)

theorem Below.agree (h : t.Below u) (h' : u.Below t) : t.Agree u := fun k x => ⟨h k x, h' k x⟩

theorem below_add (t : SymbolSets) (s : Symbol) (added : List Symbol) : t.Below (t.add s added) := fun _ _ hx =>
  mem_members_add.mpr (.inl hx)

/-- Additions stay below a table that has them already. -/
theorem Below.add (h : t.Below u) (hadded : ∀ x ∈ added, x ∈ u.members s) : (t.add s added).Below u := by
  intro k x hmem
  rcases mem_members_add.mp hmem with hx | ⟨rfl, hx⟩
  · exact h k x hx
  · exact hadded x hx

/-! ### The number of members -/

/-- The members with the symbols under whose sets they stand. -/
def listing (t : SymbolSets) : List (Symbol × Symbol) := t.entries.flatMap fun e => e.2.map fun x => (e.1, x)

theorem length_listing (t : SymbolSets) : t.listing.length = t.size := by
  simp [listing, size, List.length_flatMap]

theorem mem_listing_of_mem_members (h : x ∈ t.members k) : (k, x) ∈ t.listing := by
  unfold members get? at h
  cases hk : t.entries.lookup k with
  | none => simp [hk] at h
  | some set =>
    simp only [hk, Option.getD_some] at h
    exact List.mem_flatMap.mpr ⟨(k, set), mem_of_lookup hk, List.mem_map_of_mem h⟩

theorem Within.mem_members (h : t.Within keys values) (hx : (k, x) ∈ t.listing) : x ∈ t.members k := by
  simp only [listing, List.mem_flatMap, List.mem_map, Prod.mk.injEq] at hx
  obtain ⟨⟨key, set⟩, he, y, hy, rfl, rfl⟩ := hx
  have hget : t.entries.lookup key = some set := (lookup_eq_some_iff_mem h.nodup_keys).mpr he
  simp only [SymbolSets.members, get?, hget, Option.getD_some]
  exact hy

theorem Within.nodup_listing (h : t.Within keys values) : t.listing.Nodup := by
  refine List.nodup_flatMap.mpr ⟨fun e he => ?_, ?_⟩
  · exact (h.nodup_values e he).map fun x y hxy => (Prod.mk.inj hxy).2
  · refine (List.pairwise_map.mp h.nodup_keys).imp fun {e e'} hne p hp hp' => ?_
    obtain ⟨x, _, rfl⟩ := List.mem_map.mp hp
    obtain ⟨y, _, hy⟩ := List.mem_map.mp hp'
    exact hne (Prod.mk.inj hy).1.symm

/-- A table below another one does not have more members. -/
theorem Within.size_le_of_below (h : t.Within keys values) (hbelow : t.Below u) : t.size ≤ u.size := by
  rw [← length_listing, ← length_listing]
  refine (h.nodup_listing.subperm fun p hp => ?_).length_le
  exact mem_listing_of_mem_members (hbelow p.1 p.2 (h.mem_members hp))

/-- **The number of members goes up exactly if a set gets a new one.** -/
theorem Adding.tells {f : SymbolSets → SymbolSets} (hf : Adding f) (hbelow : t.Below (f t))
    (hwithin : (f t).Within keys values) : t.Tells (f t, t.grew (f t)) where
  below := hbelow
  grown_iff := by
    rw [grew_iff]
    constructor
    · intro hlt
      by_contra hnone
      have hback : (f t).Below t := fun k x hx => by_contra fun hnew => hnone ⟨k, x, hx, hnew⟩
      exact absurd (hwithin.size_le_of_below hback) (Nat.not_le.mpr hlt)
    · rintro ⟨k, x, hx, hnew⟩
      refine Nat.lt_of_le_of_ne (hf.size_le t) fun heq => hnew ?_
      rwa [← hf.members_eq t heq.symm k]

/-- A pass whose flag is down leaves every set as it was. -/
theorem Adding.size_eq_of_not_grew {f : SymbolSets → SymbolSets} (hf : Adding f) (h : t.grew (f t) = false) :
    (f t).size = t.size := by
  have hle := hf.size_le t
  have hlt : ¬t.size < (f t).size := by
    rw [← grew_iff, h]
    exact Bool.false_ne_true
  omega

end SymbolSets

/-! ## FIRST passes -/

namespace FirstSets

open SymbolSets (Below)

variable {first other : FirstSets} {g : Grammar} {s x : Symbol} {α : List Symbol}

theorem isNullable_mono (h : Below first other) (hs : first.isNullable s = true) : other.isNullable s = true := by
  cases ht : s.isTerminal with
  | true => exact (isNullable_terminal ht).mpr ((isNullable_terminal ht).mp hs)
  | false =>
    have hn := Symbol.isTerminal_eq_false_iff.mp ht
    exact (isNullable_nonterminal hn).mpr (h s _ ((isNullable_nonterminal hn).mp hs))

/-- Larger sets know more beginnings. -/
theorem sequenceHeads_mono (h : Below first other) (hx : x ∈ first.sequenceHeads α) : x ∈ other.sequenceHeads α := by
  induction α with
  | nil => exact hx
  | cons s rest ih =>
    rcases mem_sequenceHeads_cons.mp hx with hx | ⟨hs, hx⟩
    · refine mem_sequenceHeads_cons.mpr (.inl ?_)
      cases ht : s.isTerminal with
      | true => exact (mem_heads_terminal ht).mpr ((mem_heads_terminal ht).mp hx)
      | false =>
        have hn := Symbol.isTerminal_eq_false_iff.mp ht
        obtain ⟨hx, hne⟩ := (mem_heads_nonterminal hn).mp hx
        exact (mem_heads_nonterminal hn).mpr ⟨h s x hx, hne⟩
    · exact mem_sequenceHeads_cons.mpr (.inr ⟨isNullable_mono h hs, ih hx⟩)

theorem below_update (g : Grammar) (first : FirstSets) : Below first (update first g) := by
  refine List.foldlRecOn (motive := fun later => Below first later) g.rules updateRule (.refl _) ?_
  exact fun later h r _ => h.trans (SymbolSets.below_add later r.lhs _)

/-- **A pass stays below closed sets.** -/
theorem Closed.update_below (hc : Closed other g.Produces) (h : Below first other) : Below (update first g) other := by
  refine List.foldlRecOn (motive := fun later => Below later other) g.rules updateRule h ?_
  intro later hlater r hr
  refine hlater.add fun x hx => ?_
  obtain ⟨a, ha, hx⟩ := List.mem_flatMap.mp hx
  exact hc r.lhs a ⟨r, hr, rfl, ha⟩ x (sequenceHeads_mono hlater hx)

/-- The FIRST sets of a grammar are the least closed ones. -/
theorem ofGrammar_below (hc : Closed other g.Produces) : Below (ofGrammar g) other :=
  ofGrammar_induction (motive := fun first => Below first other) g
    (fun _ _ hx => absurd hx SymbolSets.not_mem_members_empty) fun _ h => hc.update_below h

/-- A pass tells what it adds. -/
theorem tells_pass (h : first.Within g.lhsSymbols (Symbol.epsilon :: g.terminals)) : first.Tells (pass g first) :=
  (adding_update g).tells (below_update g first) (within_update h)

/-- A pass whose flag is down has found closed sets. -/
theorem closed_of_pass (h : (pass g first).2 = false) : Closed first g.Produces :=
  closed_of_size_update ((adding_update g).size_eq_of_not_grew h)

end FirstSets

/-! ## FOLLOW passes -/

namespace FollowSets

open SymbolSets (Below)

variable {first first' : FirstSets} {follow other : FollowSets} {g : Grammar} {lhs start x : Symbol} {β : List Symbol}

/-- Larger sets know more of what comes behind an occurrence. -/
theorem behind_mono (hfirst : Below first first') (h : Below follow other) (hx : x ∈ behind first lhs follow β) :
    x ∈ behind first' lhs other β := by
  refine mem_behind.mpr ((mem_behind.mp hx).imp ?_ ?_)
  · exact fun ⟨hx, hne⟩ => ⟨FirstSets.sequenceHeads_mono hfirst hx, hne⟩
  · exact fun ⟨hv, hx⟩ => ⟨FirstSets.sequenceHeads_mono hfirst hv, h lhs x hx⟩

theorem below_update (g : Grammar) (first : FirstSets) (follow : FollowSets) : Below follow (update follow first g) :=
  update_induction (motive := fun later => Below follow later)
    (fun _ _ _ s _ later _ _ _ h => h.trans (SymbolSets.below_add later s _)) (.refl _)

/-- **A pass stays below closed sets**, also if it goes by smaller FIRST sets. -/
theorem Closed.update_below (hc : Closed first' other g.Produces) (hfirst : Below first first')
    (h : Below follow other) : Below (update follow first g) other := by
  refine update_induction (motive := fun later => Below later other) ?_ h
  intro lhs a α s β later hp ha hs hlater
  exact hlater.add fun x hx => hc lhs a α s β hp ha hs x (behind_mono hfirst hlater hx)

/-- The FOLLOW sets for FIRST sets are below the closed ones for larger FIRST sets that know the end of the input. -/
theorem ofGrammar_below (hfollow : ofGrammar g first = .ok follow) (hc : Closed first' other g.Produces)
    (hfirst : Below first first') (hstart : g.start = .ok start)
    (hend : Symbol.endMarker ∈ SymbolSets.members other start) : Below follow other := by
  refine ofGrammar_induction (motive := fun later => Below later other) hfollow ?_ ?_
  · intro start' hstart'
    rw [hstart] at hstart'
    cases hstart'
    refine Below.add (fun _ _ hx => absurd hx SymbolSets.not_mem_members_empty) fun x hx => ?_
    rw [List.mem_singleton.mp hx]
    exact hend
  · intro lhs a α s β later hp ha hs hlater
    exact hlater.add fun x hx => hc lhs a α s β hp ha hs x (behind_mono hfirst hlater hx)

/-- The FOLLOW sets of a grammar are within their bounds. -/
theorem within_ofGrammar (hfirst : ∀ k, ∀ x ∈ SymbolSets.members first k, x ∈ Symbol.epsilon :: g.terminals)
    (h : ofGrammar g first = .ok follow) :
    SymbolSets.Within g.nonterminals (Symbol.endMarker :: g.terminals) follow := by
  cases hstart : g.start with
  | error f =>
    rw [ofGrammar, converge, hstart] at h
    cases h
  | ok start =>
    rw [ofGrammar, converge, hstart] at h
    cases h
    exact saturate_induction (pass g first) (fun _ hf => within_update hfirst hf) (within_seed hstart) _

/-- A pass tells what it adds. -/
theorem tells_pass (hfirst : ∀ k, ∀ x ∈ SymbolSets.members first k, x ∈ Symbol.epsilon :: g.terminals)
    (h : SymbolSets.Within g.nonterminals (Symbol.endMarker :: g.terminals) follow) :
    SymbolSets.Tells follow (pass g first follow) :=
  (adding_update g first).tells (below_update g first follow) (within_update hfirst h)

/-- A pass whose flag is down has found closed sets. -/
theorem closed_of_pass (h : (pass g first follow).2 = false) : Closed first follow g.Produces :=
  closed_of_size_update ((adding_update g first).size_eq_of_not_grew h)

end FollowSets

/-! ## Schedules -/

/-- FIRST sets and FOLLOW sets under way. -/
structure Analysis where
  first : FirstSets
  follow : FollowSets
deriving DecidableEq, Repr

/-- A pass over one of the two tables. -/
inductive AnalysisPass
  | first
  | follow
deriving DecidableEq, Repr

namespace Analysis

open SymbolSets (Below Agree Within)

/-- Run a pass; a FOLLOW pass goes by the FIRST sets as they are. -/
def run (g : Grammar) (a : Analysis) : AnalysisPass → Analysis × Bool
  | .first => (⟨(FirstSets.pass g a.first).1, a.follow⟩, (FirstSets.pass g a.first).2)
  | .follow => (⟨a.first, (FollowSets.pass g a.first a.follow).1⟩, (FollowSets.pass g a.first a.follow).2)

/-- Run several passes one after the other. -/
def runAll (g : Grammar) (a : Analysis) (schedule : List AnalysisPass) : Analysis :=
  schedule.foldl (fun a pass => (a.run g pass).1) a

/-- The FIRST sets that some passes from empty sets have found. -/
def firstAfter (g : Grammar) : Nat → FirstSets
  | 0 => .empty
  | passes + 1 => (FirstSets.pass g (firstAfter g passes)).1

/-- The tables come of a schedule: some FIRST passes, the FOLLOW sets for what these have found, and then passes of both
kinds in any order. -/
def Scheduled (g : Grammar) (a : Analysis) : Prop := ∃ passes follow schedule,
  FollowSets.ofGrammar g (firstAfter g passes) = .ok follow ∧ a = runAll g ⟨firstAfter g passes, follow⟩ schedule

/-- No pass reports a change. -/
def Settled (g : Grammar) (a : Analysis) : Prop := ∀ pass, (a.run g pass).2 = false

/-- Schedules for the grammar can be run, their passes remove nothing and tell what they add, and where no pass reports a
change any more the tables are those of the grammar. -/
structure Confluent (g : Grammar) : Prop where
  tells_firstAfter : ∀ passes, (firstAfter g passes).Tells (FirstSets.pass g (firstAfter g passes))
  exists_follow : ∀ passes, ∃ start follow followPasses, g.start = .ok start ∧
    FollowSets.ofGrammar g (firstAfter g passes) = .ok follow ∧
    Saturates (FollowSets.pass g (firstAfter g passes)) (FollowSets.seed start) follow followPasses
  tells_first : ∀ a, Scheduled g a → a.first.Tells (FirstSets.pass g a.first)
  tells_follow : ∀ a, Scheduled g a → a.follow.Tells (FollowSets.pass g a.first a.follow)
  agree : ∀ a, Scheduled g a → Settled g a → ∃ follow, FollowSets.ofGrammar g (.ofGrammar g) = .ok follow ∧
    Agree a.first (FirstSets.ofGrammar g) ∧ Agree a.follow follow

variable {g : Grammar} {a full : Analysis} {start : Symbol}

/-- The finished tables: those of the grammar. -/
structure Finished (g : Grammar) (start : Symbol) (full : Analysis) : Prop where
  start_eq : g.start = .ok start
  first_eq : full.first = .ofGrammar g
  follow_eq : FollowSets.ofGrammar g full.first = .ok full.follow

/-- What every schedule keeps: both tables are within their bounds, the end marker follows the start symbol, and
nothing is listed that the finished tables do not list. -/
structure Sound (g : Grammar) (start : Symbol) (full a : Analysis) : Prop where
  within_first : Within g.lhsSymbols (Symbol.epsilon :: g.terminals) a.first
  within_follow : Within g.nonterminals (Symbol.endMarker :: g.terminals) a.follow
  endMarker_mem : Symbol.endMarker ∈ SymbolSets.members a.follow start
  first_below : Below a.first full.first
  follow_below : Below a.follow full.follow

theorem within_firstAfter (g : Grammar) (passes : Nat) :
    Within g.lhsSymbols (Symbol.epsilon :: g.terminals) (firstAfter g passes) := by
  induction passes with
  | zero => exact .empty
  | succ passes ih => exact FirstSets.within_update ih

theorem exists_finished (hstart : g.start = .ok start) : ∃ full, Finished g start full := by
  obtain ⟨_, hfollow, _⟩ := FollowSets.exists_last_update (FirstSets.members_ofGrammar_subset g) hstart
  exact ⟨⟨_, _⟩, hstart, rfl, hfollow⟩

namespace Finished

theorem closed_first (h : Finished g start full) : FirstSets.Closed full.first g.Produces := by
  rw [h.first_eq]
  exact FirstSets.closed_ofGrammar g

theorem closed_follow (h : Finished g start full) : FollowSets.Closed full.first full.follow g.Produces := by
  refine FollowSets.closed_ofGrammar (fun k => ?_) h.follow_eq
  rw [h.first_eq]
  exact FirstSets.members_ofGrammar_subset g k

theorem firstAfter_below (h : Finished g start full) (passes : Nat) : Below (firstAfter g passes) full.first := by
  induction passes with
  | zero => exact fun _ _ hx => absurd hx SymbolSets.not_mem_members_empty
  | succ passes ih => exact h.closed_first.update_below ih

/-- Schedules begin with sound tables. -/
theorem sound_start (h : Finished g start full) {passes : Nat} {follow : FollowSets}
    (hfollow : FollowSets.ofGrammar g (firstAfter g passes) = .ok follow) :
    Sound g start full ⟨firstAfter g passes, follow⟩ where
  within_first := within_firstAfter g passes
  within_follow := FollowSets.within_ofGrammar (fun _ => (within_firstAfter g passes).members) hfollow
  endMarker_mem := FollowSets.endMarker_mem hfollow h.start_eq
  first_below := h.firstAfter_below passes
  follow_below := FollowSets.ofGrammar_below hfollow h.closed_follow (h.firstAfter_below passes) h.start_eq
    (FollowSets.endMarker_mem h.follow_eq h.start_eq)

/-- **A pass keeps tables sound**, whichever it is. -/
theorem sound_run (h : Finished g start full) (ha : Sound g start full a) (pass : AnalysisPass) :
    Sound g start full (a.run g pass).1 := by
  cases pass with
  | first => exact { ha with
      within_first := FirstSets.within_update ha.within_first
      first_below := h.closed_first.update_below ha.first_below }
  | follow => exact { ha with
      within_follow := FollowSets.within_update (fun _ => ha.within_first.members) ha.within_follow
      endMarker_mem := FollowSets.below_update g a.first a.follow _ _ ha.endMarker_mem
      follow_below := h.closed_follow.update_below ha.first_below ha.follow_below }

/-- **A whole schedule keeps tables sound.** -/
theorem sound_of_scheduled (h : Finished g start full) (ha : Scheduled g a) : Sound g start full a := by
  obtain ⟨passes, follow, schedule, hfollow, rfl⟩ := ha
  exact List.foldlRecOn schedule _ (h.sound_start hfollow) fun _ ha pass _ => h.sound_run ha pass

/-- **Sound tables that no pass changes are the finished ones**: closed tables contain the least closed ones. -/
theorem agree_of_settled (h : Finished g start full) (ha : Sound g start full a) (hs : Settled g a) :
    Agree a.first full.first ∧ Agree a.follow full.follow := by
  have hfirst : Below full.first a.first := by
    rw [h.first_eq]
    exact FirstSets.ofGrammar_below (FirstSets.closed_of_pass (hs .first))
  have hfollow : Below full.follow a.follow :=
    FollowSets.ofGrammar_below h.follow_eq (FollowSets.closed_of_pass (hs .follow)) hfirst h.start_eq ha.endMarker_mem
  exact ⟨ha.first_below.agree hfirst, ha.follow_below.agree hfollow⟩

end Finished

/-- **FIRST and FOLLOW sets do not depend on the schedule of the passes.** -/
theorem confluent_of_define {steps : List DefinitionStep} (hg : (Grammar.define steps).result = .ok g) :
    Confluent g := by
  obtain ⟨r, _, hstart⟩ := (wellFormed_of_define hg).exists_start
  obtain ⟨full, hfull⟩ := exists_finished hstart
  constructor
  case tells_firstAfter =>
    intro passes
    exact FirstSets.tells_pass (within_firstAfter g passes)
  case exists_follow =>
    intro passes
    obtain ⟨follow, followPasses, hconverge, hsaturates⟩ :=
      FollowSets.saturates_ofGrammar (fun _ => (within_firstAfter g passes).members) hstart
    exact ⟨r.lhs, follow, followPasses, hstart, congrArg (Except.map Prod.fst) hconverge, hsaturates⟩
  case tells_first =>
    intro a ha
    exact FirstSets.tells_pass (hfull.sound_of_scheduled ha).within_first
  case tells_follow =>
    intro a ha
    have hsound := hfull.sound_of_scheduled ha
    exact FollowSets.tells_pass (fun _ => hsound.within_first.members) hsound.within_follow
  case agree =>
    intro a ha hs
    have hagree := hfull.agree_of_settled (hfull.sound_of_scheduled ha) hs
    rw [hfull.first_eq] at hagree
    exact ⟨full.follow, hfull.first_eq ▸ hfull.follow_eq, hagree⟩

section Layered

open TableParser.Symbol

/-- Passes of both kinds, with no regard to which of them has something to do. -/
def hastySchedule : List AnalysisPass := [.follow, .first, .follow, .first, .first, .follow, .follow]

set_option maxRecDepth 10000 in
/-- The layers come to rest although their FOLLOW sets were begun before any FIRST set was known, so that a list seemed to
be followed by no further element. -/
theorem confluent_of_define_layered : ∃ g hasty, (Grammar.define FirstSets.layeredSteps).result = .ok g ∧
    Confluent g ∧ FollowSets.ofGrammar g (firstAfter g 0) = .ok hasty ∧
    SymbolSets.members hasty (nonterminal "A") = [endMarker, terminal ","] ∧
    ∃ a, a = runAll g ⟨firstAfter g 0, hasty⟩ hastySchedule ∧ Settled g a ∧
      SymbolSets.members a.follow (nonterminal "A") = [endMarker, terminal ",", terminal "a", terminal "u"] := by
  have heval : ((Grammar.define FirstSets.layeredSteps).result.toOption.any fun g =>
      (FollowSets.ofGrammar g (firstAfter g 0)).toOption.any fun hasty =>
        SymbolSets.members hasty (nonterminal "A") = [endMarker, terminal ","] ∧
        ((runAll g ⟨firstAfter g 0, hasty⟩ hastySchedule).run g .first).2 = false ∧
        ((runAll g ⟨firstAfter g 0, hasty⟩ hastySchedule).run g .follow).2 = false ∧
        SymbolSets.members (runAll g ⟨firstAfter g 0, hasty⟩ hastySchedule).follow (nonterminal "A") =
          [endMarker, terminal ",", terminal "a", terminal "u"]) = true := by rfl
  obtain ⟨g, hg, heval⟩ := exists_ok_of_any heval
  obtain ⟨hasty, hhasty, heval⟩ := exists_ok_of_any heval
  obtain ⟨hbefore, hfirst, hfollow, hafter⟩ := of_decide_eq_true heval
  refine ⟨g, hasty, hg, confluent_of_define hg, hhasty, hbefore, _, rfl, ?_, hafter⟩
  rintro (_ | _)
  · exact hfirst
  · exact hfollow

end Layered

end Analysis
end TableParser
