import Mathlib.Data.List.Nodup

/-!
# Lists of entries

A list of keys and values as a table: what is found under a key is one of the entries, and if no key is listed twice,
every entry is found under its key (`lookup_eq_some_iff_mem`). A key that is not found can be listed behind the others
(`nodup_keys_concat`).
-/

namespace TableParser

variable {κ ν : Type} [BEq κ] [LawfulBEq κ] {entries : List (κ × ν)} {k : κ} {v : ν}

theorem mem_of_lookup (h : entries.lookup k = some v) : (k, v) ∈ entries := by
  obtain ⟨before, after, rfl, _⟩ := List.lookup_eq_some_iff.mp h
  exact List.mem_append_right before List.mem_cons_self

theorem lookup_eq_none_iff_not_mem_keys : entries.lookup k = none ↔ k ∉ entries.map Prod.fst := by
  rw [List.lookup_eq_none_iff, List.mem_map]
  constructor
  · rintro h ⟨entry, hentry, rfl⟩
    exact bne_iff_ne.mp (h entry hentry) rfl
  · intro h entry hentry
    exact bne_iff_ne.mpr fun heq => h ⟨entry, hentry, heq.symm⟩

/-- **The entries are what is found**, if no key is listed twice. -/
theorem lookup_eq_some_iff_mem (h : (entries.map Prod.fst).Nodup) : entries.lookup k = some v ↔ (k, v) ∈ entries := by
  refine ⟨mem_of_lookup, fun hmem => ?_⟩
  obtain ⟨before, after, rfl⟩ := List.append_of_mem hmem
  rw [List.map_append, List.map_cons] at h
  have hbefore : k ∉ before.map Prod.fst := fun hk => (List.nodup_append.mp h).2.2 k hk k List.mem_cons_self rfl
  rw [List.lookup_append, lookup_eq_none_iff_not_mem_keys.mpr hbefore, List.lookup_cons_self, Option.none_or]

/-- An entry under a new key. -/
theorem nodup_keys_concat (h : (entries.map Prod.fst).Nodup) (hfree : entries.lookup k = none) :
    ((entries ++ [(k, v)]).map Prod.fst).Nodup := by
  rw [List.map_append, List.map_singleton, ← List.concat_eq_append]
  exact h.concat (lookup_eq_none_iff_not_mem_keys.mp hfree)

end TableParser
