import TableParser.Symbol
import TableParser.Text.Layout

/-!
# Sets of symbols

Sets list their members in the order of insertion, and a table of sets lists its entries in the order in which they
were created. Both only ever grow.
-/

namespace TableParser

/-- Add a symbol behind the others unless it is there already. -/
def insertSymbol (set : List Symbol) (s : Symbol) : List Symbol := if set.contains s then set else set ++ [s]

/-- Add several symbols, from left to right. -/
def insertSymbols (set added : List Symbol) : List Symbol := added.foldl insertSymbol set

theorem mem_insertSymbol {set : List Symbol} {s u : Symbol} : u ∈ insertSymbol set s ↔ u ∈ set ∨ u = s := by
  unfold insertSymbol
  split
  · rename_i h
    exact ⟨Or.inl, fun hu => hu.elim id fun hu => hu ▸ List.contains_iff_mem.mp h⟩
  · simp

theorem mem_insertSymbols {set added : List Symbol} {u : Symbol} :
    u ∈ insertSymbols set added ↔ u ∈ set ∨ u ∈ added := by
  induction added generalizing set with
  | nil => simp [insertSymbols]
  | cons s added ih =>
    rw [insertSymbols, List.foldl_cons, ← insertSymbols, ih, mem_insertSymbol, List.mem_cons, or_assoc]

/-- Adding a symbol does not list any member twice. -/
theorem nodup_insertSymbol {set : List Symbol} (h : set.Nodup) (s : Symbol) : (insertSymbol set s).Nodup := by
  unfold insertSymbol
  split
  · exact h
  · rename_i hs
    refine List.nodup_append.mpr ⟨h, List.pairwise_singleton _ _, ?_⟩
    intro u hu v hv huv
    rw [List.mem_singleton.mp hv] at huv
    exact hs (List.contains_iff_mem.mpr (huv ▸ hu))

theorem nodup_insertSymbols {set : List Symbol} (h : set.Nodup) (added : List Symbol) :
    (insertSymbols set added).Nodup := by
  induction added generalizing set with
  | nil => exact h
  | cons s added ih => exact ih (nodup_insertSymbol h s)

/-- A set for each of some symbols. -/
structure SymbolSets where
  entries : List (Symbol × List Symbol)
deriving DecidableEq, Repr

namespace SymbolSets

/-- The table without entries. -/
def empty : SymbolSets := ⟨[]⟩

/-- The set of a symbol, if it has an entry. -/
def get? (t : SymbolSets) (s : Symbol) : Option (List Symbol) := t.entries.lookup s

/-- The members of the set of a symbol; a symbol without an entry has none. -/
def members (t : SymbolSets) (s : Symbol) : List Symbol := (t.get? s).getD []

/-- Add members to the set of a symbol, which gets its entry now if it has none. -/
def add (t : SymbolSets) (s : Symbol) (added : List Symbol) : SymbolSets :=
  match t.get? s with
  | none => ⟨t.entries ++ [(s, insertSymbols [] added)]⟩
  | some _ => ⟨t.entries.map fun (key, set) => if key = s then (key, insertSymbols set added) else (key, set)⟩

/-- The number of members of all sets together. -/
def size (t : SymbolSets) : Nat := (t.entries.flatMap Prod.snd).length

/-- Whether a table has more members than it had before. -/
def grew (before after : SymbolSets) : Bool := before.size < after.size

/-- The table under a heading, one set a line. -/
def render (title : String) (t : SymbolSets) : String :=
  Text.heading title ++ String.join (t.entries.map fun (s, set) =>
    Text.padRight Text.nameWidth s.name ++ "\x7b " ++ ", ".intercalate (set.map Symbol.name) ++ " \x7d\n")

/-! ## Reading what was added -/

private theorem lookup_map_insert (entries : List (Symbol × List Symbol)) (s k : Symbol) (added : List Symbol) :
    (entries.map fun (key, set) => if key = s then (key, insertSymbols set added) else (key, set)).lookup k =
      (entries.lookup k).map fun set => if k = s then insertSymbols set added else set := by
  induction entries with
  | nil => rfl
  | cons entry entries ih =>
    obtain ⟨key, set⟩ := entry
    rw [List.map_cons]
    by_cases hk : k = key
    · subst hk
      by_cases hs : k = s <;> simp [hs]
    · have hb : (k == key) = false := beq_eq_false_iff_ne.mpr hk
      have hrest : List.lookup k ((key, set) :: entries) = List.lookup k entries := by rw [List.lookup_cons, hb]
      rw [hrest, ← ih]
      dsimp only
      split <;> rw [List.lookup_cons, hb]

/-- Adding to one set adds to no other. -/
theorem members_add (t : SymbolSets) (s k : Symbol) (added : List Symbol) :
    (t.add s added).members k = if k = s then insertSymbols (t.members k) added else t.members k := by
  unfold members add
  cases hs : t.get? s with
  | none =>
    have hs' : t.entries.lookup s = none := hs
    by_cases hk : k = s
    · subst hk
      simp [get?, List.lookup_append, hs']
    · have hb : (k == s) = false := beq_eq_false_iff_ne.mpr hk
      simp [get?, List.lookup_append, List.lookup_cons, hb, hk]
  | some old =>
    have hs' : t.entries.lookup s = some old := hs
    simp only [get?, lookup_map_insert]
    by_cases hk : k = s
    · subst hk
      simp [hs']
    · simp [hk]

end SymbolSets
end TableParser
