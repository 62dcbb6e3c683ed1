import TableParser.Symbol

/-!
# The symbol registry

A registry lists the symbols seen so far, each once, in the order in which they were first asked for, the builtin
terminals in front. The place of a symbol in the list is its rank, and symbols compare by rank.

* **Interning** (`Registry.intern`) puts a new symbol at the end and leaves a known one where it is.
* **The order** (`Registry.compare`) is the order of first requests; symbols that were never asked for come last, the
  terminals before the nonterminals and otherwise by name, so that the order is linear whatever the registry.
-/

namespace TableParser

/-- The symbols known so far, in the order of their first request. -/
structure Registry where
  symbols : List Symbol
deriving DecidableEq, Repr

namespace Registry

/-- The registry of a fresh program: the builtin terminals only. -/
def fresh : Registry := ⟨Symbol.builtins⟩

/-- Whether the symbol was asked for before. -/
def knows (r : Registry) (s : Symbol) : Bool := r.symbols.contains s

/-- Make the symbol known. -/
def intern (r : Registry) (s : Symbol) : Registry := if r.knows s then r else ⟨r.symbols ++ [s]⟩

/-- Make several symbols known, from left to right. -/
def internAll (r : Registry) (symbols : List Symbol) : Registry := symbols.foldl intern r

/-- The place of the symbol in the registry, or the size of the registry when it is not known. -/
def rank (r : Registry) (s : Symbol) : Nat := r.symbols.idxOf s

/-- Make the symbol known and tell its place. -/
def request (r : Registry) (s : Symbol) : Registry × Nat := ((r.intern s), (r.intern s).rank s)

/-- Terminals come before nonterminals. -/
def kindRank : Symbol → Nat
  | .terminal _ => 0
  | .nonterminal _ => 1

/-- Compare two symbols by the time of their first request. -/
def compare (r : Registry) (a b : Symbol) : Ordering :=
  (Ord.compare (r.rank a) (r.rank b)).then
    ((Ord.compare (kindRank a) (kindRank b)).then (Ord.compare a.name b.name))

/-! ## Small laws -/

@[simp] theorem knows_iff {r : Registry} {s : Symbol} : r.knows s = true ↔ s ∈ r.symbols := by
  simp [knows]

theorem intern_of_mem {r : Registry} {s : Symbol} (h : s ∈ r.symbols) : r.intern s = r := by
  simp [intern, h]

theorem intern_of_notMem {r : Registry} {s : Symbol} (h : s ∉ r.symbols) : r.intern s = ⟨r.symbols ++ [s]⟩ := by
  simp [intern, h]

theorem mem_symbols_intern {r : Registry} {s u : Symbol} : u ∈ (r.intern s).symbols ↔ u ∈ r.symbols ∨ u = s := by
  unfold intern
  split
  · rename_i h
    exact ⟨Or.inl, fun hu => hu.elim id fun hu => hu ▸ knows_iff.mp h⟩
  · simp

/-- Known symbols keep their places: a request only ever appends. -/
theorem symbols_isPrefix_intern (r : Registry) (s : Symbol) : r.symbols <+: (r.intern s).symbols := by
  unfold intern
  split
  · exact List.prefix_rfl
  · exact List.prefix_append _ _

/-- A registry lists each symbol once. -/
theorem nodup_symbols_intern {r : Registry} (h : r.symbols.Nodup) (s : Symbol) : (r.intern s).symbols.Nodup := by
  unfold intern
  split
  · exact h
  · rename_i hs
    refine List.nodup_append.mpr ⟨h, List.pairwise_singleton _ _, ?_⟩
    intro u hu v hv huv
    rw [List.mem_singleton.mp hv] at huv
    exact hs (knows_iff.mpr (huv ▸ hu))

end Registry
end TableParser
