import TableParser.Fault
import TableParser.Symbol.Registry

/-!
# The symbol table

A symbol that was asked for is known by its handle, a number of thirty-two bits. The table lists the kinds and names of the
symbols in the order of their first request, and has for each kind the handles of the names.

* **Requests** (`SymbolTable.intern`) are answered with the handle that the name has under its kind; a name without one is
  entered at the end of the list, and its place there is its number.
* **The builtin terminals** (`Handle.builtins`) are entered from the start, under handles that are known beforehand.
* **The registry** of a table (`SymbolTable.registry`) is the list of its symbols.
-/

namespace TableParser

/-- The number of a symbol in the table. -/
structure Handle where
  number : UInt32
deriving DecidableEq, Repr

namespace Handle

/-- The handle for a place in the list of symbols. Numbers start anew when there are none left. -/
def ofPlace (place : Nat) : Handle := ⟨place.toUInt32⟩

/-- The builtin terminals under their handles. -/
def builtins : List (Handle × Symbol) := [
  (⟨0⟩, Symbol.endMarker),
  (⟨1⟩, Symbol.epsilon),
  (⟨2⟩, Symbol.number),
  (⟨3⟩, Symbol.string),
  (⟨4⟩, Symbol.identifier),
  (⟨5⟩, Symbol.newline),
  (⟨6⟩, Symbol.positive),
  (⟨7⟩, Symbol.negative)]

/-- Whether the handle is that of a builtin terminal. -/
def isBuiltin (h : Handle) : Bool := h.number.toNat < builtins.length

/-- Handles compare by their numbers. -/
def compare (h k : Handle) : Ordering := Ord.compare h.number k.number

end Handle

/-- The symbols that were asked for: their kinds and names by number, and their handles by name. -/
structure SymbolTable where
  entries : List (SymbolKind × String)
  terminals : List (String × Handle)
  nonterminals : List (String × Handle)
deriving DecidableEq, Repr

namespace SymbolTable

/-- The table without entries. -/
def empty : SymbolTable := ⟨[], [], []⟩

/-- The handles of the names of a kind. -/
def handles (t : SymbolTable) : SymbolKind → List (String × Handle)
  | .terminal => t.terminals
  | .nonterminal => t.nonterminals

/-- The handle of a symbol, if it was asked for. -/
def find? (t : SymbolTable) (s : Symbol) : Option Handle := (t.handles s.kind).lookup s.name

/-- Enter a symbol at the end, under a handle. -/
def enter (t : SymbolTable) (s : Symbol) (h : Handle) : SymbolTable :=
  match s.kind with
  | .terminal => ⟨t.entries ++ [(.terminal, s.name)], t.terminals ++ [(s.name, h)], t.nonterminals⟩
  | .nonterminal => ⟨t.entries ++ [(.nonterminal, s.name)], t.terminals, t.nonterminals ++ [(s.name, h)]⟩

/-- The table of a fresh program: the builtin terminals only. -/
def start : SymbolTable := Handle.builtins.foldl (fun t b => t.enter b.2 b.1) empty

/-- Ask for a symbol: its handle, and the table in which it has it. -/
def intern (t : SymbolTable) (s : Symbol) : SymbolTable × Handle :=
  match t.find? s with
  | some h => (t, h)
  | none => (t.enter s (.ofPlace t.entries.length), .ofPlace t.entries.length)

/-- The table after several requests. -/
def after (t : SymbolTable) (requests : List Symbol) : SymbolTable := requests.foldl (fun t s => (t.intern s).1) t

/-- Kind and name under a handle. -/
def entry (t : SymbolTable) (h : Handle) : Except Fault (SymbolKind × String) :=
  match t.entries[h.number.toNat]? with
  | some e => .ok e
  | none => .error .outOfRange

/-- The kind of the symbol with a handle. -/
def kindOf (t : SymbolTable) (h : Handle) : Except Fault SymbolKind := (t.entry h).map Prod.fst

/-- The symbols in the order of their first request. -/
def registry (t : SymbolTable) : Registry := ⟨t.entries.map fun e => Symbol.ofKind e.1 e.2⟩

/-! ## Small laws -/

theorem entries_enter (t : SymbolTable) (s : Symbol) (h : Handle) :
    (t.enter s h).entries = t.entries ++ [(s.kind, s.name)] := by
  cases s <;> rfl

theorem lookup_concat (handles : List (String × Handle)) (n m : String) (h : Handle) :
    (handles ++ [(n, h)]).lookup m = (handles.lookup m).or (if m = n then some h else none) := by
  rw [List.lookup_append, List.lookup_cons]
  by_cases hm : m = n
  · rw [beq_iff_eq.mpr hm, if_pos hm]
  · rw [beq_eq_false_iff_ne.mpr hm, if_neg hm]
    rfl

/-- A symbol that is entered is found, unless it was found before. -/
theorem find?_enter (t : SymbolTable) (s u : Symbol) (h : Handle) :
    (t.enter s h).find? u = (t.find? u).or (if u = s then some h else none) := by
  cases s with
  | terminal n =>
    cases u with
    | terminal m =>
      simp only [Symbol.terminal.injEq]
      exact lookup_concat t.terminals n m h
    | nonterminal m => exact Option.or_none.symm
  | nonterminal n =>
    cases u with
    | terminal m => exact Option.or_none.symm
    | nonterminal m =>
      simp only [Symbol.nonterminal.injEq]
      exact lookup_concat t.nonterminals n m h

theorem intern_of_find? {t : SymbolTable} {s : Symbol} {h : Handle} (hf : t.find? s = some h) : t.intern s = (t, h) := by
  unfold intern
  rw [hf]

theorem intern_of_find?_eq_none {t : SymbolTable} {s : Symbol} (hf : t.find? s = none) :
    t.intern s = (t.enter s (.ofPlace t.entries.length), .ofPlace t.entries.length) := by
  unfold intern
  rw [hf]

@[simp] theorem after_nil (t : SymbolTable) : t.after [] = t := rfl

@[simp] theorem after_cons (t : SymbolTable) (s : Symbol) (requests : List Symbol) :
    t.after (s :: requests) = (t.intern s).1.after requests := rfl

end SymbolTable
end TableParser
