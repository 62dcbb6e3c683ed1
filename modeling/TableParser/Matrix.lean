/-!
# Two-key tables

A table that is addressed by a pair of keys, lists its entries in the order of their insertion and keeps the first
value of a slot.

* **The first entry stays** (`Matrix.insert`): a second insertion into a slot changes nothing and returns what is
  stored there.
* **Order does not matter for equality** (`Matrix.sameEntries`).
-/

namespace TableParser

/-- Entries with their two keys, in the order of insertion. -/
structure Matrix (κ₁ κ₂ ν : Type) where
  entries : List ((κ₁ × κ₂) × ν)
deriving DecidableEq, Repr

namespace Matrix

variable {κ₁ κ₂ ν : Type} [DecidableEq κ₁] [DecidableEq κ₂]

/-- The table without entries. -/
def empty : Matrix κ₁ κ₂ ν := ⟨[]⟩

/-- The value in a slot. -/
def get? (m : Matrix κ₁ κ₂ ν) (k₁ : κ₁) (k₂ : κ₂) : Option ν := m.entries.lookup (k₁, k₂)

/-- Fill a slot, or return what it holds already. -/
def insert (m : Matrix κ₁ κ₂ ν) (k₁ : κ₁) (k₂ : κ₂) (v : ν) : Except ν (Matrix κ₁ κ₂ ν) :=
  match m.get? k₁ k₂ with
  | some stored => .error stored
  | none => .ok ⟨m.entries ++ [((k₁, k₂), v)]⟩

/-- Fill a slot unless it is taken. -/
def insertNew (m : Matrix κ₁ κ₂ ν) (k₁ : κ₁) (k₂ : κ₂) (v : ν) : Matrix κ₁ κ₂ ν :=
  match m.insert k₁ k₂ v with
  | .error _ => m
  | .ok m => m

/-- The entries under one first key, as second key and value. -/
def row (m : Matrix κ₁ κ₂ ν) (k₁ : κ₁) : List (κ₂ × ν) :=
  m.entries.filterMap fun ((a, b), v) => if a = k₁ then some (b, v) else none

/-- All entries, as first key, second key and value. -/
def toList (m : Matrix κ₁ κ₂ ν) : List (κ₁ × κ₂ × ν) := m.entries.map fun ((a, b), v) => (a, b, v)

/-- The number of entries. -/
def size (m : Matrix κ₁ κ₂ ν) : Nat := m.entries.length

/-- Whether there is no entry. -/
def isEmpty (m : Matrix κ₁ κ₂ ν) : Bool := m.entries.isEmpty

/-- Whether two tables hold the same entries, in whatever order. -/
def sameEntries [DecidableEq ν] (m n : Matrix κ₁ κ₂ ν) : Bool :=
  m.size == n.size && m.entries.all fun ((a, b), v) => n.get? a b == some v

/-! ## Reading what was inserted -/

@[simp] theorem get?_empty (k₁ : κ₁) (k₂ : κ₂) : (empty : Matrix κ₁ κ₂ ν).get? k₁ k₂ = none := rfl

/-- An insertion is refused exactly when the slot is taken, with the value that is there. -/
theorem insert_eq_error_iff {m : Matrix κ₁ κ₂ ν} {k₁ : κ₁} {k₂ : κ₂} {v stored : ν} :
    m.insert k₁ k₂ v = .error stored ↔ m.get? k₁ k₂ = some stored := by
  unfold insert
  cases m.get? k₁ k₂ <;> simp

/-- What is inserted goes into a free slot. -/
theorem get?_eq_none_of_insert {m n : Matrix κ₁ κ₂ ν} {k₁ : κ₁} {k₂ : κ₂} {v : ν} (h : m.insert k₁ k₂ v = .ok n) :
    m.get? k₁ k₂ = none := by
  cases hg : m.get? k₁ k₂ with
  | none => rfl
  | some stored =>
    rw [insert_eq_error_iff.mpr hg] at h
    cases h

/-- An insertion fills its slot and leaves the others as they are. -/
theorem get?_of_insert {m n : Matrix κ₁ κ₂ ν} {k₁ : κ₁} {k₂ : κ₂} {v : ν} (h : m.insert k₁ k₂ v = .ok n) (a : κ₁)
    (b : κ₂) : n.get? a b = if (a, b) = (k₁, k₂) then some v else m.get? a b := by
  have hfree := get?_eq_none_of_insert h
  have hl : m.entries.lookup (k₁, k₂) = none := hfree
  unfold insert at h
  rw [hfree] at h
  cases h
  by_cases hk : (a, b) = (k₁, k₂)
  · rw [if_pos hk, get?, List.lookup_append, hk, hl]
    simp
  · have hb : ((a, b) == (k₁, k₂)) = false := beq_eq_false_iff_ne.mpr hk
    rw [if_neg hk, get?, List.lookup_append, List.lookup_cons, hb]
    simp [get?]

end Matrix
end TableParser
