import TableParser.Fault

/-!
# Numbers of a fixed width

Positions count in thirty-two bits, the numbers of rules, alternatives, states and dots in sixteen. A sum that does not
fit is a fault.

* **Checked sums** (`sum16`, `sum32`) are the sums of the numbers whenever there is one (`sum16_eq_ok_iff`,
  `sum32_eq_ok_iff`).
-/

namespace TableParser

/-- The first number that does not fit into sixteen bits. -/
def wordLimit : Nat := 65536

/-- The first number that does not fit into thirty-two bits. -/
def doubleWordLimit : Nat := 4294967296

/-- The sum of two numbers of sixteen bits, which has to fit. -/
def sum16 (a b : UInt16) : Except Fault UInt16 :=
  if a.toNat + b.toNat < wordLimit then .ok (a + b) else .error .additionOverflow

/-- The sum of two numbers of thirty-two bits, which has to fit. -/
def sum32 (a b : UInt32) : Except Fault UInt32 :=
  if a.toNat + b.toNat < doubleWordLimit then .ok (a + b) else .error .additionOverflow

theorem sum16_eq_ok_iff {a b c : UInt16} : sum16 a b = .ok c ↔ a.toNat + b.toNat = c.toNat := by
  unfold sum16 wordLimit
  have hc := c.toNat_lt
  split
  · rename_i h
    rw [Except.ok.injEq, ← UInt16.toNat_inj, UInt16.toNat_add, Nat.mod_eq_of_lt h]
  · rename_i h
    exact ⟨fun h => (by cases h), fun h' => absurd (h' ▸ hc) h⟩

theorem sum32_eq_ok_iff {a b c : UInt32} : sum32 a b = .ok c ↔ a.toNat + b.toNat = c.toNat := by
  unfold sum32 doubleWordLimit
  have hc := c.toNat_lt
  split
  · rename_i h
    rw [Except.ok.injEq, ← UInt32.toNat_inj, UInt32.toNat_add, Nat.mod_eq_of_lt h]
  · rename_i h
    exact ⟨fun h => (by cases h), fun h' => absurd (h' ▸ hc) h⟩

end TableParser
