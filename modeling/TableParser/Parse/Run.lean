/-!
# Running a step function

A parse driver is given by a single step, which either leads to the next configuration or to the answer. Tables can be
such that no answer is ever reached, so a run is given the number of steps that it may take.

* **More steps change no answer** (`run_of_le`).
-/

namespace TableParser

variable {α β : Type}

/-- Take up to so many steps; there is no result when they do not suffice. -/
def run (step : α → α ⊕ β) : Nat → α → Option β
  | 0, _ => none
  | fuel + 1, a =>
    match step a with
    | .inl next => run step fuel next
    | .inr answer => some answer

theorem run_succ (step : α → α ⊕ β) {fuel : Nat} {a : α} {b : β} (h : run step fuel a = some b) :
    run step (fuel + 1) a = some b := by
  induction fuel generalizing a with
  | zero => cases h
  | succ fuel ih =>
    rw [run] at h ⊢
    cases hs : step a with
    | inl next => rw [hs] at h; exact ih h
    | inr answer => rw [hs] at h; exact h

/-- A run that reaches its answer reaches the same one with more steps at hand. -/
theorem run_of_le (step : α → α ⊕ β) {m n : Nat} {a : α} {b : β} (h : run step m a = some b) (hle : m ≤ n) :
    run step n a = some b := by
  obtain ⟨k, rfl⟩ := Nat.exists_eq_add_of_le hle
  induction k with
  | zero => exact h
  | succ k ih => exact run_succ step (ih (Nat.le_add_right m k))

end TableParser
