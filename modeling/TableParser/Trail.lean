/-!
# Computations that leave a trail

A `Trail` collects what a computation puts out on its way and the result it ends with. What was put out before a
failure stays: a dump that stops halfway has printed its first half, a build that fails has reported its first steps.

* **Results compose without the trail** (`Trail.result_bind`, `Trail.result_foldlM`), so a statement about what a
  computation returns never needs to look at what it put out.
* **A result of two computations**, one after the other, is a result of both (`bind_eq_ok_iff`, `bind_eq_error_iff`).
-/

namespace TableParser

/-! ## Results of computations that may fail -/

section Results

variable {ε α β : Type}

theorem bind_eq_ok_iff {x : Except ε α} {f : α → Except ε β} {b : β} :
    (x >>= f) = .ok b ↔ ∃ a, x = .ok a ∧ f a = .ok b := by
  cases x with
  | error e => simp [bind, Except.bind]
  | ok a => simp [bind, Except.bind]

/-- Two computations, one after the other, fail with one of them. -/
theorem bind_eq_error_iff {x : Except ε α} {f : α → Except ε β} {e : ε} :
    (x >>= f) = .error e ↔ x = .error e ∨ ∃ a, x = .ok a ∧ f a = .error e := by
  cases x with
  | error e' => simp [bind, Except.bind]
  | ok a => simp [bind, Except.bind]

theorem map_eq_ok_iff {x : Except ε α} {f : α → β} {b : β} : x.map f = .ok b ↔ ∃ a, x = .ok a ∧ f a = b := by
  cases x with
  | error e => simp [Except.map]
  | ok a => simp [Except.map]

theorem mapError_eq_ok_iff {δ : Type} {x : Except ε α} {f : ε → δ} {a : α} : x.mapError f = .ok a ↔ x = .ok a := by
  cases x with
  | error e => exact ⟨nofun, nofun⟩
  | ok b => exact ⟨fun h => congrArg _ (Except.ok.inj h), fun h => congrArg _ (Except.ok.inj h)⟩

theorem toOption_eq_some_iff {x : Except ε α} {a : α} : x.toOption = some a ↔ x = .ok a := by
  cases x with
  | error e => simp [Except.toOption]
  | ok a => simp [Except.toOption]

theorem exists_ok_of_any {x : Except ε α} {p : α → Bool} (h : x.toOption.any p = true) : ∃ a, x = .ok a ∧ p a = true := by
  obtain ⟨a, ha, hp⟩ := (Option.any_eq_true p x.toOption).mp h
  exact ⟨a, toOption_eq_some_iff.mp ha, hp⟩

/-- An answer without an error has a value. -/
theorem exists_answer_of_isSome {x : Option (Except ε α)} (h : (x.bind Except.toOption).isSome = true) :
    ∃ a, x = some (.ok a) := by
  obtain ⟨a, ha⟩ := Option.isSome_iff_exists.mp h
  obtain ⟨y, hy, hya⟩ := Option.bind_eq_some_iff.mp ha
  exact ⟨a, by rw [hy, toOption_eq_some_iff.mp hya]⟩

end Results

/-! ## Trails -/

/-- What a computation put out, in order, and how it ended. -/
structure Trail (ω ε α : Type) where
  emitted : List ω
  result : Except ε α

namespace Trail

variable {ω ε α β : Type}

/-- Put out one thing. -/
def put (x : ω) : Trail ω ε Unit := ⟨[x], .ok ()⟩

/-- Put out several things. -/
def putAll (xs : List ω) : Trail ω ε Unit := ⟨xs, .ok ()⟩

/-- End with an error. -/
def stop (e : ε) : Trail ω ε α := ⟨[], .error e⟩

/-- A computation that puts out nothing. -/
def lift (r : Except ε α) : Trail ω ε α := ⟨[], r⟩

/-- Go on with a result, behind what was put out before. -/
def andThen (t : Trail ω ε α) (f : α → Trail ω ε β) : Trail ω ε β :=
  match t.result with
  | .ok a => ⟨t.emitted ++ (f a).emitted, (f a).result⟩
  | .error e => ⟨t.emitted, .error e⟩

instance : Monad (Trail ω ε) where
  pure a := ⟨[], .ok a⟩
  bind := andThen

instance : MonadExceptOf ε (Trail ω ε) where
  throw := stop
  tryCatch t handle :=
    match t.result with
    | .ok a => ⟨t.emitted, .ok a⟩
    | .error e => ⟨t.emitted ++ (handle e).emitted, (handle e).result⟩

instance : MonadLift (Except ε) (Trail ω ε) where
  monadLift := lift

/-- Run the parts one after the other, up to the first that fails. -/
def all (parts : List (Trail ω ε Unit)) : Trail ω ε Unit :=
  parts.foldr (fun t rest => t.andThen fun _ => rest) (pure ())

/-- Change what errors say. -/
def mapError {δ : Type} (f : ε → δ) (t : Trail ω ε α) : Trail ω δ α := ⟨t.emitted, t.result.mapError f⟩

/-! ## Results without the trail -/

@[simp] theorem result_pure (a : α) : (pure a : Trail ω ε α).result = pure a := rfl

@[simp] theorem result_put (x : ω) : (put x : Trail ω ε Unit).result = .ok () := rfl

@[simp] theorem result_putAll (xs : List ω) : (putAll xs : Trail ω ε Unit).result = .ok () := rfl

@[simp] theorem result_stop (e : ε) : (stop e : Trail ω ε α).result = .error e := rfl

@[simp] theorem result_lift (r : Except ε α) : (lift r : Trail ω ε α).result = r := rfl

@[simp] theorem result_bind (t : Trail ω ε α) (f : α → Trail ω ε β) :
    (t >>= f).result = t.result >>= fun a => (f a).result := by
  show (andThen t f).result = _
  unfold andThen
  cases t.result <;> rfl

theorem result_bind_eq_ok_iff {t : Trail ω ε α} {f : α → Trail ω ε β} {b : β} :
    (t >>= f).result = .ok b ↔ ∃ a, t.result = .ok a ∧ (f a).result = .ok b := by
  rw [result_bind, bind_eq_ok_iff]

instance : LawfulMonad (Trail ω ε) :=
  LawfulMonad.mk' _
    (by
      rintro α ⟨xs, r⟩
      cases r <;> simp [Functor.map, andThen])
    (by
      intro α β a f
      simp [bind, pure, andThen])
    (by
      rintro α β γ ⟨xs, r⟩ f g
      cases r with
      | error e => rfl
      | ok a =>
        simp only [bind, andThen]
        cases (f a).result <;> simp)

theorem result_foldlM (f : β → α → Trail ω ε β) (b : β) (xs : List α) :
    (xs.foldlM f b).result = xs.foldlM (fun b a => (f b a).result) b := by
  induction xs generalizing b with
  | nil => rfl
  | cons x xs ih => simp [ih]

end Trail
end TableParser
