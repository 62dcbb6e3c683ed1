import Mathlib.Data.List.Forall2
import TableParser.Trail

/-!
# Folds that may fail

How a computation in `Except` can succeed: a fold by all of its steps in turn, a map by every element. A fold keeps what
its steps keep (`foldlM_invariant`), and if its steps only ever go up, it passes through each of its elements on the way
(`foldlM_passes`).
-/

namespace TableParser

variable {ε α β : Type}

/-- A fold keeps what its steps keep. -/
theorem foldlM_invariant {f : β → α → Except ε β} {xs : List α} {b c : β} {P : β → Prop} (h : xs.foldlM f b = .ok c)
    (hb : P b) (hstep : ∀ x ∈ xs, ∀ b c, P b → f b x = .ok c → P c) : P c := by
  induction xs generalizing b with
  | nil =>
    cases h
    exact hb
  | cons x xs ih =>
    rw [List.foldlM_cons] at h
    obtain ⟨d, hd, hc⟩ := bind_eq_ok_iff.mp h
    exact ih hc (hstep x List.mem_cons_self b d hb hd) fun y hy => hstep y (List.mem_cons_of_mem x hy)

/-- Two folds over a list keep the relation between them that their steps keep. -/
theorem foldlM_related {γ : Type} {f : β → α → Except ε β} {f' : γ → α → Except ε γ} {xs : List α} {b c : β} {b' c' : γ}
    {R : β → γ → Prop} (h : xs.foldlM f b = .ok c) (h' : xs.foldlM f' b' = .ok c') (hb : R b b')
    (hstep : ∀ x ∈ xs, ∀ b c b' c', R b b' → f b x = .ok c → f' b' x = .ok c' → R c c') : R c c' := by
  induction xs generalizing b b' with
  | nil =>
    cases h
    cases h'
    exact hb
  | cons x xs ih =>
    rw [List.foldlM_cons] at h h'
    obtain ⟨d, hd, hc⟩ := bind_eq_ok_iff.mp h
    obtain ⟨d', hd', hc'⟩ := bind_eq_ok_iff.mp h'
    exact ih hc hc' (hstep x List.mem_cons_self b d b' d' hb hd hd') fun y hy => hstep y (List.mem_cons_of_mem x hy)

/-- A fold whose steps succeed on the elements of one kind, in whatever state, succeeds on lists of that kind. -/
theorem exists_foldlM_iff {f : β → α → Except ε β} {p : α → Prop} (hf : ∀ b x, (∃ c, f b x = .ok c) ↔ p x) (xs : List α)
    (b : β) : (∃ c, xs.foldlM f b = .ok c) ↔ ∀ x ∈ xs, p x := by
  induction xs generalizing b with
  | nil => exact iff_of_true ⟨b, rfl⟩ fun x hx => absurd hx List.not_mem_nil
  | cons x xs ih =>
    rw [List.forall_mem_cons, ← hf b x]
    simp only [List.foldlM_cons, bind_eq_ok_iff]
    constructor
    · rintro ⟨c, d, hd, hc⟩
      exact ⟨⟨d, hd⟩, (ih d).mp ⟨c, hc⟩⟩
    · rintro ⟨⟨d, hd⟩, hall⟩
      obtain ⟨c, hc⟩ := (ih d).mpr hall
      exact ⟨c, d, hd, hc⟩

/-- A fold whose steps keep an invariant and go up passes through each of its elements. -/
theorem foldlM_passes {f : β → α → Except ε β} {xs : List α} {b c : β} {P : β → Prop} {R : β → β → Prop}
    (h : xs.foldlM f b = .ok c) (hb : P b) (hrefl : ∀ b, R b b) (htrans : ∀ a b c, R a b → R b c → R a c)
    (hstep : ∀ x ∈ xs, ∀ b c, P b → f b x = .ok c → R b c ∧ P c) :
    R b c ∧ P c ∧ ∀ x ∈ xs, ∃ d e, P d ∧ f d x = .ok e ∧ R e c := by
  induction xs generalizing b with
  | nil =>
    cases h
    refine ⟨hrefl _, hb, ?_⟩
    intro x hx
    cases hx
  | cons x xs ih =>
    rw [List.foldlM_cons] at h
    obtain ⟨d, hd, hc⟩ := bind_eq_ok_iff.mp h
    obtain ⟨hbd, hPd⟩ := hstep x List.mem_cons_self b d hb hd
    obtain ⟨hdc, hPc, hrest⟩ := ih hc hPd fun y hy => hstep y (List.mem_cons_of_mem x hy)
    refine ⟨htrans b d c hbd hdc, hPc, ?_⟩
    intro y hy
    rcases List.mem_cons.mp hy with rfl | hy
    · exact ⟨b, d, hb, hd, hdc⟩
    · exact hrest y hy

/-- A fold whose steps collect something each collects all of it, in order. -/
theorem foldlM_collects {γ : Type} {f : β → α → Except ε β} {collect : α → List γ} {P : List γ → β → Prop} {xs : List α}
    {b c : β} {zs : List γ} (h : xs.foldlM f b = .ok c) (hb : P zs b)
    (hstep : ∀ x ∈ xs, ∀ zs b c, P zs b → f b x = .ok c → P (zs ++ collect x) c) : P (zs ++ xs.flatMap collect) c := by
  induction xs generalizing b zs with
  | nil =>
    cases h
    rwa [List.flatMap_nil, List.append_nil]
  | cons x xs ih =>
    rw [List.foldlM_cons] at h
    obtain ⟨d, hd, hc⟩ := bind_eq_ok_iff.mp h
    rw [List.flatMap_cons, ← List.append_assoc]
    exact ih hc (hstep x List.mem_cons_self zs b d hb hd) fun y hy => hstep y (List.mem_cons_of_mem x hy)

/-- A fold whose steps take one element more each takes all of them, in order. -/
theorem foldlM_takes {f : β → α → Except ε β} {P : List α → β → Prop} {xs : List α} {b c : β} (h : xs.foldlM f b = .ok c)
    (hb : P [] b) (hstep : ∀ x ∈ xs, ∀ taken b c, P taken b → f b x = .ok c → P (taken ++ [x]) c) : P xs c := by
  have hall : P ([] ++ xs.flatMap fun x => [x]) c := foldlM_collects h hb hstep
  rwa [List.nil_append, List.flatMap_singleton'] at hall

/-- A fold whose steps each put one thing more behind those that a state holds succeeds with all of them. -/
theorem foldlM_appends {γ : Type} {f : β → α → Except ε β} (state : List γ → β) {g : α → γ} {xs : List α}
    (hstep : ∀ x ∈ xs, ∀ done, f (state done) x = .ok (state (done ++ [g x]))) (done : List γ) :
    xs.foldlM f (state done) = .ok (state (done ++ xs.map g)) := by
  induction xs generalizing done with
  | nil =>
    rw [List.map_nil, List.append_nil]
    rfl
  | cons x xs ih =>
    rw [List.foldlM_cons, hstep x List.mem_cons_self done]
    refine (ih (fun y hy => hstep y (List.mem_cons_of_mem x hy)) (done ++ [g x])).trans ?_
    rw [List.append_assoc, List.map_cons, List.singleton_append]

theorem mapM_eq_ok_iff {f : α → Except ε β} {xs : List α} {ys : List β} :
    xs.mapM f = .ok ys ↔ List.Forall₂ (fun x y => f x = .ok y) xs ys := by
  induction xs generalizing ys with
  | nil =>
    rw [List.mapM_nil, List.forall₂_nil_left_iff]
    constructor
    · intro h
      cases h
      rfl
    · rintro rfl
      rfl
  | cons x xs ih =>
    rw [List.mapM_cons, bind_eq_ok_iff, List.forall₂_cons_left_iff]
    constructor
    · rintro ⟨y, hy, h⟩
      obtain ⟨zs, hzs, h⟩ := bind_eq_ok_iff.mp h
      cases h
      exact ⟨y, zs, hy, ih.mp hzs, rfl⟩
    · rintro ⟨y, zs, hy, hzs, rfl⟩
      exact ⟨y, hy, bind_eq_ok_iff.mpr ⟨zs, ih.mpr hzs, rfl⟩⟩

/-- What the results of a map have in common with the elements, they have in common one by one. -/
theorem map_eq_map_of_mapM {γ : Type} {f : α → Except ε β} {u : α → γ} {v : β → γ} {xs : List α} {ys : List β}
    (h : xs.mapM f = .ok ys) (huv : ∀ x ∈ xs, ∀ y, f x = .ok y → v y = u x) : ys.map v = xs.map u := by
  have hall := mapM_eq_ok_iff.mp h
  clear h
  induction hall with
  | nil => rfl
  | cons hx _ ih =>
    rw [List.map_cons, List.map_cons, huv _ List.mem_cons_self _ hx,
      ih fun x hm => huv x (List.mem_cons_of_mem _ hm)]

/-- Every result of a map comes from an element. -/
theorem exists_of_mem_mapM {f : α → Except ε β} {xs : List α} {ys : List β} (h : xs.mapM f = .ok ys) {y : β}
    (hy : y ∈ ys) : ∃ x ∈ xs, f x = .ok y := by
  have hall := mapM_eq_ok_iff.mp h
  clear h
  induction hall with
  | nil => cases hy
  | cons hx _ ih =>
    rcases List.mem_cons.mp hy with rfl | hy
    · exact ⟨_, List.mem_cons_self, hx⟩
    · obtain ⟨x, hm, hx⟩ := ih hy
      exact ⟨x, List.mem_cons_of_mem _ hm, hx⟩

/-- Every element of a map has a result. -/
theorem exists_mem_of_mapM {f : α → Except ε β} {xs : List α} {ys : List β} (h : xs.mapM f = .ok ys) {x : α}
    (hx : x ∈ xs) : ∃ y ∈ ys, f x = .ok y := by
  have hall := mapM_eq_ok_iff.mp h
  clear h
  induction hall with
  | nil => cases hx
  | cons hy _ ih =>
    rcases List.mem_cons.mp hx with rfl | hx
    · exact ⟨_, List.mem_cons_self, hy⟩
    · obtain ⟨y, hm, hy⟩ := ih hx
      exact ⟨y, List.mem_cons_of_mem _ hm, hy⟩

/-! ## Failures -/

/-- A map fails at one of its elements. -/
theorem exists_of_mapM_error {f : α → Except ε β} {xs : List α} {e : ε} (h : xs.mapM f = .error e) :
    ∃ x ∈ xs, f x = .error e := by
  induction xs with
  | nil => cases h
  | cons x xs ih =>
    rw [List.mapM_cons] at h
    rcases bind_eq_error_iff.mp h with hx | ⟨y, _, h⟩
    · exact ⟨x, List.mem_cons_self, hx⟩
    · rcases bind_eq_error_iff.mp h with hxs | ⟨ys, _, h⟩
      · obtain ⟨z, hz, hze⟩ := ih hxs
        exact ⟨z, List.mem_cons_of_mem x hz, hze⟩
      · cases h

/-- A fold fails at one of its elements, up to which it keeps what its steps keep. -/
theorem exists_of_foldlM_error {f : β → α → Except ε β} {xs : List α} {b : β} {e : ε} {P : β → Prop}
    (h : xs.foldlM f b = .error e) (hb : P b) (hstep : ∀ x ∈ xs, ∀ b c, P b → f b x = .ok c → P c) :
    ∃ x ∈ xs, ∃ c, P c ∧ f c x = .error e := by
  induction xs generalizing b with
  | nil => cases h
  | cons x xs ih =>
    rw [List.foldlM_cons] at h
    rcases bind_eq_error_iff.mp h with hx | ⟨c, hc, h⟩
    · exact ⟨x, List.mem_cons_self, b, hb, hx⟩
    · obtain ⟨y, hy, d, hd, hye⟩ := ih h (hstep x List.mem_cons_self b c hb hc)
        fun y hy => hstep y (List.mem_cons_of_mem x hy)
      exact ⟨y, List.mem_cons_of_mem x hy, d, hd, hye⟩

end TableParser
