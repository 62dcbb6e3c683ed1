import Mathlib.Data.List.Count
import Mathlib.Data.List.Dedup
import TableParser.Proofs.PredictiveConflicts

/-!
# How often a conflict is recorded

An alternative is entered under the terminals that it can begin with, and then, if it can vanish, under those that follow its
left-hand side. A terminal of both kinds is entered twice. If the alternative has the slot, the second time passes in
silence; if it has lost the slot, it loses it once more.

* **Requests for slots** (`LL.Filling.Records`): the conflicts are those of the requests with the finished table, in order.
* **Whole parsers** (`LL.Parser.recordsLosses_of_build`): every losing pair of a slot and an alternative is recorded, once
  or twice, and each record is reported by one warning.
* **A conflict that is recorded twice** (`LL.Parser.not_nodup_conflicts_repeated`).
-/

namespace TableParser

/-! ## Warnings -/

/-- The text of a warning. -/
def Event.warning? : Event → Option String
  | .note .warn text => some text
  | _ => none

namespace Reported

variable {ε α β : Type} {t : Reported ε α} {f : α → Reported ε β} {a : α}

/-- The warnings that a computation reports on its way, in order. -/
def warnings (t : Reported ε α) : List String := t.emitted.filterMap Event.warning?

theorem warnings_bind (h : t.result = .ok a) : warnings (t >>= f) = warnings t ++ warnings (f a) := by
  unfold warnings
  show ((Trail.andThen t f).emitted).filterMap _ = _
  unfold Trail.andThen
  rw [h]
  exact List.filterMap_append

/-- A computation without warnings. -/
def Quiet (t : Reported ε α) : Prop := warnings t = []

theorem quiet_pure (a : α) : Quiet (pure a : Reported ε α) := rfl

theorem quiet_lift (r : Except ε α) : Quiet (Trail.lift r : Reported ε α) := rfl

theorem quiet_intern (s : Symbol) : Quiet (intern s : Reported ε Unit) := rfl

theorem quiet_debug (text : String) : Quiet (note .debug text : Reported ε Unit) := rfl

theorem Quiet.bind (h : Quiet t) (h' : ∀ a, Quiet (f a)) : Quiet (t >>= f) := by
  cases ht : t.result with
  | ok a =>
    unfold Quiet
    rw [warnings_bind ht, h, h' a]
    rfl
  | error e =>
    show ((Trail.andThen t f).emitted).filterMap _ = _
    unfold Trail.andThen
    rw [ht]
    exact h

theorem quiet_foldlM {f : β → α → Reported ε β} (h : ∀ b a, Quiet (f b a)) (xs : List α) (b : β) :
    Quiet (xs.foldlM f b) := by
  induction xs generalizing b with
  | nil => exact quiet_pure b
  | cons x xs ih =>
    rw [List.foldlM_cons]
    exact (h b x).bind ih

end Reported

open Reported

/-- Removing left recursion warns of nothing. -/
theorem Grammar.quiet_removeLeftRecursion (g : Grammar) (order : Registry) : Quiet (g.removeLeftRecursion order) := by
  refine Quiet.bind (quiet_foldlM (fun s r => ?_) g.rules _) fun s => quiet_pure _
  unfold RecursionRemoval.step
  split
  · exact quiet_pure _
  · split
    · rfl
    · exact (quiet_intern _).bind fun _ => (quiet_debug _).bind fun _ => quiet_pure _

/-- Left factoring warns of nothing. -/
theorem Grammar.quiet_leftFactor {ε : Type} (g : Grammar) (order : Registry) :
    Quiet (g.leftFactor order : Reported ε Transformation) := by
  have hrounds : ∀ fuel (s : Factoring), Quiet (Factoring.rounds fuel s : Reported ε Factoring) := by
    intro fuel
    induction fuel with
    | zero => exact fun s => quiet_pure s
    | succ fuel ih =>
      intro s
      unfold Factoring.rounds
      split
      · exact quiet_pure s
      · exact Quiet.bind ((quiet_intern _).bind fun _ => (quiet_debug _).bind fun _ => quiet_pure _) ih
  refine Quiet.bind (quiet_foldlM (fun s r => ?_) g.rules _) fun s => quiet_pure _
  exact (hrounds _ _).bind fun _ => quiet_pure _

/-- The FIRST sets are computed without warnings. -/
theorem FirstSets.quiet_report {ε : Type} (g : Grammar) : Quiet (report g : Reported ε FirstSets) :=
  (quiet_debug _).bind fun _ => quiet_pure _

/-- The FOLLOW sets are computed without warnings. -/
theorem FollowSets.quiet_report (g : Grammar) (first : FirstSets) : Quiet (report g first) :=
  (quiet_lift _).bind fun _ => (quiet_debug _).bind fun _ => quiet_pure _

namespace LL

/-- The terminal predicts the alternative in both ways: its symbols can begin with the terminal, and they can vanish and the
terminal follows the nonterminal. -/
def PredictsTwice (g : Grammar) (first : FirstSets) (follow : FollowSets) (lhs t : Symbol) (id : AlternativeId) : Prop :=
  ∃ r a, g.target? id = some (r, a) ∧ r.lhs = lhs ∧ (t ∈ first.ofSequence a.symbols ∧ t ≠ Symbol.epsilon) ∧
    Symbol.epsilon ∈ first.ofSequence a.symbols ∧ t ∈ SymbolSets.members follow lhs

theorem PredictsTwice.predicts {g : Grammar} {first : FirstSets} {follow : FollowSets} {lhs t : Symbol}
    {id : AlternativeId} (h : PredictsTwice g first follow lhs t id) : Predicts g first follow lhs t id := by
  obtain ⟨r, a, htarget, hlhs, hbegins, _⟩ := h
  exact ⟨r, a, htarget, hlhs, .inl hbegins⟩

open Classical in
/-- A terminal is listed in a predict set once for each way in which it predicts the alternative. -/
theorem count_predictSet {first : FirstSets} {follow : FollowSets} {lhs t : Symbol} {symbols : List Symbol}
    (hfollow : (SymbolSets.members follow lhs).Nodup) : (predictSet first follow lhs symbols).count t =
      (if t ∈ first.ofSequence symbols ∧ t ≠ Symbol.epsilon then 1 else 0) +
        if Symbol.epsilon ∈ first.ofSequence symbols ∧ t ∈ SymbolSets.members follow lhs then 1 else 0 := by
  have hfirst : (first.ofSequence symbols).Nodup := nodup_insertSymbols .nil _
  unfold predictSet
  dsimp only
  rw [List.count_append]
  congr 1
  · rw [(hfirst.filter _).count]
    simp only [List.mem_filter, bne_iff_ne]
  · split
    · rename_i hmem
      rw [hfollow.count]
      simp only [List.contains_iff_mem.mp hmem, true_and]
    · rename_i hmem
      have hnot : Symbol.epsilon ∉ first.ofSequence symbols := fun h => hmem (List.contains_iff_mem.mpr h)
      rw [if_neg fun h => hnot h.1, List.count_nil]

/-! ## Requests for slots -/

/-- An alternative that is entered into a slot of the table. -/
structure Request where
  nonterminal : Symbol
  terminal : Symbol
  alternative : AlternativeId
deriving DecidableEq

namespace Request

/-- What is recorded about a request when the slot has its entry. -/
def loss? (table : Table) (x : Request) : Option Conflict :=
  (table.get? x.nonterminal x.terminal).bind fun kept =>
    if kept = x.alternative then none else some ⟨x.nonterminal, x.terminal, kept, x.alternative⟩

theorem loss?_eq_some {table : Table} {x : Request} {c : Conflict} : x.loss? table = some c ↔
    (table.get? c.nonterminal c.terminal = some c.kept ∧ c.dropped ≠ c.kept) ∧
      x = ⟨c.nonterminal, c.terminal, c.dropped⟩ := by
  obtain ⟨lhs, t, id⟩ := x
  obtain ⟨lhs', t', kept', dropped⟩ := c
  unfold loss?
  rw [Option.bind_eq_some_iff]
  dsimp only
  constructor
  · rintro ⟨kept, hget, h⟩
    split at h
    · cases h
    · rename_i hne
      cases h
      exact ⟨⟨hget, Ne.symm hne⟩, rfl⟩
  · rintro ⟨⟨hget, hne⟩, h⟩
    cases h
    exact ⟨kept', hget, if_neg (Ne.symm hne)⟩

/-- The requests for an alternative. -/
def ofAlternative (g : Grammar) (first : FirstSets) (follow : FollowSets) (id : AlternativeId) : List Request :=
  match g.target? id with
  | none => []
  | some (r, a) => (predictSet first follow r.lhs a.symbols).map fun t => ⟨r.lhs, t, id⟩

variable {g : Grammar} {first : FirstSets} {follow : FollowSets} {x : Request}

theorem ofAlternative_of_target {id : AlternativeId} {r : Rule} {a : Alternative} (h : g.target? id = some (r, a)) :
    ofAlternative g first follow id = (predictSet first follow r.lhs a.symbols).map fun t => ⟨r.lhs, t, id⟩ := by
  unfold ofAlternative
  rw [h]

theorem mem_ofAlternative {id : AlternativeId} : x ∈ ofAlternative g first follow id ↔
    x.alternative = id ∧ Predicts g first follow x.nonterminal x.terminal id := by
  cases htarget : g.target? id with
  | none =>
    unfold ofAlternative Predicts
    simp [htarget]
  | some found =>
    obtain ⟨r, a⟩ := found
    obtain ⟨lhs, t, id'⟩ := x
    rw [ofAlternative_of_target htarget, predicts_iff htarget, List.mem_map]
    constructor
    · rintro ⟨t, ht, heq⟩
      cases heq
      exact ⟨rfl, rfl, ht⟩
    · rintro ⟨rfl, rfl, ht⟩
      exact ⟨t, ht, rfl⟩

open Classical in
/-- **A request is made once for each way in which its terminal predicts its alternative.** -/
theorem count_ofAlternative (hfollow : ∀ lhs, (SymbolSets.members follow lhs).Nodup) :
    (ofAlternative g first follow x.alternative).count x =
      (if Predicts g first follow x.nonterminal x.terminal x.alternative then 1 else 0) +
        if PredictsTwice g first follow x.nonterminal x.terminal x.alternative then 1 else 0 := by
  by_cases hp : Predicts g first follow x.nonterminal x.terminal x.alternative
  · rw [if_pos hp]
    obtain ⟨lhs, t, id⟩ := x
    obtain ⟨r, a, htarget, rfl, hways⟩ := hp
    have htwice : PredictsTwice g first follow r.lhs t id ↔ (t ∈ first.ofSequence a.symbols ∧ t ≠ Symbol.epsilon) ∧
        Symbol.epsilon ∈ first.ofSequence a.symbols ∧ t ∈ SymbolSets.members follow r.lhs := by
      unfold PredictsTwice
      simp [htarget]
    have hinj : Function.Injective fun t => (⟨r.lhs, t, id⟩ : Request) := fun _ _ h => congrArg Request.terminal h
    rw [ofAlternative_of_target htarget, List.count_map_of_injective _ _ hinj t, count_predictSet (hfollow r.lhs)]
    dsimp only at hways ⊢
    rcases hways with hbegins | hfollows
    · rw [if_pos hbegins]
      exact congrArg (1 + ·) (if_congr (htwice.trans (and_iff_right hbegins)).symm rfl rfl)
    · rw [if_pos hfollows, Nat.add_comm]
      exact congrArg (1 + ·) (if_congr (htwice.trans (and_iff_left hfollows)).symm rfl rfl)
  · have hnot : ¬PredictsTwice g first follow x.nonterminal x.terminal x.alternative := fun h => hp h.predicts
    rw [if_neg hp, if_neg hnot, List.count_eq_zero]
    exact fun hmem => hp (mem_ofAlternative.mp hmem).2

/-- Alternatives other than its own make no such request. -/
theorem count_eq_zero_of_not_mem {ids : List AlternativeId} (h : x.alternative ∉ ids) :
    (ids.flatMap (ofAlternative g first follow)).count x = 0 := by
  refine List.count_eq_zero.mpr fun hmem => ?_
  obtain ⟨id, hid, hx⟩ := List.mem_flatMap.mp hmem
  exact h ((mem_ofAlternative.mp hx).1 ▸ hid)

open Classical in
/-- **All requests**: each is made as often as its terminal predicts its alternative, since no alternative has two
numbers. -/
theorem count_all {ids : List AlternativeId} (hids : g.alternativeIds = .ok ids)
    (hfollow : ∀ lhs, (SymbolSets.members follow lhs).Nodup) :
    (ids.flatMap (ofAlternative g first follow)).count x =
      (if Predicts g first follow x.nonterminal x.terminal x.alternative then 1 else 0) +
        if PredictsTwice g first follow x.nonterminal x.terminal x.alternative then 1 else 0 := by
  by_cases hid : x.alternative ∈ ids
  · have hnodup : ids.Nodup := by
      refine (pairwise_alternativeIds hids).imp fun {i j} hlt heq => ?_
      rw [heq] at hlt
      exact Nat.lt_irrefl _ hlt
    obtain ⟨before, after, rfl⟩ := List.append_of_mem hid
    obtain ⟨hother, _⟩ := List.nodup_cons.mp (List.nodup_middle.mp hnodup)
    rw [List.mem_append, not_or] at hother
    rw [List.flatMap_append, List.flatMap_cons, List.count_append, List.count_append,
      count_eq_zero_of_not_mem hother.1, count_eq_zero_of_not_mem hother.2, count_ofAlternative hfollow, Nat.zero_add,
      Nat.add_zero]
  · have hp : ¬Predicts g first follow x.nonterminal x.terminal x.alternative :=
      fun ⟨_, _, htarget, _⟩ => hid (mem_alternativeIds hids htarget)
    rw [count_eq_zero_of_not_mem hid, if_neg hp, if_neg fun h => hp h.predicts]

end Request

namespace Filling

variable {g : Grammar} {first : FirstSets} {follow : FollowSets} {requests : List Request} {f f' : Filling}
  {lhs t : Symbol} {id : AlternativeId}

/-- All slots asked for are filled, and the conflicts are those of the requests that did not get theirs. -/
structure Records (requests : List Request) (f : Filling) : Prop where
  filled : ∀ x ∈ requests, (f.table.get? x.nonterminal x.terminal).isSome = true
  conflicts_eq : f.conflicts = requests.filterMap (Request.loss? f.table)

theorem Records.empty : Records [] .empty := ⟨nofun, rfl⟩

/-- **One more request** is granted or recorded, and changes nothing about those before. -/
theorem Records.insert (hf : Records requests f) (h : (Filling.insert g lhs id f t).result = .ok f') :
    Records (requests ++ [⟨lhs, t, id⟩]) f' := by
  have hlast : ∀ x : Request, [x].filterMap (Request.loss? f'.table) = (x.loss? f'.table).toList := by
    intro x
    cases hx : x.loss? f'.table <;> simp [hx]
  rcases insert_cases h with ⟨hfree, hconflicts, hget⟩ | ⟨kept, hkept, htable, hconflicts⟩
  · have hnew : f'.table.get? lhs t = some id := by rw [hget, if_pos rfl]
    -- the slots asked for before are filled, so none of them is the free one
    have hold : ∀ x ∈ requests, f'.table.get? x.nonterminal x.terminal = f.table.get? x.nonterminal x.terminal := by
      intro x hx
      rw [hget, if_neg]
      intro hslot
      obtain ⟨hl, ht⟩ := Prod.ext_iff.mp hslot
      have hfilled := hf.filled x hx
      rw [show x.nonterminal = lhs from hl, show x.terminal = t from ht, hfree] at hfilled
      cases hfilled
    refine ⟨fun x hx => ?_, ?_⟩
    · rcases List.mem_append.mp hx with hx | hx
      · rw [hold x hx]
        exact hf.filled x hx
      · rw [List.mem_singleton.mp hx, hnew]
        rfl
    · have hnone : (⟨lhs, t, id⟩ : Request).loss? f'.table = none := by simp [Request.loss?, hnew]
      rw [List.filterMap_append, hlast, hnone, Option.toList_none, List.append_nil, hconflicts, hf.conflicts_eq]
      refine List.filterMap_congr fun x hx => ?_
      unfold Request.loss?
      rw [hold x hx]
  · refine ⟨fun x hx => ?_, ?_⟩
    · rw [htable]
      rcases List.mem_append.mp hx with hx | hx
      · exact hf.filled x hx
      · rw [List.mem_singleton.mp hx, hkept]
        rfl
    · have hloss : (⟨lhs, t, id⟩ : Request).loss? f'.table = if kept = id then none else some ⟨lhs, t, kept, id⟩ := by
        simp only [Request.loss?, htable, hkept, Option.bind_some]
      rw [List.filterMap_append, hlast, hloss, hconflicts, htable, hf.conflicts_eq]
      split <;> rfl

/-- Entering an alternative makes all requests for it. -/
theorem Records.insertAlternative (hf : Records requests f)
    (h : (Filling.insertAlternative g first follow f id).result = .ok f') :
    Records (requests ++ Request.ofAlternative g first follow id) f' := by
  unfold Filling.insertAlternative at h
  obtain ⟨⟨r, a⟩, htarget, h⟩ := Trail.result_bind_eq_ok_iff.mp h
  rw [Trail.result_foldlM] at h
  rw [Request.ofAlternative_of_target (Grammar.target_eq_ok.mp htarget), ← List.flatMap_pure_eq_map]
  exact foldlM_collects h hf fun t _ requests b c hb hins => hb.insert hins

/-- A conflict is recorded as often as the alternative asked for the slot that it lost. -/
theorem Records.count_conflicts (hf : Records requests f) (c : Conflict) : f.conflicts.count c =
    if f.table.get? c.nonterminal c.terminal = some c.kept ∧ c.dropped ≠ c.kept then
      requests.count ⟨c.nonterminal, c.terminal, c.dropped⟩
    else 0 := by
  rw [hf.conflicts_eq, List.count_filterMap]
  split
  · rename_i hslot
    rw [List.count_eq_countP]
    refine List.countP_congr fun x _ => ?_
    rw [beq_iff_eq, beq_iff_eq, Request.loss?_eq_some, and_iff_right hslot]
  · rename_i hslot
    exact List.countP_eq_zero.mpr fun x _ hx => hslot (Request.loss?_eq_some.mp (beq_iff_eq.mp hx)).1

/-- The new conflicts are reported by one warning each, in order. -/
def Warns (g : Grammar) (f f' : Filling) (warnings : List String) : Prop :=
  ∃ lost, f'.conflicts = f.conflicts ++ lost ∧ List.Forall₂ (fun c text => warning g c = .ok text) lost warnings

theorem Warns.of_eq (h : f'.conflicts = f.conflicts) : Warns g f f' [] := ⟨[], by rw [h, List.append_nil], .nil⟩

theorem Warns.trans {f₁ f₂ f₃ : Filling} {xs ys : List String} (h : Warns g f₁ f₂ xs) (h' : Warns g f₂ f₃ ys) :
    Warns g f₁ f₃ (xs ++ ys) := by
  obtain ⟨lost, hlost, hxs⟩ := h
  obtain ⟨lost', hlost', hys⟩ := h'
  exact ⟨lost ++ lost', by rw [hlost', hlost, List.append_assoc], List.rel_append hxs hys⟩

theorem warns_insert (h : (insert g lhs id f t).result = .ok f') : Warns g f f' (warnings (insert g lhs id f t)) := by
  unfold insert at h ⊢
  cases hins : f.table.insert lhs t id with
  | ok table =>
    rw [hins] at h
    cases h
    exact .of_eq rfl
  | error kept =>
    rw [hins] at h
    dsimp only at h ⊢
    by_cases heq : kept = id
    · rw [if_pos heq] at h ⊢
      cases h
      exact .of_eq rfl
    · rw [if_neg heq] at h ⊢
      obtain ⟨text, htext, h⟩ := Trail.result_bind_eq_ok_iff.mp h
      obtain ⟨_, hnote, h⟩ := Trail.result_bind_eq_ok_iff.mp h
      cases h
      rw [warnings_bind htext, warnings_bind hnote]
      exact ⟨_, rfl, .cons htext .nil⟩

/-- Steps that warn of their own conflicts warn of all of them. -/
theorem warns_foldlM {α : Type} {step : Filling → α → Reported Fault Filling}
    (hstep : ∀ f x f', (step f x).result = .ok f' → Warns g f f' (warnings (step f x))) {xs : List α}
    (h : (xs.foldlM step f).result = .ok f') : Warns g f f' (warnings (xs.foldlM step f)) := by
  induction xs generalizing f with
  | nil =>
    cases h
    exact .of_eq rfl
  | cons x xs ih =>
    rw [List.foldlM_cons] at h ⊢
    obtain ⟨next, hnext, h⟩ := Trail.result_bind_eq_ok_iff.mp h
    rw [warnings_bind hnext]
    exact (hstep f x next hnext).trans (ih h)

theorem warns_ofGrammar (h : (ofGrammar g first follow).result = .ok f) :
    Warns g .empty f (warnings (ofGrammar g first follow)) := by
  unfold ofGrammar at h ⊢
  obtain ⟨ids, hids, h⟩ := Trail.result_bind_eq_ok_iff.mp h
  obtain ⟨f, hf, h⟩ := Trail.result_bind_eq_ok_iff.mp h
  cases h
  rw [warnings_bind hids, quiet_lift, List.nil_append, warnings_bind hf, (quiet_debug _).bind fun _ => quiet_pure _,
    List.append_nil]
  refine warns_foldlM (fun f id f' h => ?_) hf
  unfold insertAlternative at h ⊢
  obtain ⟨x, hx, h⟩ := Trail.result_bind_eq_ok_iff.mp h
  rw [warnings_bind hx, quiet_lift, List.nil_append]
  exact warns_foldlM (fun _ _ _ => warns_insert) h

end Filling

/-! ## Parsers -/

namespace Parser

/-- The alternative is a candidate for the slot, which has gone to another one. -/
def Loses (p : Parser) (c : Conflict) : Prop :=
  p.entries.get? c.nonterminal c.terminal = some c.kept ∧
    Predicts p.grammar p.first p.follow c.nonterminal c.terminal c.dropped ∧ c.dropped ≠ c.kept

/-- The alternative loses a slot that its terminal gives it two claims to. -/
def LosesTwice (p : Parser) (c : Conflict) : Prop :=
  p.Loses c ∧ PredictsTwice p.grammar p.first p.follow c.nonterminal c.terminal c.dropped

/-- The conflicts of a parser: every losing pair of a slot and an alternative once, and some of them once more. -/
structure RecordsLosses (p : Parser) (warnings : List String) : Prop where
  /-- The losses in some order, and behind them once more those with two claims. -/
  perm : ∃ losses repeated, losses.Nodup ∧ (∀ c, c ∈ losses ↔ p.Loses c) ∧ repeated.Nodup ∧
    (∀ c, c ∈ repeated ↔ p.LosesTwice c) ∧ p.conflicts.Perm (losses ++ repeated)
  /-- No conflict is recorded twice exactly if no alternative loses a slot that it has two claims to. -/
  nodup_iff : p.conflicts.Nodup ↔ ∀ c, ¬p.LosesTwice c
  /-- Each record is reported by one warning. -/
  warnings : List.Forall₂ (fun c text => Filling.warning p.grammar c = .ok text) p.conflicts warnings

open Classical in
/-- A loss is recorded once for each claim of the alternative to the slot. -/
theorem count_conflicts_of_build {order : Registry} {g : Grammar} {p : Parser}
    (h : (Parser.build order g).result = .ok p) (c : Conflict) :
    p.conflicts.count c = (if p.Loses c then 1 else 0) + if p.LosesTwice c then 1 else 0 := by
  obtain ⟨_, factored, follow, filling, hbuilt⟩ := Parser.exists_built h
  obtain ⟨ids, hids, hfilling⟩ := hbuilt.ids_eq
  have hrecords := foldlM_collects hfilling Filling.Records.empty fun id _ requests b c hb hins =>
    hb.insertAlternative hins
  rw [List.nil_append] at hrecords
  have hloses : p.Loses c ↔ (filling.table.get? c.nonterminal c.terminal = some c.kept ∧ c.dropped ≠ c.kept) ∧
      Predicts factored.grammar (.ofGrammar factored.grammar) follow c.nonterminal c.terminal c.dropped := by
    rw [hbuilt.parser_eq, and_right_comm, and_assoc]
    rfl
  have htwice : p.LosesTwice c ↔ (filling.table.get? c.nonterminal c.terminal = some c.kept ∧ c.dropped ≠ c.kept) ∧
      PredictsTwice factored.grammar (.ofGrammar factored.grammar) follow c.nonterminal c.terminal c.dropped := by
    unfold LosesTwice
    rw [hloses, and_assoc, hbuilt.parser_eq]
    exact and_congr_right fun _ => and_iff_right_of_imp PredictsTwice.predicts
  rw [show p.conflicts = filling.conflicts from congrArg Parser.conflicts hbuilt.parser_eq, hrecords.count_conflicts,
    Request.count_all hids (FollowSets.nodup_members hbuilt.follow_eq)]
  split
  · rename_i hslot
    exact congrArg₂ (· + ·) (if_congr (hloses.trans (and_iff_right hslot)).symm rfl rfl)
      (if_congr (htwice.trans (and_iff_right hslot)).symm rfl rfl)
  · rename_i hslot
    rw [if_neg fun h => hslot (hloses.mp h).1, if_neg fun h => hslot (htwice.mp h).1]

theorem mem_conflicts_of_build {order : Registry} {g : Grammar} {p : Parser}
    (h : (Parser.build order g).result = .ok p) {c : Conflict} : c ∈ p.conflicts ↔ p.Loses c := by
  classical
  rw [← List.count_pos_iff, count_conflicts_of_build h c]
  by_cases hc : p.Loses c
  · simp [hc]
  · simp [hc, LosesTwice]

open Classical in
/-- Behind one record of each loss there is one more of each loss with two claims. -/
theorem perm_conflicts_of_build {order : Registry} {g : Grammar} {p : Parser}
    (h : (Parser.build order g).result = .ok p) :
    p.conflicts.Perm (p.conflicts.dedup ++ p.conflicts.dedup.filter fun c => p.LosesTwice c) := by
  refine List.perm_iff_count.mpr fun c => ?_
  rw [count_conflicts_of_build h c, List.count_append, (List.nodup_dedup _).count, ((List.nodup_dedup _).filter _).count]
  simp only [List.mem_filter, List.mem_dedup, mem_conflicts_of_build h, decide_eq_true_eq]
  exact congrArg ((if p.Loses c then 1 else 0) + ·) (if_congr (and_iff_right_of_imp And.left).symm rfl rfl)

theorem nodup_conflicts_of_build {order : Registry} {g : Grammar} {p : Parser}
    (h : (Parser.build order g).result = .ok p) : p.conflicts.Nodup ↔ ∀ c, ¬p.LosesTwice c := by
  classical
  rw [List.nodup_iff_count_le_one]
  refine forall_congr' fun c => ?_
  rw [count_conflicts_of_build h c]
  by_cases htwice : p.LosesTwice c
  · simp [htwice, htwice.1]
  · by_cases hc : p.Loses c <;> simp [htwice, hc]

/-- The warnings of a construction are those about the conflicts. -/
theorem warnings_build {order : Registry} {g : Grammar} {p : Parser} (h : (Parser.build order g).result = .ok p) :
    List.Forall₂ (fun c text => Filling.warning p.grammar c = .ok text) p.conflicts
      (warnings (Parser.build order g)) := by
  unfold build at h ⊢
  obtain ⟨direct, hdirect, h⟩ := Trail.result_bind_eq_ok_iff.mp h
  rw [warnings_bind hdirect, Grammar.quiet_removeLeftRecursion, List.nil_append]
  obtain ⟨factored, hfactored, h⟩ := Trail.result_bind_eq_ok_iff.mp h
  rw [warnings_bind hfactored, Grammar.quiet_leftFactor, List.nil_append]
  obtain ⟨first, hfirst, h⟩ := Trail.result_bind_eq_ok_iff.mp h
  rw [warnings_bind hfirst, FirstSets.quiet_report, List.nil_append]
  obtain ⟨follow, hfollow, h⟩ := Trail.result_bind_eq_ok_iff.mp h
  rw [warnings_bind hfollow, FollowSets.quiet_report, List.nil_append]
  obtain ⟨filling, hfilling, h⟩ := Trail.result_bind_eq_ok_iff.mp h
  rw [warnings_bind hfilling, quiet_pure, List.append_nil]
  cases h
  obtain ⟨lost, hlost, hwarnings⟩ := Filling.warns_ofGrammar hfilling
  rw [show filling.conflicts = lost from hlost]
  exact hwarnings

/-- **Every loss is recorded** and reported, once for each claim of the alternative to the slot that it has lost. -/
theorem recordsLosses_of_build {order : Registry} {g : Grammar} {p : Parser}
    (h : (Parser.build order g).result = .ok p) : p.RecordsLosses (warnings (Parser.build order g)) := by
  classical
  refine ⟨⟨_, _, List.nodup_dedup _, fun c => ?_, (List.nodup_dedup _).filter _, fun c => ?_,
    perm_conflicts_of_build h⟩, nodup_conflicts_of_build h, warnings_build h⟩
  · rw [List.mem_dedup, mem_conflicts_of_build h]
  · rw [List.mem_filter, List.mem_dedup, mem_conflicts_of_build h, decide_eq_true_eq]
    exact and_iff_right_of_imp And.left

section Repeated

open TableParser.Symbol

/-- A letter behind a nonterminal that can vanish and can begin with that letter. -/
def repeatedSteps : List DefinitionStep := [
  .rule (nonterminal "A") [nonterminal "B"] none,
  .rule (nonterminal "A") [terminal "a"] none,
  .rule (nonterminal "B") [terminal "a"] none,
  .rule (nonterminal "B") [epsilon] none,
  .rule (nonterminal "S") [nonterminal "A", terminal "a"] none,
  .start (nonterminal "S")]

/-- The symbols known once the steps are taken. -/
def repeatedOrder : Registry := (Journal.start.recordAll (Grammar.define repeatedSteps).emitted).registry

/-- Three conflicts are recorded and reported. -/
theorem recordsLosses_of_build_repeated : ∃ g p, (Grammar.define repeatedSteps).result = .ok g ∧
    (Parser.build repeatedOrder g).result = .ok p ∧ p.RecordsLosses (warnings (Parser.build repeatedOrder g)) ∧
      p.conflicts.length = 3 := by
  have heval : ((Grammar.define repeatedSteps).result.toOption.any fun g =>
      (Parser.build repeatedOrder g).result.toOption.any fun p => p.conflicts.length = 3) = true := by
    rfl
  obtain ⟨g, hg, hrest⟩ := exists_ok_of_any heval
  obtain ⟨p, hp, hconflicts⟩ := exists_ok_of_any hrest
  exact ⟨g, p, hg, hp, recordsLosses_of_build hp, of_decide_eq_true hconflicts⟩

/-- **The alternative `B` of `A` loses its slot twice.** The slot of the letter goes to the alternative of the letter; the
other one is entered under the letter because it can begin with it, and again because the letter follows `A`. -/
theorem not_nodup_conflicts_repeated : ∃ g p, (Grammar.define repeatedSteps).result = .ok g ∧
    (Parser.build repeatedOrder g).result = .ok p ∧ ¬p.conflicts.Nodup ∧ p.conflicts =
      [⟨nonterminal "A", terminal "a", ⟨1, 0⟩, ⟨1, 1⟩⟩, ⟨nonterminal "A", terminal "a", ⟨1, 0⟩, ⟨1, 1⟩⟩,
        ⟨nonterminal "B", terminal "a", ⟨2, 0⟩, ⟨2, 1⟩⟩] := by
  have heval : ((Grammar.define repeatedSteps).result.toOption.any fun g =>
      (Parser.build repeatedOrder g).result.toOption.any fun p => p.conflicts =
        [⟨nonterminal "A", terminal "a", ⟨1, 0⟩, ⟨1, 1⟩⟩, ⟨nonterminal "A", terminal "a", ⟨1, 0⟩, ⟨1, 1⟩⟩,
          ⟨nonterminal "B", terminal "a", ⟨2, 0⟩, ⟨2, 1⟩⟩]) = true := by
    rfl
  obtain ⟨g, hg, hrest⟩ := exists_ok_of_any heval
  obtain ⟨p, hp, hconflicts⟩ := exists_ok_of_any hrest
  have heq := of_decide_eq_true hconflicts
  refine ⟨g, p, hg, hp, ?_, heq⟩
  rw [heq]
  decide

end Repeated

end Parser
end LL
end TableParser
