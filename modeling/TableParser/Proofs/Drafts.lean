import TableParser.Proofs.NormalForm
import TableParser.Proofs.PredictiveFaults

/-!
# What drafts hold

A definition may go on behind calls that were refused. Refused calls change nothing (`DefinitionStep.call_eq`), so that a
draft is a function of the granted calls alone (`Draft.ofGranted`): a rule for each left-hand side in the order of their
first calls, with the alternatives of its calls, and the last start symbol that was named. Whatever the calls, the grammar
that comes of them is that of the granted ones (`Grammar.collects_of_defineByCalls`).

* **One more granted call** (`Draft.ofGranted_snoc`) is one more call at the end of the list.
* **A call is granted** (`Draft.exists_apply_ofGranted_iff`) exactly if it is sensible by itself and does not repeat one that
  was granted before.
-/

namespace TableParser

/-! ## Calls in place -/

namespace Draft

variable {d : Draft} {lhs s : Symbol} {rhs : List Symbol} {action : Option String}

@[simp] theorem lhs_ruleOf (d : Draft) (lhs : Symbol) : (d.ruleOf lhs).lhs = lhs := by
  unfold ruleOf
  cases hfind : d.rules.find? fun r => r.lhs == lhs with
  | none => rfl
  | some r => simpa using List.find?_some hfind

theorem ruleOf_enter (d : Draft) (lhs : Symbol) : (d.enter lhs).ruleOf lhs = d.ruleOf lhs := by
  unfold enter
  split
  · rfl
  · rename_i hnew
    have hnone : (d.rules.find? fun r => r.lhs == lhs) = none := by simpa using hnew
    simp [ruleOf, List.find?_append, hnone]

/-- Setting the rule that was entered sets it as if it had not been. -/
theorem setRule_enter (d : Draft) (rule : Rule) : (d.enter rule.lhs).setRule rule = d.setRule rule := by
  unfold enter
  split
  · rfl
  · rename_i hnew
    have hmap : (d.rules.map fun r => if r.lhs == rule.lhs then rule else r) = d.rules := by
      refine (List.map_congr_left fun r hr => ?_).trans (List.map_id' _)
      have hne : (r.lhs == rule.lhs) = false := by simpa using List.any_eq_false.mp (Bool.eq_false_iff.mpr hnew) r hr
      simp only [hne, Bool.false_eq_true, if_false]
    simp only [setRule, hnew, Bool.false_eq_true, if_false, List.any_append, List.any_cons, beq_self_eq_true, List.any_nil,
      Bool.or_false, Bool.or_true, if_true, List.map_append, hmap, List.map_cons, List.map_nil]

/-- A rule that has alternatives is not entered anew. -/
theorem enter_eq_self (h : (d.ruleOf lhs).alternatives ≠ []) : d.enter lhs = d := by
  unfold enter
  split
  · rfl
  · rename_i hnew
    have hnone : (d.rules.find? fun r => r.lhs == lhs) = none := by simpa using hnew
    simp [ruleOf, hnone] at h

end Draft

/-- **A refused call leaves the draft as it was**, and a granted one takes the step. -/
theorem DefinitionStep.call_eq (d : Draft) (step : DefinitionStep) : step.call d =
    match step.apply d with
    | .ok d' => (.ok (), d')
    | .error flaw => (.error flaw, d) := by
  cases step with
  | start s =>
    simp only [call, apply, Draft.callStart, Draft.setStart]
    split <;> rfl
  | rule lhs rhs action =>
    simp only [call, apply, Draft.callRule, Draft.addRule, Draft.ruleOf_enter]
    split
    · rfl
    split
    · rfl
    split
    · rfl
    split
    · rename_i hdup
      have hne : (d.ruleOf lhs).alternatives ≠ [] := by
        intro hnil
        simp [hnil] at hdup
      rw [Draft.enter_eq_self hne]
    · have hset := Draft.setRule_enter d ((d.ruleOf lhs).add ⟨rhs, action⟩)
      rw [Rule.lhs_add, Draft.lhs_ruleOf] at hset
      rw [hset]

/-! ## Granted calls -/

namespace DefinitionStep

/-- The left-hand side that a call asks for an alternative of. -/
def lhs? : DefinitionStep → Option Symbol
  | .rule lhs _ _ => some lhs
  | .start _ => none

/-- The start symbol that a call names. -/
def start? : DefinitionStep → Option Symbol
  | .rule _ _ _ => none
  | .start s => some s

/-- The alternative that a call asks for, if it is one of the given left-hand side. -/
def alternativeOf? (lhs : Symbol) : DefinitionStep → Option Alternative
  | .rule lhs' rhs action => if lhs' = lhs then some ⟨rhs, action⟩ else none
  | .start _ => none

end DefinitionStep

/-- The left-hand sides of calls in the order of their first appearance. -/
def lhsOrder (calls : List DefinitionStep) : List Symbol := (calls.filterMap DefinitionStep.lhs?).eraseDups

/-- The alternatives that calls ask for of a left-hand side, in order. -/
def alternativesOf (calls : List DefinitionStep) (lhs : Symbol) : List Alternative :=
  calls.filterMap (DefinitionStep.alternativeOf? lhs)

/-- The start symbol that calls name last. -/
def requestedStart (calls : List DefinitionStep) : Option Symbol := (calls.filterMap DefinitionStep.start?).getLast?

/-- The rule of a left-hand side by calls. -/
def collectedRule (calls : List DefinitionStep) (lhs : Symbol) : Rule :=
  Rule.addAll ⟨lhs, []⟩ (alternativesOf calls lhs)

section Snoc

variable {calls : List DefinitionStep} {lhs s : Symbol} {a : Alternative}

theorem mem_lhsOrder : s ∈ lhsOrder calls ↔ ∃ rhs action, .rule s rhs action ∈ calls := by
  simp only [lhsOrder, List.mem_eraseDups, List.mem_filterMap]
  constructor
  · rintro ⟨_ | _, hcall, h⟩ <;> cases h
    exact ⟨_, _, hcall⟩
  · rintro ⟨rhs, action, hcall⟩
    exact ⟨_, hcall, rfl⟩

theorem mem_alternativesOf : a ∈ alternativesOf calls lhs ↔ .rule lhs a.symbols a.action ∈ calls := by
  simp only [alternativesOf, List.mem_filterMap]
  constructor
  · rintro ⟨call, hcall, h⟩
    cases call with
    | start s => cases h
    | rule lhs' rhs action =>
      simp only [DefinitionStep.alternativeOf?] at h
      split at h <;> cases h
      subst lhs'
      exact hcall
  · intro hcall
    exact ⟨_, hcall, by simp [DefinitionStep.alternativeOf?]⟩

@[simp] theorem lhs_collectedRule (calls : List DefinitionStep) (lhs : Symbol) : (collectedRule calls lhs).lhs = lhs :=
  Rule.lhs_addAll _ _

theorem mem_alternatives_collectedRule :
    a ∈ (collectedRule calls lhs).alternatives ↔ .rule lhs a.symbols a.action ∈ calls := by
  rw [collectedRule, Rule.mem_alternatives_addAll, mem_alternativesOf]
  exact or_iff_left List.not_mem_nil

theorem collectedRule_snoc_self {rhs : List Symbol} {action : Option String} :
    collectedRule (calls ++ [.rule lhs rhs action]) lhs = (collectedRule calls lhs).add ⟨rhs, action⟩ := by
  simp [collectedRule, alternativesOf, DefinitionStep.alternativeOf?, Rule.addAll]

theorem collectedRule_snoc_of_ne {rhs : List Symbol} {action : Option String} (h : s ≠ lhs) :
    collectedRule (calls ++ [.rule lhs rhs action]) s = collectedRule calls s := by
  simp [collectedRule, alternativesOf, DefinitionStep.alternativeOf?, h.symm]

theorem collectedRule_of_not_mem (h : lhs ∉ lhsOrder calls) : collectedRule calls lhs = ⟨lhs, []⟩ := by
  have hnil : alternativesOf calls lhs = [] := List.eq_nil_iff_forall_not_mem.mpr fun a ha =>
    h (mem_lhsOrder.mpr ⟨_, _, mem_alternativesOf.mp ha⟩)
  rw [collectedRule, hnil]
  rfl

end Snoc

namespace Draft

/-- The draft that granted calls lead to. -/
def ofGranted (calls : List DefinitionStep) : Draft := ⟨(lhsOrder calls).map (collectedRule calls), requestedStart calls⟩

variable {calls : List DefinitionStep} {d : Draft} {lhs : Symbol} {call : DefinitionStep}

theorem find?_ofGranted (calls : List DefinitionStep) (lhs : Symbol) :
    ((ofGranted calls).rules.find? fun r => r.lhs == lhs) =
      if lhs ∈ lhsOrder calls then some (collectedRule calls lhs) else none := by
  have hcomp : ((fun r : Rule => r.lhs == lhs) ∘ collectedRule calls) = fun s => s == lhs := by
    funext s
    simp
  rw [ofGranted, List.find?_map, hcomp]
  split
  · rename_i hmem
    cases hfind : (lhsOrder calls).find? fun s => s == lhs with
    | none => simpa using List.find?_eq_none.mp hfind lhs hmem
    | some s =>
      have hs : s = lhs := by simpa using List.find?_some hfind
      rw [hs, Option.map_some]
  · rename_i hmem
    have hnone : ((lhsOrder calls).find? fun s => s == lhs) = none := by
      refine List.find?_eq_none.mpr fun s hs heq => hmem ?_
      rwa [← beq_iff_eq.mp heq]
    rw [hnone, Option.map_none]

theorem ruleOf_ofGranted (calls : List DefinitionStep) (lhs : Symbol) :
    (ofGranted calls).ruleOf lhs = collectedRule calls lhs := by
  rw [ruleOf, find?_ofGranted]
  split
  · rfl
  · rename_i hmem
    exact (collectedRule_of_not_mem hmem).symm

theorem any_ofGranted (calls : List DefinitionStep) (lhs : Symbol) :
    ((ofGranted calls).rules.any fun r => r.lhs == lhs) = decide (lhs ∈ lhsOrder calls) := by
  rw [← List.isSome_find?, find?_ofGranted]
  split <;> simp [*]

theorem lhsOrder_snoc (calls : List DefinitionStep) (lhs : Symbol) (rhs : List Symbol) (action : Option String) :
    lhsOrder (calls ++ [.rule lhs rhs action]) =
      if lhs ∈ lhsOrder calls then lhsOrder calls else lhsOrder calls ++ [lhs] := by
  have hsnoc : (calls ++ [DefinitionStep.rule lhs rhs action]).filterMap DefinitionStep.lhs? =
      calls.filterMap DefinitionStep.lhs? ++ [lhs] := List.filterMap_append
  simp only [lhsOrder, hsnoc, List.eraseDups_append, List.mem_eraseDups]
  by_cases hmem : lhs ∈ calls.filterMap DefinitionStep.lhs?
  · rw [if_pos hmem, List.removeAll, List.filter_cons_of_neg (by simpa using hmem)]
    simp
  · rw [if_neg hmem, List.removeAll, List.filter_cons_of_pos (by simpa using hmem)]
    simp [List.eraseDups_cons]

/-- Setting the rule of a left-hand side with one alternative more grants one call more. -/
theorem setRule_ofGranted (calls : List DefinitionStep) (lhs : Symbol) (rhs : List Symbol) (action : Option String) :
    (ofGranted calls).setRule ((collectedRule calls lhs).add ⟨rhs, action⟩) =
      ofGranted (calls ++ [.rule lhs rhs action]) := by
  have hstart : requestedStart (calls ++ [.rule lhs rhs action]) = requestedStart calls := by
    simp [requestedStart, DefinitionStep.start?]
  have hrule : ∀ s, (if (collectedRule calls s).lhs == lhs then (collectedRule calls lhs).add ⟨rhs, action⟩
      else collectedRule calls s) = collectedRule (calls ++ [.rule lhs rhs action]) s := by
    intro s
    by_cases hs : s = lhs
    · simp [hs, collectedRule_snoc_self]
    · simp [hs, collectedRule_snoc_of_ne hs]
  unfold setRule
  rw [Rule.lhs_add, lhs_collectedRule, any_ofGranted, ofGranted, ofGranted, hstart, lhsOrder_snoc]
  simp only [decide_eq_true_eq]
  split
  · rename_i hmem
    rw [List.map_map]
    congr 1
    exact List.map_congr_left fun s _ => hrule s
  · rename_i hmem
    rw [List.map_append, List.map_singleton, collectedRule_snoc_self]
    congr 2
    refine List.map_congr_left fun s hs => ?_
    have hne : s ≠ lhs := fun heq => hmem (heq ▸ hs)
    exact (collectedRule_snoc_of_ne hne).symm

/-- **A granted call** adds itself to the calls that the draft holds. -/
theorem ofGranted_snoc (h : call.apply (ofGranted calls) = .ok d) : d = ofGranted (calls ++ [call]) := by
  cases call with
  | rule lhs rhs action =>
    rw [eq_setRule_of_addRule h, ruleOf_ofGranted, setRule_ofGranted]
  | start s =>
    simp only [DefinitionStep.apply, setStart] at h
    split at h
    · cases h
    · cases h
      have horder : lhsOrder (calls ++ [.start s]) = lhsOrder calls := by
        rw [lhsOrder, lhsOrder, List.filterMap_append]
        exact congrArg List.eraseDups (List.append_nil _)
      have hrule : collectedRule (calls ++ [.start s]) = collectedRule calls := by
        funext lhs
        rw [collectedRule, collectedRule, alternativesOf, List.filterMap_append]
        exact congrArg (Rule.addAll ⟨lhs, []⟩) (List.append_nil _)
      have hstart : requestedStart (calls ++ [.start s]) = some s := by
        simp [requestedStart, DefinitionStep.start?]
      rw [ofGranted, ofGranted, horder, hrule, hstart]

/-! ### Which calls are granted -/

end Draft

namespace DefinitionStep

/-- What a call has to be by itself: about a nonterminal, and with an alternative that has symbols and the empty
derivation alone at most. -/
def Sensible : DefinitionStep → Prop
  | .rule lhs rhs _ =>
    lhs.isNonterminal = true ∧ rhs ≠ [] ∧ (Symbol.epsilon ∈ rhs → rhs = [Symbol.epsilon])
  | .start s => s.isNonterminal = true

/-- Whether two calls ask for alternatives with the same symbols of the same left-hand side. -/
def Repeats : DefinitionStep → DefinitionStep → Prop
  | .rule lhs rhs _, .rule lhs' rhs' _ => lhs = lhs' ∧ rhs = rhs'
  | _, _ => False

end DefinitionStep

namespace Draft

theorem mixed_iff {rhs : List Symbol} (h : rhs ≠ []) : (decide (1 < rhs.length) && rhs.contains Symbol.epsilon) = true ↔
    ¬(Symbol.epsilon ∈ rhs → rhs = [Symbol.epsilon]) := by
  match rhs, h with
  | [s], _ => simp [eq_comm]
  | s :: u :: rest, _ => simp [or_iff_not_imp_left]

theorem repeated_iff (calls : List DefinitionStep) (lhs : Symbol) (rhs : List Symbol) (action : Option String) :
    (((ofGranted calls).ruleOf lhs).alternatives.any fun a => a.symbols == rhs) = true ↔
      ∃ c ∈ calls, c.Repeats (.rule lhs rhs action) := by
  simp only [ruleOf_ofGranted, List.any_eq_true, mem_alternatives_collectedRule, beq_iff_eq]
  constructor
  · rintro ⟨a, hcall, rfl⟩
    exact ⟨_, hcall, rfl, rfl⟩
  · rintro ⟨_ | _, hcall, hrepeats⟩
    · obtain ⟨rfl, rfl⟩ := hrepeats
      exact ⟨⟨_, _⟩, hcall, rfl⟩
    · cases hrepeats

/-- **A call is granted** exactly if it is sensible and does not repeat one that was granted before. -/
theorem exists_apply_ofGranted_iff (calls : List DefinitionStep) (call : DefinitionStep) :
    (∃ d, call.apply (ofGranted calls) = .ok d) ↔ call.Sensible ∧ ¬∃ c ∈ calls, c.Repeats call := by
  cases call with
  | start s =>
    have hnone : ¬∃ c ∈ calls, c.Repeats (.start s) := by
      rintro ⟨_ | _, _, h⟩ <;> cases h
    rw [and_iff_left hnone]
    simp only [DefinitionStep.apply, setStart, DefinitionStep.Sensible, ← Symbol.isTerminal_eq_false_iff]
    cases s.isTerminal <;> simp
  | rule lhs rhs action =>
    rw [← repeated_iff]
    simp only [DefinitionStep.apply, addRule, DefinitionStep.Sensible, ← Symbol.isTerminal_eq_false_iff]
    split
    · simp [*]
    rename_i hterminal
    split
    · simp [List.isEmpty_iff.mp ‹_›]
    rename_i hempty
    have hne : rhs ≠ [] := fun h => hempty (List.isEmpty_iff.mpr h)
    split
    · simp [hne, (mixed_iff hne).mp ‹_›]
    rename_i hmixed
    have halone := not_not.mp ((mixed_iff hne).not.mp hmixed)
    split
    · rename_i hrepeated
      refine iff_of_false ?_ fun h => h.2 hrepeated
      rintro ⟨_, h⟩
      cases h
    · rename_i hfresh
      exact iff_of_true ⟨_, rfl⟩ ⟨⟨Bool.eq_false_iff.mpr hterminal, hne, halone⟩, hfresh⟩

/-- Sensible calls that do not repeat each other are granted one after the other. -/
theorem foldlM_of_sensible {more : List DefinitionStep} (hsensible : ∀ c ∈ more, c.Sensible)
    (hnew : (calls ++ more).Pairwise fun c c' => ¬c.Repeats c') :
    more.foldlM (fun d step => DefinitionStep.apply d step) (ofGranted calls) = .ok (ofGranted (calls ++ more)) := by
  induction more generalizing calls with
  | nil => rw [List.append_nil]; rfl
  | cons call more ih =>
    obtain ⟨hcall, hmore⟩ := List.forall_mem_cons.mp hsensible
    have hfresh : ¬∃ c ∈ calls, c.Repeats call := fun ⟨c, hc, hrepeats⟩ =>
      (List.pairwise_append.mp hnew).2.2 c hc call List.mem_cons_self hrepeats
    obtain ⟨d, hd⟩ := (exists_apply_ofGranted_iff calls call).mpr ⟨hcall, hfresh⟩
    rw [List.append_cons] at hnew ⊢
    rw [List.foldlM_cons, hd, ofGranted_snoc hd]
    exact ih hmore hnew

/-- The calls of a list that are granted when all of them are made. -/
def granted (d : Draft) : List DefinitionStep → List DefinitionStep
  | [] => []
  | call :: calls =>
    match call.call d with
    | (.ok (), d') => call :: d'.granted calls
    | (.error _, d') => d'.granted calls

/-- The granted calls lead to the same draft if only they are made. -/
theorem foldlM_granted (d : Draft) (calls : List DefinitionStep) :
    (d.granted calls).foldlM (fun d step => DefinitionStep.apply d step) d = .ok (d.afterCalls calls) := by
  induction calls generalizing d with
  | nil => rfl
  | cons call calls ih =>
    rw [afterCalls, List.foldl_cons, ← afterCalls, granted, DefinitionStep.call_eq]
    cases happly : call.apply d with
    | error flaw => exact ih d
    | ok d' =>
      show (call.apply d >>= _) = _
      rw [happly]
      exact ih d'

/-- Calls that are granted one after the other. -/
theorem eq_ofGranted_of_foldlM {more : List DefinitionStep}
    (h : more.foldlM (fun d step => DefinitionStep.apply d step) (ofGranted calls) = .ok d) :
    d = ofGranted (calls ++ more) := by
  induction more generalizing calls with
  | nil =>
    cases h
    rw [List.append_nil]
  | cons call more ih =>
    obtain ⟨next, hnext, h⟩ := bind_eq_ok_iff.mp h
    rw [ofGranted_snoc hnext] at h
    rw [ih h, List.append_assoc, List.singleton_append]

/-- **The draft behind some calls** holds those of them that were granted. -/
theorem afterCalls_eq (calls : List DefinitionStep) : empty.afterCalls calls = ofGranted (empty.granted calls) :=
  @eq_ofGranted_of_foldlM [] _ _ (foldlM_granted empty calls)

end Draft

/-! ## Completion -/

/-- The names with the requested one in front. -/
def withInFront : Option Symbol → List Symbol → List Symbol
  | none, names => names
  | some s, names => s :: names.erase s

/-- Calls that are enough for a grammar: there is a rule, the start symbol has one, and so has every nonterminal. -/
structure Complete (calls : List DefinitionStep) : Prop where
  lhsOrder_ne_nil : lhsOrder calls ≠ []
  start_mem : ∀ s, requestedStart calls = some s → s ∈ lhsOrder calls
  closed : ∀ lhs rhs action, .rule lhs rhs action ∈ calls → ∀ s ∈ rhs, s.isNonterminal = true → s ∈ lhsOrder calls

/-- The grammar of some calls. -/
def Grammar.ofCalls (calls : List DefinitionStep) : Grammar :=
  ⟨(withInFront (requestedStart calls) (lhsOrder calls)).map (collectedRule calls)⟩

section Completion

variable {calls : List DefinitionStep} {s lhs : Symbol} {a : Alternative} {g : Grammar} {names : List Symbol}

theorem mem_withInFront {start : Option Symbol} (h : ∀ s, start = some s → s ∈ names) :
    s ∈ withInFront start names ↔ s ∈ names := by
  cases start with
  | none => rfl
  | some u =>
    have hu := h u rfl
    by_cases hs : s = u
    · simp [withInFront, hs, hu]
    · simp [withInFront, hs, List.mem_erase_of_ne hs]

/-- The rules with that of the start symbol in front are those of the names with the start symbol in front. -/
theorem Draft.ordered_ofGranted_of_mem (h : ∀ s, requestedStart calls = some s → s ∈ lhsOrder calls) :
    (ofGranted calls).ordered = .ok (Grammar.ofCalls calls).rules := by
  unfold ordered Grammar.ofCalls withInFront
  cases hstart : requestedStart calls with
  | none => simp [ofGranted, hstart]
  | some s =>
    have hcomp : ((fun r : Rule => r.lhs == s) ∘ collectedRule calls) = fun u => u == s := by
      funext u
      simp
    have herase : ((ofGranted calls).rules.eraseP fun r => r.lhs == s) =
        ((lhsOrder calls).erase s).map (collectedRule calls) := by
      rw [ofGranted, List.eraseP_map, hcomp, List.erase_eq_eraseP']
    have hs : (ofGranted calls).start = some s := hstart
    simp [hs, find?_ofGranted, h s hstart, herase]

/-- A start symbol without a rule is refused. -/
theorem Draft.ordered_ofGranted_of_not_mem (h : requestedStart calls = some s) (hs : s ∉ lhsOrder calls) :
    (ofGranted calls).ordered = .error (.startWithoutRule s) := by
  have hstart : (ofGranted calls).start = some s := h
  simp [ordered, hstart, find?_ofGranted, hs]

theorem Complete.mem_iff (h : Complete calls) :
    s ∈ withInFront (requestedStart calls) (lhsOrder calls) ↔ s ∈ lhsOrder calls := mem_withInFront h.start_mem

namespace Grammar

theorem lhsSymbols_ofCalls (calls : List DefinitionStep) :
    (ofCalls calls).lhsSymbols = withInFront (requestedStart calls) (lhsOrder calls) := by
  rw [lhsSymbols, ofCalls, List.map_map]
  refine (List.map_congr_left fun s _ => ?_).trans (List.map_id' _)
  exact lhs_collectedRule calls s

theorem produces_ofCalls (h : ∀ s, requestedStart calls = some s → s ∈ lhsOrder calls) :
    (ofCalls calls).Produces lhs a ↔ .rule lhs a.symbols a.action ∈ calls := by
  constructor
  · rintro ⟨_, hr, rfl, ha⟩
    obtain ⟨s, _, rfl⟩ := List.mem_map.mp hr
    rw [lhs_collectedRule]
    exact mem_alternatives_collectedRule.mp ha
  · intro hcall
    have hlhs := (mem_withInFront h).mpr (mem_lhsOrder.mpr ⟨_, _, hcall⟩)
    exact ⟨_, List.mem_map_of_mem hlhs, lhs_collectedRule calls lhs, mem_alternatives_collectedRule.mpr hcall⟩

/-- The rules of calls are closed if those are enough. -/
theorem closed_ofCalls_iff (h : ∀ s, requestedStart calls = some s → s ∈ lhsOrder calls) : (ofCalls calls).Closed ↔
    ∀ lhs rhs action, .rule lhs rhs action ∈ calls → ∀ s ∈ rhs, s.isNonterminal = true → s ∈ lhsOrder calls := by
  unfold Closed
  rw [lhsSymbols_ofCalls]
  simp only [mem_nonterminals, lhsSymbols_ofCalls, mem_withInFront h, produces_ofCalls h]
  constructor
  · intro hall lhs rhs action hcall s hs hn
    exact hall s (.inr ⟨hn, lhs, ⟨rhs, action⟩, hcall, hs⟩)
  · rintro hall s (hs | ⟨hn, lhs, a, hcall, hs⟩)
    · exact hs
    · exact hall lhs _ _ hcall s hs hn

end Grammar

/-- **A draft is completed exactly if its calls are enough**, to the grammar of the calls. -/
theorem Draft.finish_ofGranted_eq_ok_iff :
    (ofGranted calls).finish = .ok g ↔ Complete calls ∧ g = Grammar.ofCalls calls := by
  have hempty : (ofGranted calls).rules.isEmpty = true ↔ lhsOrder calls = [] := by simp [ofGranted]
  unfold finish
  by_cases hnil : lhsOrder calls = []
  · rw [if_pos (hempty.mpr hnil)]
    exact iff_of_false (fun h => by cases h) fun h => h.1.lhsOrder_ne_nil hnil
  rw [if_neg (hempty.not.mpr hnil)]
  by_cases hstart : ∀ s, requestedStart calls = some s → s ∈ lhsOrder calls
  · rw [ordered_ofGranted_of_mem hstart]
    have hclosed := (Grammar.closed_iff _).symm.trans (Grammar.closed_ofCalls_iff hstart)
    have heta : Grammar.mk (Grammar.ofCalls calls).rules = Grammar.ofCalls calls := rfl
    dsimp only
    rw [heta]
    cases hfind : (Grammar.ofCalls calls).nonterminals.find? fun s => ((Grammar.ofCalls calls).position? s).isNone with
    | none =>
      rw [Except.ok.injEq]
      exact ⟨fun hg => ⟨⟨hnil, hstart, hclosed.mp hfind⟩, hg.symm⟩, fun h => h.2.symm⟩
    | some s =>
      refine iff_of_false (fun h => by cases h) fun h => ?_
      rw [hclosed.mpr h.1.closed] at hfind
      cases hfind
  · push Not at hstart
    obtain ⟨s, hs, hmem⟩ := hstart
    rw [ordered_ofGranted_of_not_mem hs hmem]
    exact iff_of_false (fun h => by cases h) fun h => hmem (h.1.start_mem s hs)

end Completion

/-! ## Definitions by calls -/

namespace Grammar

/-- What the granted calls of a definition make of it: a well-formed grammar in which every nonterminal has a rule. The
rules are those of the calls in the order of their first appearance, but that of the requested start symbol is in front;
each has the alternatives of its calls with their actions, at least one, the left-recursive ones before the others. -/
structure Collects (granted : List DefinitionStep) (g : Grammar) : Prop extends g.WellFormed where
  closed : g.Closed
  lhsSymbols_eq : g.lhsSymbols = withInFront (requestedStart granted) (lhsOrder granted)
  alternatives_ne_nil : ∀ r ∈ g.rules, r.alternatives ≠ []
  recursionInFront : ∀ r ∈ g.rules, r.RecursionInFront
  alternatives_eq : ∀ r ∈ g.rules, r.alternatives =
    ((alternativesOf granted r.lhs).filter r.isLeftRecursive).reverse ++
      (alternativesOf granted r.lhs).filter fun a => !r.isLeftRecursive a

variable {calls : List DefinitionStep} {g : Grammar}

/-- A definition by calls is the completion of what its granted calls lead to. -/
theorem defineByCalls_eq_ok_iff : (defineByCalls calls).result = .ok g ↔
    Complete (Draft.empty.granted calls) ∧ g = ofCalls (Draft.empty.granted calls) := by
  have hresult : (defineByCalls calls).result = (Draft.ofGranted (Draft.empty.granted calls)).finish := by
    rw [defineByCalls, Trail.result_bind, Draft.afterCalls_eq]
    rfl
  rw [hresult, Draft.finish_ofGranted_eq_ok_iff]

/-- **The granted calls define the same grammar by themselves.** -/
theorem define_granted (h : (defineByCalls calls).result = .ok g) :
    (define (Draft.empty.granted calls)).result = .ok g := by
  rw [defineByCalls, Trail.result_bind] at h
  exact define_of_draft (Draft.foldlM_granted .empty calls) h

/-- **Whatever the calls, a definition keeps its invariants.** Refused calls change nothing, and they are those that are
not sensible or repeat a granted one; there is a grammar exactly if the granted calls are enough for one, and it is
theirs. -/
theorem collects_of_defineByCalls (calls : List DefinitionStep) :
    (∀ (d : Draft) (call : DefinitionStep) (flaw : DefinitionFlaw), (call.call d).1 = .error flaw → (call.call d).2 = d) ∧
    (∀ call : DefinitionStep, (call.call (Draft.empty.afterCalls calls)).1 = .ok () ↔
      call.Sensible ∧ ¬∃ c ∈ Draft.empty.granted calls, c.Repeats call) ∧
    ((∃ g, (defineByCalls calls).result = .ok g) ↔ Complete (Draft.empty.granted calls)) ∧
    ∀ g, (defineByCalls calls).result = .ok g → Collects (Draft.empty.granted calls) g := by
  refine ⟨?_, ?_, ?_, ?_⟩
  · intro d call flaw h
    rw [DefinitionStep.call_eq] at h ⊢
    split at h
    · cases h
    · rfl
  · intro call
    rw [Draft.afterCalls_eq, ← Draft.exists_apply_ofGranted_iff, DefinitionStep.call_eq]
    cases call.apply (Draft.ofGranted (Draft.empty.granted calls)) <;> simp
  · simp only [defineByCalls_eq_ok_iff]
    constructor
    · rintro ⟨_, hcomplete, _⟩
      exact hcomplete
    · intro hcomplete
      exact ⟨_, hcomplete, rfl⟩
  · intro g hg
    have hdefine := define_granted hg
    obtain ⟨hcomplete, rfl⟩ := defineByCalls_eq_ok_iff.mp hg
    refine ⟨wellFormed_of_define hdefine, closed_of_define hdefine, lhsSymbols_ofCalls _, ?_,
      recursionInFront_of_define hdefine, ?_⟩
    all_goals
      intro r hr
      obtain ⟨lhs, hlhs, rfl⟩ := List.mem_map.mp hr
    · obtain ⟨rhs, action, hcall⟩ := mem_lhsOrder.mp (hcomplete.mem_iff.mp hlhs)
      exact List.ne_nil_of_mem (mem_alternatives_collectedRule.mpr hcall : (⟨rhs, action⟩ : Alternative) ∈ _)
    · have hsame := Rule.isLeftRecursive_congr (r := ⟨lhs, []⟩) (lhs_collectedRule (Draft.empty.granted calls) lhs).symm
      rw [lhs_collectedRule, ← hsame, collectedRule, Rule.alternatives_addAll_eq, List.append_nil]

section Corrected

open TableParser.Symbol

/-- Calls with mistakes among them: sums and products whose lists are given twice, without symbols, or with an empty
derivation in the middle, a terminal where a nonterminal should be, and a start symbol that is named late. -/
def correctedCalls : List DefinitionStep := [
  .start (terminal "sum"),
  .rule (nonterminal "product") [terminal "number"] (some "leaf"),
  .rule (terminal "sum") [nonterminal "product"] none,
  .rule (nonterminal "sum") [] none,
  .rule (nonterminal "sum") [nonterminal "product"] none,
  .rule (nonterminal "product") [terminal "number"] none,
  .start (nonterminal "product"),
  .rule (nonterminal "sum") [nonterminal "sum", terminal "+", nonterminal "product"] (some "add"),
  .rule (nonterminal "sum") [epsilon, terminal "+"] none,
  .start (nonterminal "sum"),
  .rule (nonterminal "product") [nonterminal "product", terminal "*", terminal "number"] (some "multiply")]

/-- The corrected calls define sums of products, and a list that is given again is refused without a trace. -/
theorem collects_of_defineByCalls_corrected : ∃ g, (defineByCalls correctedCalls).result = .ok g ∧
    Collects (Draft.empty.granted correctedCalls) g ∧ (Draft.empty.granted correctedCalls).length = 6 ∧
    g.rules = [
      ⟨nonterminal "sum", [⟨[nonterminal "sum", terminal "+", nonterminal "product"], some "add"⟩,
        ⟨[nonterminal "product"], none⟩]⟩,
      ⟨nonterminal "product", [⟨[nonterminal "product", terminal "*", terminal "number"], some "multiply"⟩,
        ⟨[terminal "number"], some "leaf"⟩]⟩] ∧
    ∃ flaw, (DefinitionStep.call (Draft.empty.afterCalls correctedCalls)
        (.rule (nonterminal "product") [terminal "number"] none)).1 = .error flaw ∧
      (DefinitionStep.call (Draft.empty.afterCalls correctedCalls)
        (.rule (nonterminal "product") [terminal "number"] none)).2 = Draft.empty.afterCalls correctedCalls := by
  have heval : ((defineByCalls correctedCalls).result.toOption.any fun g =>
      (Draft.empty.granted correctedCalls).length = 6 ∧ g.rules = [
        ⟨nonterminal "sum", [⟨[nonterminal "sum", terminal "+", nonterminal "product"], some "add"⟩,
          ⟨[nonterminal "product"], none⟩]⟩,
        ⟨nonterminal "product", [⟨[nonterminal "product", terminal "*", terminal "number"], some "multiply"⟩,
          ⟨[terminal "number"], some "leaf"⟩]⟩]) = true := by rfl
  have hrefused : (DefinitionStep.call (Draft.empty.afterCalls correctedCalls)
      (.rule (nonterminal "product") [terminal "number"] none)).1 =
        .error (.duplicateAlternative (nonterminal "product")) := by rfl
  obtain ⟨hunchanged, _, _, hcollects⟩ := collects_of_defineByCalls correctedCalls
  obtain ⟨g, hg, heval⟩ := exists_ok_of_any heval
  obtain ⟨hlength, hrules⟩ := of_decide_eq_true heval
  exact ⟨g, hg, hcollects g hg, hlength, hrules, _, hrefused, hunchanged _ _ _ hrefused⟩

end Corrected

end Grammar

end TableParser
