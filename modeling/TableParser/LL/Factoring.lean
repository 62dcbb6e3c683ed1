import TableParser.LL.Transformation

/-!
# Left factoring

Alternatives that begin alike are replaced by one that goes on with a helper, whose alternatives are the rests. Rounds
follow until no two neighbours begin alike.

* **What a round factors out** (`Factor.ofAlternatives`): scanning from the front, the neighbours with the longest
  common beginning; the scan ends where the common beginning gets shorter than the longest one so far.
* **One round** (`Factoring.round`), **one rule** (`Factoring.rounds`), **the grammar** (`Grammar.leftFactor`).
-/

namespace TableParser

/-- Neighbouring alternatives with a common beginning, and those before and behind them. -/
structure Factor where
  before : List Alternative
  run : List Alternative
  after : List Alternative
  stem : List Symbol
deriving DecidableEq, Repr

namespace Factor

/-- Scan on from an alternative: the start and the end of the best run so far and the length of its beginning. -/
def scan (start best index : Nat) : Alternative → List Alternative → Nat × Nat × Nat
  | _, [] => (start, index, best)
  | a, b :: rest =>
    let length := commonLength a.symbols b.symbols
    if length < best then (start, index, best)
    else if best < length then scan (index - 1) length (index + 1) b rest
    else scan start best (index + 1) b rest

/-- The run to factor out next, if any two neighbours begin alike. -/
def ofAlternatives : List Alternative → Option Factor
  | [] => none
  | a :: rest =>
    let (start, stop, length) := scan 0 0 1 a rest
    let alternatives := a :: rest
    let run := (alternatives.take stop).drop start
    if length = 0 then none
    else some ⟨alternatives.take start, run, alternatives.drop stop,
      (run.head?.map fun b => b.symbols.take length).getD []⟩

/-- What is left of an alternative behind the common beginning; nothing left derives the empty string. -/
def rest (f : Factor) (a : Alternative) : Alternative :=
  let suffix := a.symbols.drop f.stem.length
  ⟨if suffix.isEmpty then [Symbol.epsilon] else suffix, a.action⟩

/-- The rule with the run replaced. -/
def replaced (f : Factor) (lhs helper : Symbol) : Rule :=
  Rule.addAll ⟨lhs, []⟩ (⟨f.stem ++ [helper], none⟩ :: (f.before ++ f.after))

/-- The rule of the helper. -/
def factored (f : Factor) (helper : Symbol) : Rule := Rule.addAll ⟨helper, []⟩ (f.run.map f.rest)

end Factor

/-- The state of factoring a rule: the rule so far, the helpers, the most recent first, the number for the next
helper, the nonterminals taken, the symbols known. -/
structure Factoring where
  rule : Rule
  helpers : List Rule
  next : Nat
  taken : List Symbol
  order : Registry
deriving DecidableEq, Repr

namespace Factoring

variable {ε : Type}

/-- Factor one run out. -/
def round (s : Factoring) (f : Factor) : Reported ε Factoring := do
  let n := Transformation.freshIndex s.rule.lhs s.taken s.next
  let helper := Transformation.helper s.rule.lhs n
  let order := s.order.intern helper
  Reported.intern helper
  let stem := " ".intercalate (f.stem.map Symbol.name)
  Reported.note .debug (s!"factor `{stem}' out of {f.run.length} alternatives of " ++
    s!"`{s.rule.lhs.name}' into `{helper.name}'")
  return ⟨(f.replaced s.rule.lhs helper).sorted order, f.factored helper :: s.helpers, n + 1,
    insertSymbol s.taken helper, order⟩

/-- Factor out run after run; every round leaves one alternative less at least, which bounds their number. -/
def rounds : Nat → Factoring → Reported ε Factoring
  | 0, s => pure s
  | fuel + 1, s =>
    match Factor.ofAlternatives s.rule.alternatives with
    | none => pure s
    | some f => do rounds fuel (← s.round f)

/-- Sort a rule and factor it. -/
def ofRule (r : Rule) (taken : List Symbol) (order : Registry) : Reported ε Factoring :=
  rounds r.alternatives.length ⟨r.sorted order, [], 2, taken, order⟩

/-- The rule with its helpers behind it. -/
def rules (s : Factoring) : List Rule := s.rule :: s.helpers

end Factoring

/-- The state of factoring a grammar: the rules done so far, the nonterminals taken, the symbols known. -/
structure GrammarFactoring where
  done : List Rule
  taken : List Symbol
  order : Registry
  changed : Bool
deriving DecidableEq, Repr

/-- Factor the next rule. -/
def GrammarFactoring.step {ε : Type} (s : GrammarFactoring) (r : Rule) : Reported ε GrammarFactoring := do
  let factoring ← Factoring.ofRule r s.taken s.order
  return ⟨s.done ++ factoring.rules, factoring.taken, factoring.order, s.changed || !factoring.helpers.isEmpty⟩

/-- Factor every rule; the helpers stand right behind their rule. -/
def Grammar.leftFactor {ε : Type} (g : Grammar) (order : Registry) : Reported ε Transformation := do
  let s ← g.rules.foldlM GrammarFactoring.step ⟨[], g.nonterminals, order, false⟩
  return ⟨⟨s.done⟩, s.changed, s.order⟩

end TableParser
