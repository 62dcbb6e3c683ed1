import TableParser.Proofs.RoundTrip

/-!
# What loading lets through

A reader is described by how it can end, whatever bytes it is given: with an error of reading, or with some bytes taken
from the front and a value that fits them (`Form.Ensures`). The description of a reader is put together from those of its
parts, so each check of the readers needs to be looked at only once.

* **Primitives** (`Form.ensures_readInt`, `Form.ensures_readText`, `Form.ensures_readSymbol`) take the bytes that the value is
  written as, and refer to nothing but listed symbols.
* **Tables** (`Form.Entered`) list no slot twice and hold what their entries were checked for.
* **Whole parsers** (`CompiledParser.read_or_refused`): loading always ends, and a loaded parser has no reference to
  nowhere.
-/

namespace TableParser

/-- What can be told about bytes that are no saved parser: writing and files have no part in it. -/
def FormError.OfReading : FormError → Prop
  | .transfer cause => cause = .integerCutShort ∨ cause = .textCutShort
  | .corrupted (.unlistedSymbol _) => False
  | _ => True

namespace Form

/-! ## How readers end -/

/-- Whatever the bytes are, the reader refuses them, or takes some from the front and gives a value that fits them. -/
def Ensures {α : Type} (read : Decode α) (Q : List UInt8 → α → Prop) : Prop :=
  ∀ bytes, (∃ e, read bytes = .error e ∧ e.OfReading) ∨
    ∃ front a rest, bytes = front ++ rest ∧ read bytes = .ok (a, rest) ∧ Q front a

section Ensures

variable {α β : Type} {read : Decode α} {next : α → Decode β} {Q : List UInt8 → α → Prop} {R : List UInt8 → β → Prop}

theorem ensures_pure {a : α} (h : Q [] a) : Ensures (pure a) Q := fun bytes => .inr ⟨[], a, bytes, rfl, rfl, h⟩

theorem ensures_throw {e : FormError} (h : e.OfReading) : Ensures (throw e) Q := fun _ => .inl ⟨e, rfl, h⟩

theorem ensures_corrupted {what : Corruption} (h : (FormError.corrupted what).OfReading) : Ensures (corrupted what) Q :=
  ensures_throw h

theorem Ensures.mono {Q' : List UInt8 → α → Prop} (h : Ensures read Q) (hQ : ∀ front a, Q front a → Q' front a) :
    Ensures read Q' := by
  intro bytes
  rcases h bytes with hfailed | ⟨front, a, rest, hbytes, hread, ha⟩
  · exact .inl hfailed
  · exact .inr ⟨front, a, rest, hbytes, hread, hQ front a ha⟩

/-- What runs second sees what the first reader ensures, and takes the bytes behind. -/
theorem Ensures.bind (h : Ensures read Q)
    (h' : ∀ front a, Q front a → Ensures (next a) fun front' b => R (front ++ front') b) : Ensures (read >>= next) R := by
  intro bytes
  have hrun : (read >>= next) bytes = read bytes >>= fun x => next x.1 x.2 := rfl
  rw [hrun]
  rcases h bytes with ⟨e, hread, he⟩ | ⟨front, a, rest, rfl, hread, ha⟩
  · rw [hread]
    exact .inl ⟨e, rfl, he⟩
  · rw [hread]
    rcases h' front a ha rest with ⟨e, hnext, he⟩ | ⟨front', b, rest', rfl, hnext, hb⟩
    · exact .inl ⟨e, hnext, he⟩
    · exact .inr ⟨front ++ front', b, rest', (List.append_assoc ..).symm, hnext, hb⟩

/-- Where the bytes do not matter, the values are what is handed on. -/
theorem Ensures.andThen {Q : α → Prop} {R : β → Prop} (h : Ensures read fun _ => Q)
    (h' : ∀ a, Q a → Ensures (next a) fun _ => R) : Ensures (read >>= next) fun _ => R :=
  h.bind fun _ a ha => h' a ha

/-- The bytes of the elements stand one behind the other. -/
inductive InTurn (Q : List UInt8 → α → Prop) : List UInt8 → List α → Prop
  | nil : InTurn Q [] []
  | cons {front rest : List UInt8} {a : α} {items : List α} (head : Q front a) (tail : InTurn Q rest items) :
      InTurn Q (front ++ rest) (a :: items)

theorem InTurn.forall_mem {Q : α → Prop} {bytes : List UInt8} {items : List α} (h : InTurn (fun _ => Q) bytes items) :
    ∀ x ∈ items, Q x := by
  induction h with
  | nil => exact nofun
  | cons ha _ ih => exact List.forall_mem_cons.mpr ⟨ha, ih⟩

/-- Elements that have their own bytes are written in turn. -/
theorem InTurn.eq_flatMap {of : α → List UInt8} {P : α → Prop} {bytes : List UInt8} {items : List α}
    (h : InTurn (fun front a => front = of a ∧ P a) bytes items) : bytes = items.flatMap of ∧ ∀ x ∈ items, P x := by
  induction h with
  | nil => exact ⟨rfl, nofun⟩
  | cons ha _ ih =>
    obtain ⟨rfl, ha⟩ := ha
    exact ⟨by rw [List.flatMap_cons, ih.1], List.forall_mem_cons.mpr ⟨ha, ih.2⟩⟩

/-- Several elements are read one behind the other. -/
theorem ensures_times (h : Ensures read Q) (n : Nat) :
    Ensures (times read n) fun front items => items.length = n ∧ InTurn Q front items := by
  induction n with
  | zero => exact ensures_pure ⟨rfl, .nil⟩
  | succ n ih =>
    refine h.bind fun front a ha => ih.bind fun front' items ⟨hlen, hitems⟩ => ensures_pure ?_
    rw [List.append_nil, List.length_cons, hlen]
    exact ⟨rfl, .cons ha hitems⟩

/-- A table is filled by steps that keep what is known of it, and of the number of its entries. -/
theorem ensures_timesInto {read : α → Decode α} {P : Nat → α → Prop}
    (h : ∀ k a, P k a → Ensures (read a) fun _ => P (k + 1)) (n : Nat) {k : Nat} {a : α} (ha : P k a) :
    Ensures (timesInto read n a) fun _ => P (k + n) := by
  induction n generalizing k a with
  | zero => exact ensures_pure ha
  | succ n ih =>
    refine (h k a ha).andThen fun b hb => ?_
    have hrest := ih hb
    rwa [Nat.add_right_comm] at hrest

end Ensures

/-! ## Primitives -/

/-- Four bytes are the bytes of the integer that they stand for. -/
theorem encodeInt_decodeInt (a b c d : UInt8) : encodeInt (decodeInt a b c d) = [a, b, c, d] := by
  have ha := a.toNat_lt
  have hb := b.toNat_lt
  have hc := c.toNat_lt
  have hd := d.toNat_lt
  have hsum : unsigned (decodeInt a b c d) = a.toNat + 0x100 * b.toNat + 0x10000 * c.toNat + 0x1000000 * d.toNat := by
    unfold decodeInt
    rw [unsigned_bmod]
    unfold unsigned doubleWordLimit
    omega
  unfold encodeInt
  rw [hsum]
  simp only [List.cons.injEq, and_true, ← UInt8.toNat_inj, Nat.toUInt8_eq, UInt8.toNat_ofNat']
  omega

theorem ensures_readInt : Ensures readInt fun front n => front = encodeInt n ∧ -2147483648 ≤ n ∧ n < 2147483648 := by
  intro bytes
  match bytes with
  | a :: b :: c :: d :: rest =>
    refine .inr ⟨[a, b, c, d], decodeInt a b c d, rest, rfl, rfl, (encodeInt_decodeInt a b c d).symm, ?_, ?_⟩
    · exact Int.le_bmod (by decide)
    · exact Int.bmod_lt (by decide)
  | [] | [_] | [_, _] | [_, _, _] => exact .inl ⟨_, rfl, .inl rfl⟩

theorem ensures_readLength : Ensures readLength fun front n => front = encodeInt n ∧ n < 2 ^ 31 := by
  refine ensures_readInt.bind fun front n ⟨hfront, _, hhigh⟩ => ?_
  split
  · exact ensures_corrupted trivial
  · rename_i hn
    refine ensures_pure ⟨?_, by omega⟩
    rw [List.append_nil, hfront, Int.toNat_of_nonneg (by omega)]

theorem ensures_readBytes (n : Nat) : Ensures (readBytes n) fun front bytes => bytes = front ∧ front.length = n := by
  intro bytes
  unfold readBytes
  split
  · exact .inl ⟨_, rfl, .inr rfl⟩
  · rename_i h
    refine .inr ⟨bytes.take n, _, bytes.drop n, (List.take_append_drop n bytes).symm, rfl, rfl, ?_⟩
    rw [List.length_take] at h ⊢
    omega

/-- A text is read from its bytes. -/
theorem ensures_readText : Ensures readText fun front s => front = Field.encodeText s ∧ s.utf8ByteSize < 2 ^ 31 := by
  refine ensures_readLength.bind fun front n ⟨hfront, hn⟩ => (ensures_readBytes n).bind fun front' bytes ⟨hbytes, hlen⟩ => ?_
  subst hbytes
  split
  · rename_i s hs
    obtain ⟨hvalid, hs⟩ := Option.dite_none_right_eq_some.mp hs
    obtain rfl := Option.some.inj hs
    have hdata : (String.fromUTF8 bytes.toByteArray hvalid).toUTF8.data.toList = bytes := by
      show bytes.toByteArray.data.toList = bytes
      simp
    have hsize : (String.fromUTF8 bytes.toByteArray hvalid).utf8ByteSize = n := by
      show bytes.toByteArray.size = n
      simpa using hlen
    refine ensures_pure ⟨?_, hsize ▸ hn⟩
    unfold Field.encodeText
    rw [hdata, hsize, List.append_nil, hfront]
  · exact ensures_corrupted trivial

/-- Counted elements stand behind their number, in turn. -/
theorem Ensures.counted {α : Type} {read : Decode α} {Q : List UInt8 → α → Prop} (h : Ensures read Q) :
    Ensures (do times read (← readLength)) fun front items => items.length < 2 ^ 31 ∧
      ∃ rest, front = encodeInt items.length ++ rest ∧ InTurn Q rest items := by
  refine ensures_readLength.bind fun front n ⟨hfront, hn⟩ => ?_
  refine (ensures_times h n).mono fun rest items ⟨hlen, hitems⟩ => ?_
  subst hlen
  exact ⟨hn, rest, by rw [hfront], hitems⟩

/-- Where the bytes do not matter, each of the elements is known to fit. -/
theorem Ensures.each {α : Type} {read : Decode α} {Q : α → Prop} (h : Ensures read fun _ => Q) :
    Ensures (do times read (← readLength)) fun _ items => items.length < 2 ^ 31 ∧ ∀ x ∈ items, Q x :=
  h.counted.mono fun _ _ ⟨hlen, _, _, hitems⟩ => ⟨hlen, hitems.forall_mem⟩

theorem SymbolLists.lists_of_symbol? {lists : SymbolLists} {reference : Int} {s : Symbol}
    (h : lists.symbol? reference = some s) : lists.Lists s := by
  unfold symbol? at h
  split at h
  · exact .inl (List.mem_of_getElem? h)
  · exact .inr (List.mem_of_getElem? h)

/-- Only listed symbols are referred to. -/
theorem ensures_readSymbol (lists : SymbolLists) : Ensures (readSymbol lists) fun _ => lists.Lists := by
  refine ensures_readInt.bind fun _ reference _ => ?_
  split
  · rename_i s hs
    exact ensures_pure (SymbolLists.lists_of_symbol? hs)
  · exact ensures_throw trivial

/-- The symbols of a kind are read from their number and their names. -/
theorem ensures_readListed (kind : SymbolKind) : Ensures (readListed kind) fun front symbols =>
    (∀ lists, front = encode lists (Field.counted (fun s => [.text s.name]) symbols)) ∧ symbols.length < 2 ^ 31 ∧
      ∀ s ∈ symbols, s.kind = kind ∧ s.name.utf8ByteSize < 2 ^ 31 := by
  have hname : Ensures (do return Symbol.ofKind kind (← readText)) fun front s =>
      front = Field.encodeText s.name ∧ s.kind = kind ∧ s.name.utf8ByteSize < 2 ^ 31 := by
    refine ensures_readText.bind fun front name ⟨hfront, hsize⟩ => ensures_pure ?_
    rw [List.append_nil, Symbol.name_ofKind, Symbol.kind_ofKind]
    exact ⟨hfront, rfl, hsize⟩
  refine hname.counted.mono fun front symbols ⟨hlen, rest, hfront, hsymbols⟩ => ?_
  obtain ⟨hrest, hs⟩ := hsymbols.eq_flatMap
  have htext : ∀ lists, ∀ s : Symbol, encode lists [.text s.name] = Field.encodeText s.name := fun _ _ => encode_singleton _
  refine ⟨fun lists => ?_, hlen, hs⟩
  simp only [encode_counted, htext, hfront, hrest]

end Form

/-! ## Grammars -/

/-- The alternative has a symbol, and its symbols are listed. -/
structure Alternative.Resolved (a : Alternative) (lists : Form.SymbolLists) : Prop where
  symbols_ne_nil : a.symbols ≠ []
  symbols : ∀ s ∈ a.symbols, lists.Lists s

/-- The rule is for a listed nonterminal. -/
structure Rule.Resolved (r : Rule) (lists : Form.SymbolLists) : Prop where
  lhs_nonterminal : r.lhs.isNonterminal = true
  lhs : lists.Lists r.lhs
  alternatives : ∀ a ∈ r.alternatives, a.Resolved lists

/-- All symbols of the grammar are listed. -/
def Grammar.Resolved (g : Grammar) (lists : Form.SymbolLists) : Prop := ∀ r ∈ g.rules, r.Resolved lists

theorem Grammar.Resolved.loadable {g : Grammar} {lists : Form.SymbolLists} (h : g.Resolved lists) : g.Loadable where
  lhs r hr := (h r hr).lhs_nonterminal
  symbols r hr a ha := ((h r hr).alternatives a ha).symbols_ne_nil

namespace Form

section Grammars

variable (lists : SymbolLists)

theorem ensures_readAction : Ensures readAction fun _ action => ∀ text ∈ action, text.utf8ByteSize < 2 ^ 31 := by
  refine ensures_readInt.bind fun _ n _ => ?_
  split
  · exact ensures_pure nofun
  · refine ensures_readText.bind fun _ text ⟨_, hsize⟩ => ensures_pure ?_
    rintro _ ⟨⟩
    exact hsize

theorem ensures_readAlternative : Ensures (readAlternative lists) fun _ a => a.Resolved lists ∧ a.Fits := by
  unfold readAlternative
  rw [← bind_assoc]
  refine (ensures_readSymbol lists).each.andThen fun symbols ⟨hlen, hs⟩ => ?_
  split
  · exact ensures_corrupted trivial
  · rename_i hne
    refine ensures_readAction.andThen fun action haction => ensures_pure ⟨⟨?_, hs⟩, hlen, haction⟩
    simpa using hne

theorem ensures_readRule : Ensures (readRule lists) fun _ r =>
    r.Resolved lists ∧ r.alternatives.length < 2 ^ 31 ∧ ∀ a ∈ r.alternatives, a.Fits := by
  refine (ensures_readSymbol lists).andThen fun lhs hlhs => ?_
  split
  · exact ensures_corrupted trivial
  · rename_i hterminal
    rw [← bind_assoc]
    refine (ensures_readAlternative lists).each.andThen fun alternatives ⟨hlen, ha⟩ => ?_
    have hnt := Symbol.isTerminal_eq_false_iff.mp (Bool.eq_false_iff.mpr hterminal)
    exact ensures_pure ⟨⟨hnt, hlhs, fun a hmem => (ha a hmem).1⟩, hlen, fun a hmem => (ha a hmem).2⟩

/-- **Grammars** that are read are made of listed symbols. -/
theorem ensures_readGrammar : Ensures (readGrammar lists) fun _ g => g.Resolved lists ∧ g.Fits := by
  unfold readGrammar
  rw [← bind_assoc]
  refine (ensures_readRule lists).each.andThen fun rules ⟨hlen, hr⟩ => ensures_pure ?_
  exact ⟨fun r hmem => (hr r hmem).1, hlen, fun r hmem => (hr r hmem).2.1, fun r hmem => (hr r hmem).2.2⟩

end Grammars

/-! ## Tables -/

/-- A table with so many entries, no two of them for one slot, all of which fit. -/
structure Entered {κ₁ κ₂ ν : Type} (Q : κ₁ → κ₂ → ν → Prop) (n : Nat) (m : Matrix κ₁ κ₂ ν) : Prop where
  size : m.size = n
  proper : m.Proper
  entry : ∀ k₁ k₂ v, (k₁, k₂, v) ∈ m.toList → Q k₁ k₂ v

section Tables

variable {κ₁ κ₂ ν : Type} {Q : κ₁ → κ₂ → ν → Prop}

theorem entered_empty : Entered Q 0 (.empty : Matrix κ₁ κ₂ ν) := ⟨rfl, .nil, nofun⟩

/-- An entry for a free slot can be added. -/
theorem Entered.ensures_insertInto [DecidableEq κ₁] [DecidableEq κ₂] {n : Nat} {m : Matrix κ₁ κ₂ ν} {k₁ : κ₁} {k₂ : κ₂}
    {v : ν} (hm : Entered Q n m) (hv : Q k₁ k₂ v) {duplicate : Corruption}
    (hduplicate : (FormError.corrupted duplicate).OfReading) :
    Ensures (insertInto m k₁ k₂ v duplicate) fun _ => Entered Q (n + 1) := by
  unfold insertInto
  split
  · rename_i m' hins
    have hproper := hm.proper.insert hins
    unfold Matrix.insert at hins
    split at hins
    · cases hins
    · cases hins
      refine ensures_pure ⟨?_, hproper, fun a b w hmem => ?_⟩
      · rw [← hm.size]
        exact List.length_append
      · unfold Matrix.toList at hmem
        rw [List.map_append, List.mem_append] at hmem
        rcases hmem with hmem | hmem
        · exact hm.entry a b w hmem
        · cases List.mem_singleton.mp hmem
          exact hv
  · exact ensures_corrupted hduplicate

/-- A counted table is filled from nothing. -/
theorem Ensures.table {read : Matrix κ₁ κ₂ ν → Decode (Matrix κ₁ κ₂ ν)}
    (h : ∀ n m, Entered Q n m → Ensures (read m) fun _ => Entered Q (n + 1)) :
    Ensures (do timesInto read (← readLength) .empty) fun _ m => m.size < 2 ^ 31 ∧ Entered Q m.size m := by
  refine ensures_readLength.bind fun _ n ⟨_, hn⟩ => ?_
  refine (ensures_timesInto h n entered_empty).mono fun _ m hm => ?_
  rw [Nat.zero_add] at hm
  have hsize := hm.size
  subst hsize
  exact ⟨hn, hm⟩

end Tables

section Entries

variable (lists : SymbolLists) (g : Grammar) (stateCount : Nat)

/-- Only alternatives that are there are named. -/
theorem ensures_checkAlternative (raw : Int) : Ensures (checkAlternative g raw) fun _ id => g.hasAlternative id = true := by
  unfold checkAlternative
  dsimp only
  split
  · rename_i h
    exact ensures_pure h
  · exact ensures_corrupted trivial

/-- Only states that are there are named. -/
theorem ensures_checkState (raw : Int) : Ensures (checkState stateCount raw) fun _ q => q.number.toNat < stateCount := by
  unfold checkState
  split
  · rename_i h
    refine ensures_pure ?_
    show raw.toNat.toUInt16.toNat < stateCount
    rw [Nat.toUInt16_eq, UInt16.toNat_ofNat']
    omega
  · exact ensures_throw trivial

theorem ensures_readState : Ensures (do checkState stateCount (← readInt)) fun _ q => q.number.toNat < stateCount :=
  ensures_readInt.bind fun _ raw _ => ensures_checkState stateCount raw

theorem ensures_toAction (tag value : Int) :
    Ensures (toAction g stateCount tag value) fun _ act => act.Loadable g stateCount := by
  unfold toAction
  split
  · exact (ensures_checkState stateCount value).andThen fun q hq => ensures_pure hq
  · split
    · exact (ensures_checkAlternative g value).andThen fun id hid => ensures_pure hid
    · split
      · exact ensures_pure trivial
      · exact ensures_corrupted trivial

/-- What an entry of a predictive table refers to. -/
def EntryResolved (lhs t : Symbol) (id : AlternativeId) : Prop :=
  lists.Lists lhs ∧ lists.Lists t ∧ g.hasAlternative id = true

/-- What an entry of the action table refers to. -/
def ActionResolved (q : LR.StateId) (s : Symbol) (act : LR.TableAction) : Prop :=
  q.number.toNat < stateCount ∧ lists.Lists s ∧ act.Loadable g stateCount

/-- What an entry of the goto table refers to. -/
def GotoResolved (q : LR.StateId) (s : Symbol) (r : LR.StateId) : Prop :=
  q.number.toNat < stateCount ∧ lists.Lists s ∧ r.number.toNat < stateCount

theorem ensures_readEntry (n : Nat) (table : LL.Table) (h : Entered (EntryResolved lists g) n table) :
    Ensures (readEntry lists g table) fun _ => Entered (EntryResolved lists g) (n + 1) := by
  refine (ensures_readSymbol lists).andThen fun lhs hlhs => (ensures_readSymbol lists).andThen fun t ht => ?_
  refine ensures_readInt.bind fun _ raw _ => (ensures_checkAlternative g raw).andThen fun id hid => ?_
  exact h.ensures_insertInto ⟨hlhs, ht, hid⟩ trivial

theorem ensures_readActionEntry (n : Nat) (table : LR.Actions) (h : Entered (ActionResolved lists g stateCount) n table) :
    Ensures (readActionEntry lists g stateCount table) fun _ => Entered (ActionResolved lists g stateCount) (n + 1) := by
  unfold readActionEntry
  rw [← bind_assoc]
  refine (ensures_readState stateCount).andThen fun q hq => (ensures_readSymbol lists).andThen fun s hs => ?_
  refine ensures_readInt.bind fun _ tag _ => ensures_readInt.bind fun _ value _ => ?_
  refine (ensures_toAction g stateCount tag value).andThen fun act hact => ?_
  exact h.ensures_insertInto ⟨hq, hs, hact⟩ trivial

theorem ensures_readGotoEntry (n : Nat) (table : LR.Gotos) (h : Entered (GotoResolved lists stateCount) n table) :
    Ensures (readGotoEntry lists stateCount table) fun _ => Entered (GotoResolved lists stateCount) (n + 1) := by
  unfold readGotoEntry
  rw [← bind_assoc]
  refine (ensures_readState stateCount).andThen fun q hq => (ensures_readSymbol lists).andThen fun s hs => ?_
  rw [← bind_assoc]
  refine (ensures_readState stateCount).andThen fun r hr => ?_
  exact h.ensures_insertInto ⟨hq, hs, hr⟩ trivial

end Entries

end Form

/-! ## Parsers -/

/-- The entries of the table refer to listed symbols and to alternatives of the grammar, one entry a slot. -/
structure LL.Parser.Resolved (p : LL.Parser) (lists : Form.SymbolLists) : Prop where
  grammar : p.grammar.Resolved lists
  proper : p.entries.Proper
  entry : ∀ lhs t id, (lhs, t, id) ∈ p.entries.toList → Form.EntryResolved lists p.grammar lhs t id

/-- The entries of the tables refer to states, listed symbols and alternatives of the grammar, one entry a slot. -/
structure LR.Table.Resolved (t : LR.Table) (lists : Form.SymbolLists) : Prop where
  grammar : t.grammar.Resolved lists
  properActions : t.actions.Proper
  properGotos : t.gotos.Proper
  action : ∀ q s act, (q, s, act) ∈ t.actions.toList → Form.ActionResolved lists t.grammar t.stateCount q s act
  goto : ∀ q s r, (q, s, r) ∈ t.gotos.toList → Form.GotoResolved lists t.stateCount q s r

namespace CompiledParser

/-- Nothing in the parser refers to nowhere. -/
def Resolved : CompiledParser → Form.SymbolLists → Prop
  | .ll p, lists => p.Resolved lists
  | .lr t, lists => t.Resolved lists

end CompiledParser

namespace Form

/-- The fields in front of the grammar: what kind of parser it is, and the symbols by their names. -/
def Field.opening (kind : Int) (lists : SymbolLists) : List Field :=
  [.int magic, .int kind] ++ (counted (fun s => [.text s.name]) lists.terminals ++
    counted (fun s => [.text s.name]) lists.nonterminals)

/-- The symbol lists are the ones that stand at the front of the bytes. -/
structure SymbolLists.AtFront (lists : SymbolLists) (kind : Int) (bytes : List UInt8) : Prop where
  terminals : ∀ s ∈ lists.terminals, s.kind = .terminal
  nonterminals : ∀ s ∈ lists.nonterminals, s.kind = .nonterminal
  bytes : ∃ rest, bytes = encode lists (Field.opening kind lists) ++ rest

end Form

/-- What a parser has to do with the bytes that it was read from. -/
structure CompiledParser.ReadFrom (p : CompiledParser) (lists : Form.SymbolLists) (bytes : List UInt8) : Prop where
  atFront : lists.AtFront (Form.Field.kindOf p) bytes
  resolved : p.Resolved lists
  reloaded : p.reloaded = p
  lists_fit : lists.Fits
  grammar_fits : p.grammar.Fits
  table_fits : p.TableFits

namespace Form

section Parsers

variable (lists : SymbolLists)

theorem ensures_readLL {g : Grammar} (hg : g.Resolved lists) : Ensures (readLL lists g) fun _ p =>
    Field.kindOf p = kindLL ∧ p.Resolved lists ∧ p.reloaded = p ∧ p.grammar = g ∧ p.TableFits := by
  unfold readLL
  rw [← bind_assoc]
  refine (Ensures.table (ensures_readEntry lists g)).andThen fun table ⟨hsize, htable⟩ => ensures_pure ?_
  exact ⟨rfl, ⟨hg, htable.proper, htable.entry⟩, rfl, rfl, hsize⟩

theorem ensures_readLR {g : Grammar} (hg : g.Resolved lists) : Ensures (readLR lists g) fun _ p =>
    Field.kindOf p = kindLR ∧ p.Resolved lists ∧ p.reloaded = p ∧ p.grammar = g ∧ p.TableFits := by
  refine ensures_readLength.bind fun _ stateCount ⟨_, hcount⟩ => ?_
  rw [← bind_assoc]
  refine (Ensures.table (ensures_readActionEntry lists g stateCount)).andThen fun actions ⟨hsize, hactions⟩ => ?_
  rw [← bind_assoc]
  refine (Ensures.table (ensures_readGotoEntry lists stateCount)).andThen fun gotos ⟨hsize', hgotos⟩ => ensures_pure ?_
  exact ⟨rfl, ⟨hg, hactions.proper, hgotos.proper, hactions.entry, hgotos.entry⟩, rfl, rfl, hcount, hsize, hsize'⟩

omit lists in
theorem ensures_readKind : Ensures readKind fun front kind =>
    (∀ lists, front = encode lists [.int magic, .int kind]) ∧ (kind = kindLL ∨ kind = kindLR) := by
  unfold readKind
  refine ensures_readInt.bind fun front n ⟨hfront, _⟩ => ?_
  split
  · exact ensures_throw trivial
  · rename_i hn
    refine ensures_readInt.bind fun front' kind ⟨hfront', _⟩ => ?_
    split
    · exact ensures_throw trivial
    · rename_i hkind
      refine ensures_pure ⟨fun lists => ?_, by tauto⟩
      rw [hfront, hfront', not_not.mp hn]
      rfl

/-- The body of a parser is as its front announces. -/
theorem ensures_readBody {kind : Int} (hkind : kind = kindLL ∨ kind = kindLR) : Ensures (readBody kind lists) fun _ p =>
    Field.kindOf p = kind ∧ p.Resolved lists ∧ p.reloaded = p ∧ p.grammar.Fits ∧ p.TableFits := by
  refine (ensures_readGrammar lists).andThen fun g ⟨hg, hfits⟩ => ?_
  split
  · rename_i h
    subst h
    refine (ensures_readLL lists hg).mono fun _ p ⟨hk, hp, hr, hpg, ht⟩ => ⟨hk, hp, hr, hpg ▸ hfits, ht⟩
  · rename_i h
    obtain rfl := hkind.resolve_left h
    refine (ensures_readLR lists hg).mono fun _ p ⟨hk, hp, hr, hpg, ht⟩ => ⟨hk, hp, hr, hpg ▸ hfits, ht⟩

/-- **A parser that is read** refers only to what the bytes hold. -/
theorem ensures_readParser : Ensures readParser fun front p => ∃ lists, p.ReadFrom lists front := by
  refine ensures_readKind.bind fun front kind ⟨hfront, hkind⟩ => ?_
  refine (ensures_readListed .terminal).bind fun front' terminals ⟨hfront', htlen, ht⟩ => ?_
  refine (ensures_readListed .nonterminal).bind fun front'' nonterminals ⟨hfront'', hnlen, hn⟩ => ?_
  refine (ensures_readBody ⟨terminals, nonterminals⟩ hkind).mono fun rest p ⟨hk, hp, hr, hg, htable⟩ => ?_
  subst hk
  refine ⟨⟨terminals, nonterminals⟩, ⟨fun s hs => (ht s hs).1, fun s hs => (hn s hs).1, rest, ?_⟩, hp, hr,
    ⟨htlen, hnlen, fun s hs => ?_⟩, hg, htable⟩
  · unfold Field.opening
    rw [encode_append, encode_append, ← hfront, ← hfront', ← hfront'']
    simp only [List.append_assoc]
  · exact (List.mem_append.mp hs).elim (fun hs => (ht s hs).2) fun hs => (hn s hs).2

end Parsers

end Form

namespace CompiledParser

/-- What stands behind does not matter. -/
theorem ReadFrom.append {p : CompiledParser} {lists : Form.SymbolLists} {bytes : List UInt8}
    (h : p.ReadFrom lists bytes) (rest : List UInt8) : p.ReadFrom lists (bytes ++ rest) := by
  obtain ⟨behind, hbytes⟩ := h.atFront.bytes
  have hfront : ∃ behind, bytes ++ rest =
      Form.encode lists (Form.Field.opening (Form.Field.kindOf p) lists) ++ behind := by
    exact ⟨behind ++ rest, by rw [hbytes, List.append_assoc]⟩
  exact { h with atFront := { h.atFront with bytes := hfront } }

/-- **Loading ends for all bytes**: they are refused, or they make a parser whose references all lead somewhere. -/
theorem read_or_refused (bytes : List UInt8) : (∃ e, (load bytes).result = .error e ∧ e.OfReading) ∨
    ∃ p lists, (load bytes).result = .ok p ∧ p.ReadFrom lists bytes := by
  rw [Form.result_load]
  rcases Form.ensures_readParser bytes with ⟨e, hread, he⟩ | ⟨front, p, rest, rfl, hread, lists, hp⟩
  · exact .inl ⟨e, by rw [hread]; rfl, he⟩
  · exact .inr ⟨p, lists, by rw [hread]; rfl, hp.append rest⟩

end CompiledParser
end TableParser
