import Mathlib.Algebra.Group.Nat.Defs
import TableParser.Compiled.Load
import TableParser.Compiled.Save
import TableParser.Proofs.Automaton
import TableParser.Proofs.ItemOrder

/-!
# Reading what was written

A reader is right about some fields when it takes their bytes from the front of whatever comes behind them and gives the
value that they stand for (`Form.Reads`). Readers that run one after the other are right about the fields of both, so
each part of the saved form needs to be looked at only once.

* **Primitives** (`Form.reads_int`, `Form.reads_text`, `Form.reads_symbol`) are right about one field.
* **Lists and tables** (`Form.reads_counted`, `Form.reads_table`) are right about their elements, behind their number.
* **Whole parsers** (`Form.reads_whole`, `CompiledParser.result_load_save`) are read as they were written.
-/

namespace TableParser

/-- The places of an alternative can be got back from its number. -/
theorem AlternativeId.ofRaw_toRaw (id : AlternativeId) : AlternativeId.ofRaw id.toRaw = id := by
  have hindex := id.index.toNat_lt
  have hhigh : (id.rule.toNat * wordLimit + id.index.toNat) / wordLimit = id.rule.toNat := by
    unfold wordLimit
    omega
  obtain ⟨rule, index⟩ := id
  unfold AlternativeId.ofRaw AlternativeId.toRaw
  rw [hhigh]
  simp only [Nat.toUInt16_eq, UInt16.ofNat_toNat, AlternativeId.mk.injEq, true_and]
  refine UInt16.toNat_inj.mp ?_
  rw [UInt16.toNat_ofNat']
  unfold wordLimit
  dsimp only at hindex
  omega

namespace Form

/-! ## Writing -/

section Writing

variable {lists : SymbolLists} {fields fields' : List Field} {s : Symbol}

/-- The symbol is in the lists. -/
def SymbolLists.Lists (l : SymbolLists) (s : Symbol) : Prop := s ∈ l.terminals ∨ s ∈ l.nonterminals

/-- The bytes of a field. -/
def Field.bytes (lists : SymbolLists) (field : Field) : List UInt8 := (field.write lists).emitted

/-- The bytes of some fields. -/
def encode (lists : SymbolLists) (fields : List Field) : List UInt8 := fields.flatMap (Field.bytes lists)

@[simp] theorem encode_append : encode lists (fields ++ fields') = encode lists fields ++ encode lists fields' :=
  List.flatMap_append

theorem encode_singleton (field : Field) : encode lists [field] = field.bytes lists := List.append_nil _

/-- A listed symbol has a reference that refers to it. -/
theorem SymbolLists.exists_reference (h : lists.Lists s) : ∃ reference, lists.reference? s = some reference ∧
    lists.symbol? reference = some s ∧ -(lists.nonterminals.length : Int) ≤ reference ∧
    reference < lists.terminals.length := by
  unfold SymbolLists.reference?
  cases ht : lists.terminals.idxOf? s with
  | some i =>
    obtain ⟨hlt, hi, _⟩ := List.findIdx?_eq_some_iff_getElem.mp ht
    refine ⟨i, rfl, ?_, by omega, by omega⟩
    rw [SymbolLists.symbol?, if_pos (Int.natCast_nonneg i), Int.toNat_natCast, List.getElem?_eq_getElem hlt]
    exact congrArg some (eq_of_beq hi)
  | none =>
    have hmem : s ∈ lists.nonterminals := h.resolve_left fun hmem => List.idxOf?_eq_none_iff.mp ht hmem
    cases hn : lists.nonterminals.idxOf? s with
    | none => exact absurd hmem (List.idxOf?_eq_none_iff.mp hn)
    | some i =>
      obtain ⟨hlt, hi, _⟩ := List.findIdx?_eq_some_iff_getElem.mp hn
      refine ⟨-(i : Int) - 1, rfl, ?_, by omega, by omega⟩
      have hplace : (-(-(i : Int) - 1) - 1).toNat = i := by omega
      rw [SymbolLists.symbol?, if_neg (by omega), hplace, List.getElem?_eq_getElem hlt]
      exact congrArg some (eq_of_beq hi)

theorem SymbolLists.reference?_eq_none (h : ¬lists.Lists s) : lists.reference? s = none := by
  obtain ⟨ht, hn⟩ := not_or.mp h
  unfold SymbolLists.reference?
  rw [List.idxOf?_eq_none_iff.mpr ht, List.idxOf?_eq_none_iff.mpr hn]
  rfl

/-- The symbols of some fields are listed. -/
def Listed (lists : SymbolLists) (fields : List Field) : Prop := ∀ s, Field.symbol s ∈ fields → lists.Lists s

theorem Listed.append (h : Listed lists fields) (h' : Listed lists fields') : Listed lists (fields ++ fields') := by
  intro s hs
  exact (List.mem_append.mp hs).elim (h s) (h' s)

theorem Listed.counted {α : Type} {of : α → List Field} {items : List α} (h : ∀ x ∈ items, Listed lists (of x)) :
    Listed lists (Field.counted of items) := by
  intro s hs
  rcases List.mem_cons.mp hs with hs | hs
  · cases hs
  · obtain ⟨x, hx, hs⟩ := List.mem_flatMap.mp hs
    exact h x hx s hs

theorem Field.write_symbol {reference : Int} (h : lists.reference? s = some reference) :
    (Field.symbol s).write lists = (Field.int reference).write lists := by
  simp only [write, h]

theorem Field.write_of_listed {field : Field} (h : ∀ s, field = .symbol s → lists.Lists s) :
    field.write lists = Trail.putAll (field.bytes lists) := by
  cases field with
  | int n => rfl
  | text s => rfl
  | symbol s =>
    obtain ⟨reference, hr, _⟩ := SymbolLists.exists_reference (h s rfl)
    rw [Field.bytes, write_symbol hr]
    rfl

/-- **Fields whose symbols are listed can be written.** -/
theorem all_write (h : Listed lists fields) :
    Trail.all (fields.map (Field.write lists)) = Trail.putAll (encode lists fields) := by
  induction fields with
  | nil => rfl
  | cons field fields ih =>
    have hfirst : field.write lists = Trail.putAll (field.bytes lists) :=
      Field.write_of_listed fun s hs => h s (hs ▸ List.mem_cons_self)
    have hrest := ih fun s hs => h s (List.mem_cons_of_mem field hs)
    show (field.write lists).andThen (fun _ => Trail.all (fields.map (Field.write lists))) = _
    rw [hfirst, hrest]
    rfl

/-- **Writing stops at a symbol that is not listed.** -/
theorem exists_unlisted (h : ¬Listed lists fields) : ∃ s, Field.symbol s ∈ fields ∧ ¬lists.Lists s ∧
    (Trail.all (fields.map (Field.write lists))).result = .error (.corrupted (.unlistedSymbol s)) := by
  induction fields with
  | nil => exact absurd (fun s hs => absurd hs List.not_mem_nil) h
  | cons field fields ih =>
    have hrun : Trail.all ((field :: fields).map (Field.write lists)) =
        (field.write lists).andThen fun _ => Trail.all (fields.map (Field.write lists)) := rfl
    rw [hrun]
    by_cases hfield : ∀ s, field = .symbol s → lists.Lists s
    · have hrest : ¬Listed lists fields := by
        intro hfields
        refine h fun s hs => ?_
        rcases List.mem_cons.mp hs with hs | hs
        · exact hfield s hs.symm
        · exact hfields s hs
      obtain ⟨s, hs, hunlisted, hresult⟩ := ih hrest
      refine ⟨s, List.mem_cons_of_mem field hs, hunlisted, ?_⟩
      rw [Field.write_of_listed hfield]
      exact hresult
    · push Not at hfield
      obtain ⟨s, rfl, hs⟩ := hfield
      refine ⟨s, List.mem_cons_self, hs, ?_⟩
      rw [Field.write, SymbolLists.reference?_eq_none hs]
      rfl

end Writing

/-! ## Reading -/

/-- The reader takes the bytes, whatever comes behind them, and gives a value. -/
def Takes {α : Type} (read : Decode α) (bytes : List UInt8) (a : α) : Prop :=
  ∀ rest, read (bytes ++ rest) = .ok (a, rest)

/-- The reader takes the bytes of the fields and gives a value. -/
abbrev Reads {α : Type} (lists : SymbolLists) (read : Decode α) (fields : List Field) (a : α) : Prop :=
  Takes read (encode lists fields) a

section Takes

variable {α β : Type} {read : Decode α} {next : α → Decode β} {bytes bytes' : List UInt8} {a : α} {b : β}

theorem takes_pure (a : α) : Takes (pure a) [] a := fun _ => rfl

theorem Takes.bind (h : Takes read bytes a) (h' : Takes (next a) bytes' b) :
    Takes (read >>= next) (bytes ++ bytes') b := by
  intro rest
  show (read (bytes ++ bytes' ++ rest) >>= fun x => next x.1 x.2) = _
  rw [List.append_assoc, h]
  exact h' rest

/-- What is made of the value needs no more bytes. -/
theorem Takes.bind_pure (h : Takes read bytes a) (h' : Takes (next a) [] b) : Takes (read >>= next) bytes b := by
  have hboth := h.bind h'
  rwa [List.append_nil] at hboth

theorem unsigned_bmod (n : Int) : unsigned (Int.bmod n doubleWordLimit) = unsigned n := by
  unfold unsigned
  rw [Int.bmod_emod]

/-- An integer reads back as the number of thirty-two bits that it was written as. -/
theorem takes_int_bmod (n : Int) : Takes readInt (encodeInt n) (Int.bmod n doubleWordLimit) := by
  have hlow : -2147483648 ≤ Int.bmod n doubleWordLimit := Int.le_bmod (by decide)
  have hhigh : Int.bmod n doubleWordLimit < 2147483648 := Int.bmod_lt (by decide)
  obtain ⟨a, b, c, d, hencode, hdecode⟩ := decodeInt_encodeInt hlow hhigh
  have hbytes : encodeInt n = encodeInt (Int.bmod n doubleWordLimit) := by
    unfold encodeInt
    rw [unsigned_bmod]
  intro rest
  rw [hbytes, hencode]
  exact congrArg (fun m => Except.ok (m, rest)) hdecode

theorem takes_int {n : Int} (low : -2147483648 ≤ n) (high : n < 2147483648) : Takes readInt (encodeInt n) n := by
  have hn : Int.bmod n doubleWordLimit = n :=
    Int.bmod_eq_of_le (by unfold doubleWordLimit; omega) (by unfold doubleWordLimit; omega)
  have h := takes_int_bmod n
  rwa [hn] at h

theorem takes_length {n : Nat} (h : n < 2 ^ 31) : Takes readLength (encodeInt n) n := by
  refine (takes_int (by omega) (by omega)).bind_pure ?_
  rw [if_neg (by omega), Int.toNat_natCast]
  exact takes_pure n

theorem takes_bytes (bytes : List UInt8) : Takes (readBytes bytes.length) bytes bytes := by
  intro rest
  unfold readBytes
  rw [List.take_left, List.drop_left, if_neg (Nat.lt_irrefl _)]

theorem takes_text {s : String} (h : s.utf8ByteSize < 2 ^ 31) : Takes readText (Field.encodeText s) s := by
  have hsize : s.toUTF8.data.toList.length = s.utf8ByteSize := by simp
  have htext : String.fromUTF8? s.toUTF8.data.toList.toByteArray = some s := by
    have harray : s.toUTF8.data.toList.toByteArray = s.toUTF8 := ByteArray.ext (by simp)
    rw [harray]
    exact dif_pos s.isValidUTF8
  refine (takes_length h).bind ((hsize ▸ takes_bytes s.toUTF8.data.toList).bind_pure ?_)
  rw [htext]
  exact takes_pure s

/-- Several elements are read one after the other. -/
theorem takes_times {of : α → List UInt8} {items : List α} (h : ∀ x ∈ items, Takes read (of x) x) :
    Takes (times read items.length) (items.flatMap of) items := by
  induction items with
  | nil => exact takes_pure []
  | cons x items ih =>
    have hrest := ih fun y hy => h y (List.mem_cons_of_mem x hy)
    exact (h x List.mem_cons_self).bind (hrest.bind_pure (takes_pure _))

/-- **Entries for free slots** are entered one after the other, behind those that are there already. -/
theorem takes_timesInto {κ₁ κ₂ ν : Type} [DecidableEq κ₁] [DecidableEq κ₂]
    {read : Matrix κ₁ κ₂ ν → Decode (Matrix κ₁ κ₂ ν)} {of : (κ₁ × κ₂) × ν → List UInt8}
    {done entries : List ((κ₁ × κ₂) × ν)} (hnodup : ((done ++ entries).map Prod.fst).Nodup)
    (h : ∀ k₁ k₂ v, ((k₁, k₂), v) ∈ entries → ∀ table, table.get? k₁ k₂ = none →
      Takes (read table) (of ((k₁, k₂), v)) ⟨table.entries ++ [((k₁, k₂), v)]⟩) :
    Takes (timesInto read entries.length ⟨done⟩) (entries.flatMap of) ⟨done ++ entries⟩ := by
  induction entries generalizing done with
  | nil =>
    rw [List.append_nil]
    exact takes_pure _
  | cons entry entries ih =>
    obtain ⟨⟨k₁, k₂⟩, v⟩ := entry
    -- its slot is free, because no slot is listed twice
    have hfree : (⟨done⟩ : Matrix κ₁ κ₂ ν).get? k₁ k₂ = none := by
      rw [List.map_append, List.map_cons] at hnodup
      exact lookup_eq_none_iff_not_mem_keys.mpr fun hk =>
        (List.nodup_append.mp hnodup).2.2 (k₁, k₂) hk (k₁, k₂) List.mem_cons_self rfl
    have hsplit : done ++ ((k₁, k₂), v) :: entries = done ++ [((k₁, k₂), v)] ++ entries := List.append_cons _ _ _
    rw [hsplit] at hnodup ⊢
    exact (h k₁ k₂ v List.mem_cons_self ⟨done⟩ hfree).bind
      (ih hnodup fun k₁ k₂ v hmem => h k₁ k₂ v (List.mem_cons_of_mem _ hmem))

end Takes

/-! ## Fields -/

section Fields

variable {lists : SymbolLists} {fields fields' : List Field} {α β : Type} {read : Decode α} {next : α → Decode β}
  {a : α} {b : β}

theorem Reads.bind (h : Reads lists read fields a) (h' : Reads lists (next a) fields' b) :
    Reads lists (read >>= next) (fields ++ fields') b := by
  rw [Reads, encode_append]
  exact Takes.bind h h'

/-- The first field is read first. -/
theorem Reads.cons {field : Field} (h : Reads lists read [field] a) (h' : Reads lists (next a) fields b) :
    Reads lists (read >>= next) (field :: fields) b := h.bind h'

theorem reads_int_bmod (n : Int) : Reads lists readInt [.int n] (Int.bmod n doubleWordLimit) := by
  rw [Reads, encode_singleton]
  exact takes_int_bmod n

theorem reads_int {n : Int} (low : -2147483648 ≤ n) (high : n < 2147483648) : Reads lists readInt [.int n] n := by
  rw [Reads, encode_singleton]
  exact takes_int low high

theorem reads_text {s : String} (h : s.utf8ByteSize < 2 ^ 31) : Reads lists readText [.text s] s := by
  rw [Reads, encode_singleton]
  exact takes_text h

theorem encode_counted {of : α → List Field} {items : List α} : encode lists (Field.counted of items) =
    encodeInt items.length ++ items.flatMap fun x => encode lists (of x) := by
  unfold Field.counted encode
  rw [List.flatMap_cons, List.flatMap_assoc]
  rfl

/-- **Counted elements** are read by their number. -/
theorem reads_counted {of : α → List Field} {items : List α} (hlen : items.length < 2 ^ 31)
    (h : ∀ x ∈ items, Reads lists read (of x) x) :
    Reads lists (do times read (← readLength)) (Field.counted of items) items := by
  rw [Reads, encode_counted]
  exact (takes_length hlen).bind (takes_times h)

/-- **Counted entries** give back the table that they come from, if no slot is listed twice. -/
theorem reads_table {κ₁ κ₂ ν : Type} [DecidableEq κ₁] [DecidableEq κ₂] {m : Matrix κ₁ κ₂ ν}
    {read : Matrix κ₁ κ₂ ν → Decode (Matrix κ₁ κ₂ ν)} {of : κ₁ × κ₂ × ν → List Field} (hm : m.Proper)
    (hlen : m.size < 2 ^ 31)
    (h : ∀ k₁ k₂ v, (k₁, k₂, v) ∈ m.toList → ∀ table, table.get? k₁ k₂ = none →
      Reads lists (read table) (of (k₁, k₂, v)) ⟨table.entries ++ [((k₁, k₂), v)]⟩) :
    Reads lists (do timesInto read (← readLength) .empty) (Field.counted of m.toList) m := by
  rw [Reads, encode_counted]
  have hlength : m.toList.length = m.entries.length := List.length_map ..
  have hbytes : (m.toList.flatMap fun x => encode lists (of x)) =
      m.entries.flatMap fun x => encode lists (of (x.1.1, x.1.2, x.2)) := List.flatMap_map ..
  rw [hlength, hbytes]
  have hnodup : (([] ++ m.entries).map Prod.fst).Nodup := hm
  refine (takes_length hlen).bind (takes_timesInto hnodup fun k₁ k₂ v hmem => ?_)
  exact h k₁ k₂ v (List.mem_map.mpr ⟨_, hmem, rfl⟩)

end Fields

end Form

/-! ## What fits -/

/-- The lengths in an alternative can be written. -/
structure Alternative.Fits (a : Alternative) : Prop where
  symbols : a.symbols.length < 2 ^ 31
  action : ∀ text ∈ a.action, text.utf8ByteSize < 2 ^ 31

instance (a : Alternative) : Decidable a.Fits :=
  decidable_of_iff (a.symbols.length < 2 ^ 31 ∧ ∀ text ∈ a.action, text.utf8ByteSize < 2 ^ 31)
    ⟨fun ⟨hs, ha⟩ => ⟨hs, ha⟩, fun ⟨hs, ha⟩ => ⟨hs, ha⟩⟩

/-- The numbers and lengths in a grammar can be written. -/
structure Grammar.Fits (g : Grammar) : Prop where
  rules : g.rules.length < 2 ^ 31
  alternatives : ∀ r ∈ g.rules, r.alternatives.length < 2 ^ 31
  alternative : ∀ r ∈ g.rules, ∀ a ∈ r.alternatives, a.Fits

instance (g : Grammar) : Decidable g.Fits :=
  decidable_of_iff (g.rules.length < 2 ^ 31 ∧ (∀ r ∈ g.rules, r.alternatives.length < 2 ^ 31) ∧
      ∀ r ∈ g.rules, ∀ a ∈ r.alternatives, a.Fits)
    ⟨fun ⟨hr, hs, ha⟩ => ⟨hr, hs, ha⟩, fun ⟨hr, hs, ha⟩ => ⟨hr, hs, ha⟩⟩

/-- The symbols in the lists can be counted, and their names can be written. -/
structure Form.SymbolLists.Fits (l : Form.SymbolLists) : Prop where
  terminals : l.terminals.length < 2 ^ 31
  nonterminals : l.nonterminals.length < 2 ^ 31
  name : ∀ s ∈ l.terminals ++ l.nonterminals, s.name.utf8ByteSize < 2 ^ 31

instance (l : Form.SymbolLists) : Decidable l.Fits :=
  decidable_of_iff (l.terminals.length < 2 ^ 31 ∧ l.nonterminals.length < 2 ^ 31 ∧
      ∀ s ∈ l.terminals ++ l.nonterminals, s.name.utf8ByteSize < 2 ^ 31)
    ⟨fun ⟨ht, hn, hs⟩ => ⟨ht, hn, hs⟩, fun ⟨ht, hn, hs⟩ => ⟨ht, hn, hs⟩⟩

/-- What loading demands of a grammar: rules are for nonterminals, and no alternative is without symbols. -/
structure Grammar.Loadable (g : Grammar) : Prop where
  lhs : ∀ r ∈ g.rules, r.lhs.isNonterminal = true
  symbols : ∀ r ∈ g.rules, ∀ a ∈ r.alternatives, a.symbols ≠ []

namespace Form

/-! ## Grammars -/

section Grammars

variable {lists : SymbolLists} (hlists : lists.Fits)
include hlists

theorem reads_symbol {s : Symbol} (h : lists.Lists s) : Reads lists (readSymbol lists) [.symbol s] s := by
  obtain ⟨reference, hr, hs, hlow, hhigh⟩ := SymbolLists.exists_reference h
  have ht := hlists.terminals
  have hn := hlists.nonterminals
  rw [Reads, encode_singleton, Field.bytes, Field.write_symbol hr]
  refine (takes_int (by omega) (by omega)).bind_pure ?_
  rw [hs]
  exact takes_pure s

omit hlists in
theorem reads_action {action : Option String} : (∀ text ∈ action, text.utf8ByteSize < 2 ^ 31) →
    Reads lists readAction (match action with
      | some action => [.int 1, .text action]
      | none => [.int 0]) action := by
  intro h
  cases action with
  | none => exact Takes.bind_pure (reads_int (by decide) (by decide)) (takes_pure none)
  | some text =>
    exact (reads_int (n := 1) (by decide) (by decide)).bind (Takes.bind_pure (reads_text (h text rfl)) (takes_pure _))

theorem reads_alternative {a : Alternative} (ha : a.Fits) (hne : a.symbols ≠ [])
    (hs : ∀ s ∈ a.symbols, lists.Lists s) : Reads lists (readAlternative lists) (Field.ofAlternative a) a := by
  have hsymbols : Reads lists (do times (readSymbol lists) (← readLength))
      (Field.counted (fun s => [.symbol s]) a.symbols) a.symbols := reads_counted ha.symbols fun s hmem => reads_symbol hlists (hs s hmem)
  unfold readAlternative Field.ofAlternative
  rw [← bind_assoc]
  refine hsymbols.bind ?_
  rw [if_neg (by simpa using hne)]
  exact Takes.bind_pure (reads_action ha.action) (takes_pure _)

theorem reads_rule {r : Rule} (hr : r.lhs.isNonterminal = true) (hlhs : lists.Lists r.lhs)
    (hlen : r.alternatives.length < 2 ^ 31)
    (h : ∀ a ∈ r.alternatives, a.Fits ∧ a.symbols ≠ [] ∧ ∀ s ∈ a.symbols, lists.Lists s) :
    Reads lists (readRule lists) (Field.ofRule r) r := by
  have halternatives : Reads lists (do times (readAlternative lists) (← readLength))
      (Field.counted Field.ofAlternative r.alternatives) r.alternatives :=
    reads_counted hlen fun a ha => reads_alternative hlists (h a ha).1 (h a ha).2.1 (h a ha).2.2
  have hterminal := Symbol.not_isTerminal hr
  refine (reads_symbol hlists hlhs).cons ?_
  rw [if_neg hterminal, ← bind_assoc]
  exact Takes.bind_pure halternatives (takes_pure _)

/-- **Grammars** are read as they were written. -/
theorem reads_grammar {g : Grammar} (hg : g.Loadable) (hfits : g.Fits) (hlhs : ∀ r ∈ g.rules, lists.Lists r.lhs)
    (hs : ∀ r ∈ g.rules, ∀ a ∈ r.alternatives, ∀ s ∈ a.symbols, lists.Lists s) :
    Reads lists (readGrammar lists) (Field.counted Field.ofRule g.rules) g := by
  have hrules : Reads lists (do times (readRule lists) (← readLength)) (Field.counted Field.ofRule g.rules) g.rules :=
    reads_counted hfits.rules fun r hr => reads_rule hlists (hg.lhs r hr) (hlhs r hr) (hfits.alternatives r hr)
      fun a ha => ⟨hfits.alternative r hr a ha, hg.symbols r hr a ha, hs r hr a ha⟩
  unfold readGrammar
  rw [← bind_assoc]
  exact Takes.bind_pure hrules (takes_pure _)

end Grammars

/-! ## Tables -/

section Tables

variable {lists : SymbolLists} {g : Grammar} {stateCount : Nat}

theorem takes_checkAlternative {id : AlternativeId} (h : g.hasAlternative id = true) :
    Takes (checkAlternative g (Int.bmod id.toRaw doubleWordLimit)) [] id := by
  have hraw : unsigned (Int.bmod id.toRaw doubleWordLimit) = id.toRaw := by
    have hrule := id.rule.toNat_lt
    have hindex := id.index.toNat_lt
    rw [unsigned_bmod]
    unfold unsigned AlternativeId.toRaw wordLimit doubleWordLimit
    omega
  unfold checkAlternative
  rw [hraw, AlternativeId.ofRaw_toRaw, if_pos h]
  exact takes_pure id

theorem takes_checkState {q : LR.StateId} (h : q.number.toNat < stateCount) :
    Takes (checkState stateCount q.number.toNat) [] q := by
  have hq := q.number.toNat_lt
  have hnumber : (⟨(q.number.toNat : Int).toNat.toUInt16⟩ : LR.StateId) = q := by
    rw [Int.toNat_natCast, Nat.toUInt16_eq, UInt16.ofNat_toNat]
  unfold checkState
  rw [if_pos ⟨by omega, by unfold wordLimit; omega, by omega⟩, hnumber]
  exact takes_pure q

theorem takes_insertInto {κ₁ κ₂ ν : Type} [DecidableEq κ₁] [DecidableEq κ₂] {m : Matrix κ₁ κ₂ ν} {k₁ : κ₁} {k₂ : κ₂}
    (h : m.get? k₁ k₂ = none) (v : ν) (duplicate : Corruption) :
    Takes (insertInto m k₁ k₂ v duplicate) [] ⟨m.entries ++ [((k₁, k₂), v)]⟩ := by
  unfold insertInto Matrix.insert
  rw [h]
  exact takes_pure _

end Tables

end Form

/-! ## Parsers -/

/-- What loading demands of an action. -/
def LR.TableAction.Loadable (g : Grammar) (stateCount : Nat) : LR.TableAction → Prop
  | .shift q => q.number.toNat < stateCount
  | .reduce id => g.hasAlternative id = true
  | .accept => True

/-- What loading demands of an LL(1) parser: its table is about listed symbols and alternatives of the grammar. -/
structure LL.Parser.Loadable (p : LL.Parser) : Prop where
  grammar : p.grammar.Loadable
  proper : p.entries.Proper
  symbols : ∀ lhs t id, (lhs, t, id) ∈ p.entries.toList →
    (Form.SymbolLists.ofGrammar p.grammar).Lists lhs ∧ (Form.SymbolLists.ofGrammar p.grammar).Lists t
  alternative : ∀ lhs t id, (lhs, t, id) ∈ p.entries.toList → p.grammar.hasAlternative id = true

/-- What loading demands of a shift/reduce table: it is about its states, listed symbols and alternatives of the
grammar. -/
structure LR.Table.Loadable (t : LR.Table) : Prop where
  grammar : t.grammar.Loadable
  properActions : t.actions.Proper
  properGotos : t.gotos.Proper
  action : ∀ q s act, (q, s, act) ∈ t.actions.toList → q.number.toNat < t.stateCount ∧
    (Form.SymbolLists.ofGrammar t.grammar).Lists s ∧ act.Loadable t.grammar t.stateCount
  goto : ∀ q s r, (q, s, r) ∈ t.gotos.toList → q.number.toNat < t.stateCount ∧
    (Form.SymbolLists.ofGrammar t.grammar).Lists s ∧ r.number.toNat < t.stateCount

namespace Form

section Parsers

variable {lists : SymbolLists} (hlists : lists.Fits) {g : Grammar} {stateCount : Nat}
include hlists

theorem reads_entry {lhs t : Symbol} {id : AlternativeId} (hlhs : lists.Lists lhs) (ht : lists.Lists t)
    (hid : g.hasAlternative id = true) {table : LL.Table} (hfree : table.get? lhs t = none) :
    Reads lists (readEntry lists g table) (Field.ofEntry (lhs, t, id)) ⟨table.entries ++ [((lhs, t), id)]⟩ := by
  have hnumber : Reads lists (do checkAlternative g (← readInt)) [.int id.toRaw] id :=
    Takes.bind_pure (reads_int_bmod _) (takes_checkAlternative hid)
  unfold readEntry
  refine (reads_symbol hlists hlhs).cons ((reads_symbol hlists ht).cons ?_)
  rw [← bind_assoc]
  exact Takes.bind_pure hnumber (takes_insertInto hfree id _)

omit hlists in
/-- An action is read from its tag and its value. -/
theorem reads_tableAction {act : LR.TableAction} (h : act.Loadable g stateCount) :
    Reads lists (do toAction g stateCount (← readInt) (← readInt)) (Field.ofAction act) act := by
  unfold toAction
  cases act with
  | shift q =>
    have hq := q.number.toNat_lt
    refine (reads_int (n := tagShift) (by decide) (by decide)).cons
      (Takes.bind_pure (reads_int (by omega) (by omega)) ?_)
    rw [if_pos rfl]
    exact Takes.bind_pure (takes_checkState h) (takes_pure _)
  | reduce id =>
    refine (reads_int (n := tagReduce) (by decide) (by decide)).cons (Takes.bind_pure (reads_int_bmod _) ?_)
    rw [if_neg (by decide), if_pos rfl]
    exact Takes.bind_pure (takes_checkAlternative h) (takes_pure _)
  | accept =>
    refine (reads_int (n := tagAccept) (by decide) (by decide)).cons
      (Takes.bind_pure (reads_int (by decide) (by decide)) ?_)
    rw [if_neg (by decide), if_neg (by decide), if_pos rfl]
    exact takes_pure _

omit hlists in
theorem reads_state {q : LR.StateId} (h : q.number.toNat < stateCount) :
    Reads lists (do checkState stateCount (← readInt)) [.int q.number.toNat] q := by
  have hq := q.number.toNat_lt
  exact Takes.bind_pure (reads_int (by omega) (by omega)) (takes_checkState h)

theorem reads_actionEntry {q : LR.StateId} {s : Symbol} {act : LR.TableAction} (hq : q.number.toNat < stateCount)
    (hs : lists.Lists s) (hact : act.Loadable g stateCount) {table : LR.Actions} (hfree : table.get? q s = none) :
    Reads lists (readActionEntry lists g stateCount table) (Field.ofActionEntry (q, s, act))
      ⟨table.entries ++ [((q, s), act)]⟩ := by
  unfold readActionEntry
  rw [← bind_assoc]
  refine (reads_state hq).cons ((reads_symbol hlists hs).cons ?_)
  have haction : Reads lists _ (Field.ofAction act) act := reads_tableAction hact
  have hentry : Reads lists (_ >>= fun act => insertInto table q s act .duplicateAction) (Field.ofAction act) _ :=
    Takes.bind_pure haction (takes_insertInto hfree act _)
  simpa only [bind_assoc] using hentry

theorem reads_gotoEntry {q r : LR.StateId} {s : Symbol} (hq : q.number.toNat < stateCount) (hs : lists.Lists s)
    (hr : r.number.toNat < stateCount) {table : LR.Gotos} (hfree : table.get? q s = none) :
    Reads lists (readGotoEntry lists stateCount table) (Field.ofGotoEntry (q, s, r))
      ⟨table.entries ++ [((q, s), r)]⟩ := by
  unfold readGotoEntry
  rw [← bind_assoc]
  refine (reads_state hq).cons ((reads_symbol hlists hs).cons ?_)
  rw [← bind_assoc]
  exact Takes.bind_pure (reads_state hr) (takes_insertInto hfree r _)

end Parsers

/-! ### The front -/

theorem reads_kind {kind : Int} (h : kind = kindLL ∨ kind = kindLR) {lists : SymbolLists} :
    Reads lists readKind [.int magic, .int kind] kind := by
  unfold readKind
  refine (reads_int (n := magic) (by decide) (by decide)).cons ?_
  rw [if_neg (by simp)]
  have hkind : -2147483648 ≤ kind ∧ kind < 2147483648 := by
    rcases h with rfl | rfl <;> decide
  refine Takes.bind_pure (reads_int hkind.1 hkind.2) ?_
  rw [if_neg (by tauto)]
  exact takes_pure kind

/-- Reading names gives the symbols that it asks for. -/
theorem result_readNames (kind : SymbolKind) (n : Nat) (bytes : List UInt8) : (readNames kind n bytes).result =
    times (do return Symbol.ofKind kind (← readText)) n bytes := by
  induction n generalizing bytes with
  | zero => rfl
  | succ n ih =>
    unfold readNames
    rw [Trail.result_bind]
    show (readText bytes >>= fun x => _) = (readText bytes >>= fun x => pure (Symbol.ofKind kind x.1, x.2)) >>= fun x =>
      times (do return Symbol.ofKind kind (← readText)) n x.2 >>= fun y => pure (x.1 :: y.1, y.2)
    cases readText bytes with
    | error e => rfl
    | ok x =>
      obtain ⟨name, behind⟩ := x
      show ((Reported.intern (Symbol.ofKind kind name) : Reported FormError Unit) >>= fun _ => _).result = _
      rw [Trail.result_bind]
      show ((readNames kind n behind) >>= fun y => _).result = _
      rw [Trail.result_bind, ih]
      rfl

/-- Read the symbols of a kind by their names. -/
def readListed (kind : SymbolKind) : Decode (List Symbol) := do
  times (do return Symbol.ofKind kind (← readText)) (← readLength)

theorem result_readSymbols (kind : SymbolKind) (bytes : List UInt8) :
    (readSymbols kind bytes).result = readListed kind bytes := by
  unfold readSymbols
  rw [Trail.result_bind]
  show (readLength bytes >>= fun x => (readNames kind x.1 x.2).result) = readLength bytes >>= fun x => times _ x.1 x.2
  simp only [result_readNames]

theorem reads_listed {lists : SymbolLists} {kind : SymbolKind} {symbols : List Symbol} (hlen : symbols.length < 2 ^ 31)
    (h : ∀ s ∈ symbols, s.kind = kind ∧ s.name.utf8ByteSize < 2 ^ 31) :
    Reads lists (readListed kind) (Field.counted (fun s => [.text s.name]) symbols) symbols := by
  refine reads_counted hlen fun s hs => ?_
  obtain ⟨rfl, hname⟩ := h s hs
  refine Takes.bind_pure (reads_text hname) ?_
  rw [Symbol.ofKind_kind_name]
  exact takes_pure s

/-- Read a parser, apart from the symbols that loading asks for. -/
def readParser : Decode CompiledParser := do
  let kind ← readKind
  let terminals ← readListed .terminal
  let nonterminals ← readListed .nonterminal
  readBody kind ⟨terminals, nonterminals⟩

/-- Loading is reading. -/
theorem result_load (bytes : List UInt8) : (CompiledParser.load bytes).result = (readParser bytes).map Prod.fst := by
  unfold CompiledParser.load readParser
  simp only [Trail.result_bind, Trail.result_lift, result_readSymbols, Trail.result_pure]
  show _ = Prod.fst <$> (readKind bytes >>= fun x => readListed .terminal x.2 >>= fun y =>
    readListed .nonterminal y.2 >>= fun z => readBody x.1 ⟨y.1, z.1⟩ z.2)
  simp only [map_eq_pure_bind, bind_assoc]

end Form

/-! ### The whole -/

namespace CompiledParser

/-- What loading demands of a parser. -/
def Loadable : CompiledParser → Prop
  | .ll p => p.Loadable
  | .lr t => t.Loadable

/-- The entries of the tables can be counted, and the states. -/
def TableFits : CompiledParser → Prop
  | .ll p => p.entries.size < 2 ^ 31
  | .lr t => t.stateCount < 2 ^ 31 ∧ t.actions.size < 2 ^ 31 ∧ t.gotos.size < 2 ^ 31

instance : (p : CompiledParser) → Decidable p.TableFits
  | .ll p => inferInstanceAs (Decidable (p.entries.size < 2 ^ 31))
  | .lr t => inferInstanceAs (Decidable (t.stateCount < 2 ^ 31 ∧ t.actions.size < 2 ^ 31 ∧ t.gotos.size < 2 ^ 31))

/-- All counts and lengths in a parser can be written. -/
structure Fits (p : CompiledParser) : Prop where
  lists : (Form.SymbolLists.ofGrammar p.grammar).Fits
  grammar : p.grammar.Fits
  table : p.TableFits

instance (p : CompiledParser) : Decidable p.Fits :=
  decidable_of_iff ((Form.SymbolLists.ofGrammar p.grammar).Fits ∧ p.grammar.Fits ∧ p.TableFits)
    ⟨fun ⟨hl, hg, ht⟩ => ⟨hl, hg, ht⟩, fun ⟨hl, hg, ht⟩ => ⟨hl, hg, ht⟩⟩

/-- The parser that is left of another one when it is loaded: its grammar and its table. -/
def reloaded : CompiledParser → CompiledParser
  | .ll p => .ll (.ofTable p.grammar p.entries)
  | .lr t => .lr (.ofEntries t.grammar t.actions t.gotos t.stateCount)

/-- The symbols that the table is about. -/
def tableSymbols : CompiledParser → List Symbol
  | .ll p => p.entries.toList.flatMap fun (lhs, t, _) => [lhs, t]
  | .lr t => (t.actions.toList.map fun (_, s, _) => s) ++ t.gotos.toList.map fun (_, s, _) => s

/-- The symbols that the table is about occur in the grammar; the end marker need not. -/
def Covered (p : CompiledParser) : Prop :=
  ∀ s ∈ p.tableSymbols, s = Symbol.endMarker ∨ s ∈ p.grammar.terminals ∨ s ∈ p.grammar.nonterminals

instance (p : CompiledParser) : Decidable p.Covered := List.decidableBAll _ _

/-- **Saving forgets nothing that loading gives back.** -/
theorem save_reloaded (p : CompiledParser) : p.reloaded.save = p.save := by cases p <;> rfl

end CompiledParser

namespace Form

section Whole

variable {p : CompiledParser}

theorem mem_terminals_ofGrammar {g : Grammar} {s : Symbol} :
    s ∈ (SymbolLists.ofGrammar g).terminals ↔ s = Symbol.endMarker ∨ s ∈ g.terminals := by
  rw [SymbolLists.ofGrammar, mem_insertSymbols, List.mem_singleton]

theorem lists_ofGrammar_iff {g : Grammar} {s : Symbol} :
    (SymbolLists.ofGrammar g).Lists s ↔ s = Symbol.endMarker ∨ s ∈ g.terminals ∨ s ∈ g.nonterminals := by
  unfold SymbolLists.Lists
  rw [mem_terminals_ofGrammar, or_assoc]
  rfl

theorem kind_of_mem_terminals {g : Grammar} {s : Symbol} (h : s ∈ (SymbolLists.ofGrammar g).terminals) :
    s.kind = .terminal := by
  rcases mem_terminals_ofGrammar.mp h with rfl | h
  · rfl
  · have hs := (Grammar.mem_terminals.mp h).1
    cases s with
    | terminal name => rfl
    | nonterminal name => cases hs

theorem kind_of_mem_nonterminals {g : Grammar} (hg : g.Loadable) {s : Symbol}
    (h : s ∈ (SymbolLists.ofGrammar g).nonterminals) : s.kind = .nonterminal := by
  have hs : s.isNonterminal = true := by
    rcases Grammar.mem_nonterminals.mp h with h | ⟨hs, _⟩
    · obtain ⟨r, hr, rfl⟩ := List.mem_map.mp h
      exact hg.lhs r hr
    · exact hs
  cases s with
  | terminal name => cases hs
  | nonterminal name => rfl

/-- The symbols of a grammar are listed. -/
theorem lists_of_produces {g : Grammar} {lhs : Symbol} {a : Alternative} (h : g.Produces lhs a) {s : Symbol}
    (hs : s ∈ a.symbols) : (SymbolLists.ofGrammar g).Lists s := by
  cases ht : s.isTerminal with
  | true => exact .inl (mem_terminals_ofGrammar.mpr (.inr (Grammar.mem_terminals.mpr ⟨ht, lhs, a, h, hs⟩)))
  | false =>
    have hn := Symbol.isTerminal_eq_false_iff.mp ht
    exact .inr (Grammar.mem_nonterminals.mpr (.inr ⟨hn, lhs, a, h, hs⟩))

theorem lists_lhs {g : Grammar} {r : Rule} (h : r ∈ g.rules) : (SymbolLists.ofGrammar g).Lists r.lhs :=
  .inr (Grammar.mem_nonterminals.mpr (.inl (List.mem_map_of_mem h)))

theorem reads_ll {p : LL.Parser} (hload : p.Loadable) (hfits : (CompiledParser.ll p).Fits) :
    Reads (.ofGrammar p.grammar) (readLL (.ofGrammar p.grammar) p.grammar) (Field.ofTable (.ll p))
      (CompiledParser.ll p).reloaded := by
  have htable : Reads (.ofGrammar p.grammar)
      (do timesInto (readEntry (.ofGrammar p.grammar) p.grammar) (← readLength) .empty)
      (Field.counted Field.ofEntry p.entries.toList) p.entries :=
    reads_table hload.proper hfits.table
      fun lhs t id hmem table hfree => reads_entry hfits.lists (hload.symbols lhs t id hmem).1
        (hload.symbols lhs t id hmem).2 (hload.alternative lhs t id hmem) hfree
  unfold readLL
  rw [← bind_assoc]
  exact Takes.bind_pure htable (takes_pure _)

theorem reads_lr {t : LR.Table} (hload : t.Loadable) (hfits : (CompiledParser.lr t).Fits) :
    Reads (.ofGrammar t.grammar) (readLR (.ofGrammar t.grammar) t.grammar) (Field.ofTable (.lr t))
      (CompiledParser.lr t).reloaded := by
  obtain ⟨hstates, hactions, hgotos⟩ := hfits.table
  have hactionTable : Reads (.ofGrammar t.grammar)
      (do timesInto (readActionEntry (.ofGrammar t.grammar) t.grammar t.stateCount) (← readLength) .empty)
      (Field.counted Field.ofActionEntry t.actions.toList) t.actions :=
    reads_table hload.properActions hactions
      fun q s act hmem table hfree =>
        let ⟨hq, hs, hact⟩ := hload.action q s act hmem
        reads_actionEntry hfits.lists hq hs hact hfree
  have hgotoTable : Reads (.ofGrammar t.grammar)
      (do timesInto (readGotoEntry (.ofGrammar t.grammar) t.stateCount) (← readLength) .empty)
      (Field.counted Field.ofGotoEntry t.gotos.toList) t.gotos :=
    reads_table hload.properGotos hgotos
      fun q s r hmem table hfree =>
        let ⟨hq, hs, hr⟩ := hload.goto q s r hmem
        reads_gotoEntry hfits.lists hq hs hr hfree
  have hcount : Reads (.ofGrammar t.grammar) readLength [.int t.stateCount] t.stateCount := by
    rw [Reads, encode_singleton]
    exact takes_length hstates
  unfold readLR
  refine hcount.cons ?_
  rw [← bind_assoc]
  refine hactionTable.bind ?_
  rw [← bind_assoc]
  exact Takes.bind_pure hgotoTable (takes_pure _)

/-- **Parsers are read as they were written**, but for what is not written. -/
theorem reads_whole (hload : p.Loadable) (hfits : p.Fits) :
    Reads (.ofGrammar p.grammar) readParser (Field.ofParser p) p.reloaded := by
  have hgrammar : p.grammar.Loadable := by
    cases p with
    | ll p => exact hload.grammar
    | lr t => exact hload.grammar
  have hkind : Reads (.ofGrammar p.grammar) readKind [.int magic, .int (Field.kindOf p)] (Field.kindOf p) := by
    refine reads_kind ?_
    cases p with
    | ll p => exact .inl rfl
    | lr t => exact .inr rfl
  have hterminals : Reads (.ofGrammar p.grammar) (readListed .terminal) _ (SymbolLists.ofGrammar p.grammar).terminals :=
    reads_listed hfits.lists.terminals fun s hs =>
      ⟨kind_of_mem_terminals hs, hfits.lists.name s (List.mem_append_left _ hs)⟩
  have hnonterminals : Reads (.ofGrammar p.grammar) (readListed .nonterminal) _
      (SymbolLists.ofGrammar p.grammar).nonterminals :=
    reads_listed hfits.lists.nonterminals fun s hs =>
      ⟨kind_of_mem_nonterminals hgrammar hs, hfits.lists.name s (List.mem_append_right _ hs)⟩
  have hrules := reads_grammar hfits.lists hgrammar hfits.grammar (fun r hr => lists_lhs hr)
    fun r hr a ha s hs => lists_of_produces ⟨r, hr, rfl, ha⟩ hs
  have htable : Reads (.ofGrammar p.grammar) (if Field.kindOf p = kindLL then readLL (.ofGrammar p.grammar) p.grammar
      else readLR (.ofGrammar p.grammar) p.grammar) (Field.ofTable p) p.reloaded := by
    cases p with
    | ll p => exact reads_ll hload hfits
    | lr t => exact reads_lr hload hfits
  have hfields : Field.ofParser p = [.int magic, .int (Field.kindOf p)] ++
      (Field.counted (fun s => [.text s.name]) (SymbolLists.ofGrammar p.grammar).terminals ++
        (Field.counted (fun s => [.text s.name]) (SymbolLists.ofGrammar p.grammar).nonterminals ++
          (Field.counted Field.ofRule p.grammar.rules ++ Field.ofTable p))) := by
    unfold Field.ofParser
    simp only [List.append_assoc]
  rw [hfields]
  exact hkind.bind (hterminals.bind (hnonterminals.bind (hrules.bind htable)))

theorem listed_ofAlternative {lists : SymbolLists} {a : Alternative} (h : ∀ s ∈ a.symbols, lists.Lists s) :
    Listed lists (Field.ofAlternative a) := by
  refine Listed.append (.counted fun s hs u hu => ?_) fun s hs => ?_
  · cases List.mem_singleton.mp hu
    exact h s hs
  · cases ha : a.action <;> simp [ha] at hs

/-- The fields of a table are about its symbols. -/
theorem mem_ofTable_iff {s : Symbol} : Field.symbol s ∈ Field.ofTable p ↔ s ∈ p.tableSymbols := by
  cases p with
  | ll p => simp [Field.ofTable, Field.counted, Field.ofEntry, CompiledParser.tableSymbols]
  | lr t =>
    have haction : ∀ x, Field.symbol s ∈ Field.ofActionEntry x ↔ x.2.1 = s := by
      rintro ⟨q, u, act⟩
      cases act <;> simp [Field.ofActionEntry, Field.ofAction, eq_comm]
    have hgoto : ∀ x, Field.symbol s ∈ Field.ofGotoEntry x ↔ x.2.1 = s := by
      rintro ⟨q, u, r⟩
      simp [Field.ofGotoEntry, eq_comm]
    simp only [Field.ofTable, Field.counted, CompiledParser.tableSymbols, List.mem_cons, List.mem_append,
      List.mem_flatMap, List.mem_map, haction, hgoto, reduceCtorEq, false_or]

/-- The fields of a parser are about symbols of its grammar and of its table. -/
theorem lists_or_mem_tableSymbols {s : Symbol} (h : Field.symbol s ∈ Field.ofParser p) :
    (SymbolLists.ofGrammar p.grammar).Lists s ∨ s ∈ p.tableSymbols := by
  have hname : ∀ symbols : List Symbol,
      Listed (.ofGrammar p.grammar) (Field.counted (fun s => [.text s.name]) symbols) :=
    fun symbols => .counted fun x _ s hs => by cases List.mem_singleton.mp hs
  have hrules : Listed (.ofGrammar p.grammar) (Field.counted Field.ofRule p.grammar.rules) := by
    refine .counted fun r hr s hs => ?_
    rcases List.mem_cons.mp hs with hs | hs
    · cases hs
      exact lists_lhs hr
    · exact Listed.counted (fun a ha => listed_ofAlternative fun s hs => lists_of_produces ⟨r, hr, rfl, ha⟩ hs) s hs
  have hfront : Listed (.ofGrammar p.grammar) [.int magic, .int (Field.kindOf p)] := by
    intro s hs
    simp at hs
  rcases List.mem_append.mp h with h | h
  · exact .inl ((((hfront.append (hname _)).append (hname _)).append hrules) s h)
  · exact .inr (mem_ofTable_iff.mp h)

/-- All symbols of a parser are listed as soon as those of its table are. -/
theorem listed_ofParser_iff : Listed (.ofGrammar p.grammar) (Field.ofParser p) ↔ p.Covered := by
  constructor
  · intro h s hs
    exact lists_ofGrammar_iff.mp (h s (List.mem_append_right _ (mem_ofTable_iff.mpr hs)))
  · intro h s hs
    exact (lists_or_mem_tableSymbols hs).elim id fun hs => lists_ofGrammar_iff.mpr (h s hs)

end Whole

end Form

namespace CompiledParser

variable {p : CompiledParser}

theorem Loadable.covered (hload : p.Loadable) : p.Covered := by
  intro s hs
  refine Form.lists_ofGrammar_iff.mp ?_
  cases p with
  | ll p =>
    obtain ⟨⟨lhs, t, id⟩, hmem, hs⟩ := List.mem_flatMap.mp hs
    obtain ⟨hlhs, ht⟩ := hload.symbols lhs t id hmem
    rcases List.mem_pair.mp hs with rfl | rfl
    · exact hlhs
    · exact ht
  | lr t =>
    rcases List.mem_append.mp hs with hs | hs
    · obtain ⟨⟨q, u, act⟩, hmem, rfl⟩ := List.mem_map.mp hs
      exact (hload.action q u act hmem).2.1
    · obtain ⟨⟨q, u, r⟩, hmem, rfl⟩ := List.mem_map.mp hs
      exact (hload.goto q u r hmem).2.1

/-- **A parser whose table is about symbols of its grammar can be saved.** -/
theorem save_eq (h : p.Covered) :
    p.save = Trail.putAll (Form.encode (.ofGrammar p.grammar) (Form.Field.ofParser p)) :=
  Form.all_write (Form.listed_ofParser_iff.mpr h)

/-- **Loading gives back what was saved**, whatever stands behind it. -/
theorem result_load_save (hload : p.Loadable) (hfits : p.Fits) (rest : List UInt8) :
    (load (p.save.emitted ++ rest)).result = .ok p.reloaded := by
  rw [save_eq hload.covered, Form.result_load]
  exact congrArg (Except.map Prod.fst) (Form.reads_whole hload hfits rest)

end CompiledParser
end TableParser
