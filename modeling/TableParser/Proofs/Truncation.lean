import TableParser.Proofs.RoundTrip

/-!
# Saved parsers delimit themselves

A saved parser says how long it is, piece by piece, by the numbers in front of its lists and texts. A reader either runs out of
bytes or never looks behind those that it takes (`Form.Forward`), and readers that run one after the other do so too.

* **Cut short** (`Form.Forward.error_of_cut`): a reader that takes certain bytes runs out on any part of their front.
* **Whole parsers** (`CompiledParser.load_of_cut_or_extended`): loading refuses every part of the front of a saved parser
  as cut short, and is not misled by what stands behind it.
-/

namespace TableParser

/-- The bytes ended too early, inside an integer or inside a text. -/
def FormError.CutShort (e : FormError) : Prop := e = .transfer .integerCutShort ∨ e = .transfer .textCutShort

namespace Form

/-- Whatever the bytes are, the reader runs out of them, or does the same with more bytes behind them. -/
def Forward {α : Type} (read : Decode α) : Prop :=
  ∀ bytes, (∃ e, read bytes = .error e ∧ e.CutShort) ∨
    ∀ more, read (bytes ++ more) = (read bytes).map fun x => (x.1, x.2 ++ more)

section Forward

variable {α β : Type} {read : Decode α} {next : α → Decode β}

theorem forward_pure (a : α) : Forward (pure a) := fun _ => .inr fun _ => rfl

theorem forward_throw (e : FormError) : Forward (throw e : Decode α) := fun _ => .inr fun _ => rfl

theorem forward_corrupted (what : Corruption) : Forward (corrupted what : Decode α) := forward_throw _

/-- What runs second goes on with the bytes that the first reader leaves. -/
theorem Forward.bind (h : Forward read) (h' : ∀ a, Forward (next a)) : Forward (read >>= next) := by
  intro bytes
  have hrun : ∀ bytes, (read >>= next) bytes = read bytes >>= fun x => next x.1 x.2 := fun _ => rfl
  simp only [hrun]
  rcases h bytes with ⟨e, hread, he⟩ | hmore
  · rw [hread]
    exact .inl ⟨e, rfl, he⟩
  · cases hread : read bytes with
    | error e =>
      refine .inr fun more => ?_
      rw [hmore, hread]
      rfl
    | ok x =>
      rcases h' x.1 x.2 with ⟨e, hnext, he⟩ | hnext
      · exact .inl ⟨e, hnext, he⟩
      · refine .inr fun more => ?_
        rw [hmore, hread]
        exact hnext more

theorem forward_ite {c : Prop} [Decidable c] {read read' : Decode α} (h : Forward read) (h' : Forward read') :
    Forward (if c then read else read') := by
  split
  · exact h
  · exact h'

theorem forward_times (h : Forward read) (n : Nat) : Forward (times read n) := by
  induction n with
  | zero => exact forward_pure []
  | succ n ih => exact h.bind fun _ => ih.bind fun _ => forward_pure _

theorem forward_timesInto {read : α → Decode α} (h : ∀ a, Forward (read a)) (n : Nat) (a : α) :
    Forward (timesInto read n a) := by
  induction n generalizing a with
  | zero => exact forward_pure a
  | succ n ih => exact (h a).bind ih

/-- **A reader runs out on every part of the front** of bytes that it takes, but for the whole of them. -/
theorem Forward.error_of_cut {bytes short : List UInt8} {a : α} (h : Forward read) (htakes : Takes read bytes a)
    (hshort : short <+: bytes) (hne : short ≠ bytes) : ∃ e, read short = .error e ∧ e.CutShort := by
  obtain ⟨missing, rfl⟩ := hshort
  refine (h short).resolve_right fun hmore => hne ?_
  have hwhole := htakes []
  rw [List.append_nil, hmore missing] at hwhole
  obtain ⟨⟨b, rest⟩, _, heq⟩ := map_eq_ok_iff.mp hwhole
  -- nothing is left behind the whole, so nothing was missing
  have hmissing := (List.append_eq_nil_iff.mp (congrArg Prod.snd heq)).2
  rw [hmissing, List.append_nil]

end Forward

/-! ## Primitives -/

theorem forward_readInt : Forward readInt := by
  intro bytes
  match bytes with
  | a :: b :: c :: d :: rest =>
    have hread : ∀ rest, readInt (a :: b :: c :: d :: rest) = .ok (decodeInt a b c d, rest) := fun _ => rfl
    refine .inr fun more => ?_
    simp only [List.cons_append, hread, Except.map]
  | [] | [_] | [_, _] | [_, _, _] => exact .inl ⟨_, rfl, .inl rfl⟩

theorem forward_readLength : Forward readLength :=
  forward_readInt.bind fun _ => forward_ite (forward_corrupted _) (forward_pure _)

theorem forward_readBytes (n : Nat) : Forward (readBytes n) := by
  intro bytes
  unfold readBytes
  by_cases hshort : (bytes.take n).length < n
  · rw [if_pos hshort]
    exact .inl ⟨_, rfl, .inr rfl⟩
  · refine .inr fun more => ?_
    have hlen : n ≤ bytes.length := by
      rw [List.length_take] at hshort
      omega
    rw [List.take_append_of_le_length hlen, List.drop_append_of_le_length hlen, if_neg hshort, if_neg hshort]
    rfl

theorem forward_readText : Forward readText := by
  refine forward_readLength.bind fun n => (forward_readBytes n).bind fun bytes => ?_
  split
  · exact forward_pure _
  · exact forward_corrupted _

/-- Counted elements. -/
theorem Forward.counted {α : Type} {read : Decode α} (h : Forward read) :
    Forward (do times read (← readLength)) :=
  forward_readLength.bind fun n => forward_times h n

/-- Counted entries of a table. -/
theorem forward_table {α : Type} {read : α → Decode α} (h : ∀ table, Forward (read table)) (table : α) :
    Forward (do timesInto read (← readLength) table) :=
  forward_readLength.bind fun n => forward_timesInto h n table

/-! ## Parts of a parser -/

section Parts

variable (lists : SymbolLists) (g : Grammar) (stateCount : Nat)

theorem forward_readSymbol : Forward (readSymbol lists) := by
  refine forward_readInt.bind fun reference => ?_
  split
  · exact forward_pure _
  · exact forward_throw _

theorem forward_checkAlternative (raw : Int) : Forward (checkAlternative g raw) :=
  forward_ite (forward_pure _) (forward_corrupted _)

theorem forward_checkState (raw : Int) : Forward (checkState stateCount raw) :=
  forward_ite (forward_pure _) (forward_throw _)

theorem forward_readAction : Forward readAction :=
  forward_readInt.bind fun _ => forward_ite (forward_pure _) (forward_readText.bind fun _ => forward_pure _)

theorem forward_readAlternative : Forward (readAlternative lists) := by
  unfold readAlternative
  rw [← bind_assoc]
  refine (forward_readSymbol lists).counted.bind fun symbols => ?_
  exact forward_ite (forward_corrupted _) (forward_readAction.bind fun _ => forward_pure _)

theorem forward_readRule : Forward (readRule lists) := by
  refine (forward_readSymbol lists).bind fun lhs => forward_ite (forward_corrupted _) ?_
  rw [← bind_assoc]
  exact (forward_readAlternative lists).counted.bind fun _ => forward_pure _

theorem forward_readGrammar : Forward (readGrammar lists) := by
  unfold readGrammar
  rw [← bind_assoc]
  exact (forward_readRule lists).counted.bind fun _ => forward_pure _

theorem forward_insertInto {κ₁ κ₂ ν : Type} [DecidableEq κ₁] [DecidableEq κ₂] (m : Matrix κ₁ κ₂ ν) (k₁ : κ₁) (k₂ : κ₂)
    (v : ν) (duplicate : Corruption) : Forward (insertInto m k₁ k₂ v duplicate) := by
  unfold insertInto
  split
  · exact forward_pure _
  · exact forward_corrupted _

theorem forward_readEntry (table : LL.Table) : Forward (readEntry lists g table) := by
  refine (forward_readSymbol lists).bind fun lhs => (forward_readSymbol lists).bind fun t => ?_
  refine forward_readInt.bind fun raw => (forward_checkAlternative g raw).bind fun id => ?_
  exact forward_insertInto table lhs t id _

theorem forward_toAction (tag value : Int) : Forward (toAction g stateCount tag value) := by
  refine forward_ite ((forward_checkState stateCount value).bind fun _ => forward_pure _) ?_
  refine forward_ite ((forward_checkAlternative g value).bind fun _ => forward_pure _) ?_
  exact forward_ite (forward_pure _) (forward_corrupted _)

theorem forward_readActionEntry (actions : LR.Actions) : Forward (readActionEntry lists g stateCount actions) := by
  refine forward_readInt.bind fun raw => (forward_checkState stateCount raw).bind fun q => ?_
  refine (forward_readSymbol lists).bind fun t => forward_readInt.bind fun tag => forward_readInt.bind fun value => ?_
  exact (forward_toAction g stateCount tag value).bind fun act => forward_insertInto actions q t act _

theorem forward_readGotoEntry (gotos : LR.Gotos) : Forward (readGotoEntry lists stateCount gotos) := by
  refine forward_readInt.bind fun raw => (forward_checkState stateCount raw).bind fun q => ?_
  refine (forward_readSymbol lists).bind fun s => forward_readInt.bind fun raw => ?_
  exact (forward_checkState stateCount raw).bind fun r => forward_insertInto gotos q s r _

theorem forward_readLL : Forward (readLL lists g) := by
  unfold readLL
  rw [← bind_assoc]
  exact (forward_table (forward_readEntry lists g) _).bind fun _ => forward_pure _

theorem forward_readLR : Forward (readLR lists g) := by
  refine forward_readLength.bind fun stateCount => ?_
  rw [← bind_assoc]
  refine (forward_table (forward_readActionEntry lists g stateCount) _).bind fun actions => ?_
  rw [← bind_assoc]
  exact (forward_table (forward_readGotoEntry lists stateCount) _).bind fun _ => forward_pure _

theorem forward_readKind : Forward readKind := by
  unfold readKind
  refine forward_readInt.bind fun n => ?_
  split
  · exact forward_throw _
  · refine forward_readInt.bind fun kind => ?_
    split
    · exact forward_throw _
    · exact forward_pure _

theorem forward_readListed (kind : SymbolKind) : Forward (readListed kind) :=
  (forward_readText.bind fun _ => forward_pure _).counted

/-- **The reader of whole parsers** never looks behind the bytes that it takes. -/
theorem forward_readParser : Forward readParser := by
  refine forward_readKind.bind fun kind => (forward_readListed .terminal).bind fun terminals => ?_
  refine (forward_readListed .nonterminal).bind fun nonterminals => (forward_readGrammar _).bind fun g => ?_
  exact forward_ite (forward_readLL _ g) (forward_readLR _ g)

end Parts

end Form

namespace CompiledParser

variable {g : Grammar} {p : CompiledParser}

/-- **A saved parser delimits itself**: loading refuses every part of its front as cut short, and whatever stands behind the
whole, loading makes the same parser of it. -/
theorem load_of_cut_or_extended {steps : List DefinitionStep} (hg : (Grammar.define steps).result = .ok g)
    (hp : p.BuiltFrom g) (hfits : p.Fits) : p.save.result = .ok () ∧
      (∀ short, short <+: p.save.emitted → short ≠ p.save.emitted →
        ∃ e, (load short).result = .error e ∧ e.CutShort) ∧
      ∃ q, (load p.save.emitted).result = .ok q ∧ ∀ more, (load (p.save.emitted ++ more)).result = .ok q := by
  have hload := hp.loadable (wellFormed_of_define hg)
  have hsave := save_eq hload.covered
  refine ⟨congrArg Trail.result hsave, fun short hshort hne => ?_, p.reloaded, ?_, result_load_save hload hfits⟩
  · rw [hsave] at hshort hne
    obtain ⟨e, hread, he⟩ := Form.forward_readParser.error_of_cut (Form.reads_whole hload hfits) hshort hne
    exact ⟨e, by rw [Form.result_load, hread]; rfl, he⟩
  · have hloaded := result_load_save hload hfits []
    rwa [List.append_nil] at hloaded

set_option maxRecDepth 10000 in
/-- Saved parsers of a grammar with an action without text cannot be cut, not even behind that action. -/
theorem load_of_cut_or_extended_homonyms : ∃ g p t, (Grammar.define homonymSteps).result = .ok g ∧
    (LL.Parser.build .fresh g).result = .ok p ∧ (LR.Table.build g).result = .ok t ∧
    ∀ c ∈ [CompiledParser.ll p, .lr t], c.Fits ∧ c.save.result = .ok () ∧
      (∀ short, short <+: c.save.emitted → short ≠ c.save.emitted →
        ∃ e, (load short).result = .error e ∧ e.CutShort) ∧
      ∃ q, (load c.save.emitted).result = .ok q ∧ ∀ more, (load (c.save.emitted ++ more)).result = .ok q := by
  have heval : ((Grammar.define homonymSteps).result.toOption.any fun g =>
      (LL.Parser.build .fresh g).result.toOption.any fun p => (LR.Table.build g).result.toOption.any fun t =>
        decide (CompiledParser.ll p).Fits && decide (CompiledParser.lr t).Fits) = true := by rfl
  obtain ⟨g, hg, heval⟩ := exists_ok_of_any heval
  obtain ⟨p, hp, heval⟩ := exists_ok_of_any heval
  obtain ⟨t, ht, heval⟩ := exists_ok_of_any heval
  obtain ⟨hpfits, htfits⟩ := Bool.and_eq_true_iff.mp heval
  refine ⟨g, p, t, hg, hp, ht, fun c hc => ?_⟩
  rcases List.mem_pair.mp hc with rfl | rfl
  · exact ⟨of_decide_eq_true hpfits, load_of_cut_or_extended hg (.ll hp) (of_decide_eq_true hpfits)⟩
  · exact ⟨of_decide_eq_true htfits, load_of_cut_or_extended hg (.lr ht) (of_decide_eq_true htfits)⟩

end CompiledParser
end TableParser
