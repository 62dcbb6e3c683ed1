import TableParser.Parse.ShiftReduce
import TableParser.Proofs.Arena

/-!
# Forests on the stack

The items on the stack of the shift/reduce driver and the roots of the finished subtrees stand for a forest: a terminal
for a leaf that is not in the tree yet, a nonterminal for the subtree with the next root (`Tree.Holds`).

* **Children** (`Holds.children`): adding the missing leaves makes the forest of a reduction a list of nodes.
* **Reductions** (`TreeBuild.Realizes.reduce`): the last derivations of the forest are gathered under a new node, and
  every node is still visited once.
-/

namespace TableParser

variable {S : Type}

/-- Items from left to right, with the roots of the nonterminals among them, stand for a forest. -/
inductive Tree.Holds (t : Tree S) :
    List (StackItem S) → List Nat → List (Derivation S) → List Token → List Nat → Prop
  | nil : Holds t [] [] [] [] []
  | terminal {items : List (StackItem S)} {roots : List Nat} {ds : List (Derivation S)} {tokens : List Token}
      {visited : List Nat} (s : S) (token : Token) (h : Holds t items roots ds tokens visited) :
      Holds t (.terminal s token :: items) roots (.leaf s :: ds) (token :: tokens) visited
  | nonterminal {items : List (StackItem S)} {roots : List Nat} {ds cs : List (Derivation S)}
      {tokens tokens' : List Token} {visited visited' : List Nat} {s : S} {root : Nat}
      (hr : t.Reads root (.node s cs) tokens' visited') (h : Holds t items roots ds tokens visited) :
      Holds t (.nonterminal s :: items) (root :: roots) (.node s cs :: ds) (tokens' ++ tokens) (visited' ++ visited)

namespace Tree.Holds

variable {t u : Tree S} {items items' : List (StackItem S)} {roots roots' : List Nat} {ds ds' : List (Derivation S)}
  {tokens tokens' : List Token} {visited visited' : List Nat}

theorem extend (h : t.Holds items roots ds tokens visited) (hu : t.Extends u) :
    u.Holds items roots ds tokens visited := by
  induction h with
  | nil => exact .nil
  | terminal s token _ ih => exact .terminal s token ih
  | nonterminal hr _ ih => exact .nonterminal (hr.extend hu) ih

theorem map_symbol (h : t.Holds items roots ds tokens visited) :
    ds.map Derivation.symbol = items.map StackItem.symbol := by
  induction h with
  | nil => rfl
  | terminal s token _ ih => rw [List.map_cons, List.map_cons, ih]; rfl
  | nonterminal hr _ ih => rw [List.map_cons, List.map_cons, ih]; rfl

/-- Each nonterminal has its root. -/
theorem length_roots (h : t.Holds items roots ds tokens visited) :
    roots.length = items.countP StackItem.isNonterminal := by
  induction h with
  | nil => rfl
  | terminal s token _ ih => rw [List.countP_cons_of_neg (by simp [StackItem.isNonterminal]), ih]
  | nonterminal hr _ ih => rw [List.countP_cons_of_pos rfl, List.length_cons, ih]

/-- Only leaves that are not in the tree yet are not visited. -/
theorem length_visited_le (h : t.Holds items roots ds tokens visited) : visited.length ≤ Derivation.sizeAll ds := by
  induction h with
  | nil => exact Nat.le_refl 0
  | terminal s token _ ih => exact Nat.le_add_left_of_le ih
  | nonterminal hr _ ih =>
    rw [List.length_append, Derivation.sizeAll, hr.length_visited]
    exact Nat.add_le_add_left ih _

theorem append (h : t.Holds items roots ds tokens visited) (h' : t.Holds items' roots' ds' tokens' visited') :
    t.Holds (items ++ items') (roots ++ roots') (ds ++ ds') (tokens ++ tokens') (visited ++ visited') := by
  induction h with
  | nil => exact h'
  | terminal s token _ ih => exact .terminal s token ih
  | nonterminal hr _ ih =>
    rw [List.append_assoc, List.append_assoc]
    exact .nonterminal hr ih

/-- The forest of two item lists falls into two forests. -/
theorem of_append (h : t.Holds (items ++ items') roots ds tokens visited) :
    ∃ roots₁ roots₂ ds₁ ds₂ tokens₁ tokens₂ visited₁ visited₂,
      roots = roots₁ ++ roots₂ ∧ ds = ds₁ ++ ds₂ ∧ tokens = tokens₁ ++ tokens₂ ∧ visited = visited₁ ++ visited₂ ∧
      t.Holds items roots₁ ds₁ tokens₁ visited₁ ∧ t.Holds items' roots₂ ds₂ tokens₂ visited₂ := by
  induction items generalizing roots ds tokens visited with
  | nil => exact ⟨[], roots, [], ds, [], tokens, [], visited, rfl, rfl, rfl, rfl, .nil, h⟩
  | cons item items ih =>
    cases h with
    | terminal s token h =>
      obtain ⟨r₁, r₂, d₁, d₂, t₁, t₂, v₁, v₂, rfl, rfl, rfl, rfl, h₁, h₂⟩ := ih h
      exact ⟨r₁, r₂, _ :: d₁, d₂, token :: t₁, t₂, v₁, v₂, rfl, rfl, rfl, rfl, .terminal s token h₁, h₂⟩
    | nonterminal hr h =>
      obtain ⟨r₁, r₂, d₁, d₂, t₁, t₂, v₁, v₂, rfl, rfl, rfl, rfl, h₁, h₂⟩ := ih h
      exact ⟨_ :: r₁, r₂, _ :: d₁, d₂, _ ++ t₁, t₂, _ ++ v₁, v₂, rfl, rfl, (List.append_assoc _ _ _).symm,
        (List.append_assoc _ _ _).symm, .nonterminal hr h₁, h₂⟩

/-- The children of a reduction: the tree grows by the missing leaves, and then the nodes read as the forest. -/
theorem children (h : t.Holds items roots ds tokens visited) :
    ∃ u ids visited', TreeBuild.children t items roots = (u, ids) ∧ t.Extends u ∧
      u.ReadsAll ids ds tokens visited' ∧ visited'.Perm (visited ++ List.range' t.size (u.size - t.size)) := by
  induction items generalizing t roots ds tokens visited with
  | nil =>
    cases h
    exact ⟨t, [], [], rfl, .refl t, .nil, by simp⟩
  | cons item items ih =>
    cases h with
    | terminal s token h =>
      obtain ⟨u, ids, visited', hc, hu, hr, hp⟩ := ih (h.extend (extends_addLeaf t s token))
      have hle : t.size + 1 ≤ u.size := by
        rw [← size_addLeaf t s token]
        exact hu.size_le
      have hleaf : u.node? t.size = some ⟨s, some token, []⟩ := by
        rw [hu.node?_eq t.size (by rw [size_addLeaf]; omega), node?_addLeaf_size]
      refine ⟨u, t.size :: ids, t.size :: visited', ?_, (extends_addLeaf t s token).trans hu, ?_, ?_⟩
      · simp only [TreeBuild.children, hc]
      · exact .cons (.leaf hleaf) hr
      · rw [size_addLeaf] at hp
        have hsplit : List.range' t.size (u.size - t.size) =
            t.size :: List.range' (t.size + 1) (u.size - (t.size + 1)) := by
          rw [← List.range'_succ]
          congr 1
          omega
        rw [hsplit]
        exact (hp.cons t.size).trans List.perm_middle.symm
    | nonterminal hr h =>
      obtain ⟨u, ids, visited', hc, hu, hrs, hp⟩ := ih h
      refine ⟨u, _ :: ids, _ ++ visited', ?_, hu, .cons (hr.extend hu) hrs, ?_⟩
      · simp only [TreeBuild.children, hc]
      · rw [List.append_assoc]
        exact hp.append_left _

end Tree.Holds

/-! ## Reductions -/

theorem TreeBuild.size_le_of_children (t : Tree S) (items : List (StackItem S)) (roots : List Nat) :
    t.size ≤ (TreeBuild.children t items roots).1.size := by
  induction items generalizing t roots with
  | nil => exact Nat.le_refl _
  | cons item items ih =>
    cases item with
    | terminal s token =>
      have h := ih (t.addLeaf s token) roots
      rw [Tree.size_addLeaf] at h
      exact Nat.le_of_succ_le h
    | nonterminal s =>
      cases roots with
      | nil => exact ih t []
      | cons root roots => exact ih t roots

/-- A reduction adds nodes. -/
theorem TreeBuild.size_lt_of_reduce {b b' : TreeBuild S} {lhs : S} {args : List (StackItem S)}
    (h : b.reduce? lhs args = some b') : b.tree.size < b'.tree.size := by
  unfold TreeBuild.reduce? at h
  dsimp only at h
  split at h
  · cases h
  · cases h
    rw [Tree.size_addInner]
    exact Nat.lt_succ_of_le (size_le_of_children _ _ _)


/-- The finished subtrees and the items, from left to right, stand for a forest that visits every node once. -/
def TreeBuild.Realizes (b : TreeBuild S) (items : List (StackItem S)) (ds : List (Derivation S))
    (tokens : List Token) : Prop :=
  ∃ visited, b.tree.Holds items b.completed.reverse ds tokens visited ∧ visited.Perm (List.range b.tree.size)

namespace TreeBuild.Realizes

variable {b : TreeBuild S} {items args : List (StackItem S)} {ds ds' : List (Derivation S)} {tokens : List Token}

theorem empty : (TreeBuild.empty : TreeBuild S).Realizes [] [] [] := ⟨[], .nil, .refl _⟩

theorem map_symbol (h : b.Realizes items ds tokens) : ds.map Derivation.symbol = items.map StackItem.symbol := by
  obtain ⟨visited, hh, _⟩ := h
  exact hh.map_symbol

/-- A token that is put on the stack becomes the last leaf. -/
theorem shift (h : b.Realizes items ds tokens) (s : S) (token : Token) :
    b.Realizes (items ++ [.terminal s token]) (ds ++ [.leaf s]) (tokens ++ [token]) := by
  obtain ⟨visited, hh, hp⟩ := h
  refine ⟨visited, ?_, hp⟩
  have happ := hh.append (.terminal s token .nil)
  rwa [List.append_nil, List.append_nil] at happ

/-- The derivations of the items on top of a stack, and of those below. -/
theorem split (h : b.Realizes items.reverse ds tokens) (n : Nat) : ∃ ds₁ ds₂, ds = ds₁ ++ ds₂ ∧
    ds₂.length = (items.take n).reverse.length ∧
    b.Realizes ((items.drop n).reverse ++ (items.take n).reverse) (ds₁ ++ ds₂) tokens := by
  have hitems : items.reverse = (items.drop n).reverse ++ (items.take n).reverse := by
    rw [← List.reverse_append, List.take_append_drop]
  rw [hitems] at h
  have hds := congrArg List.length h.map_symbol
  rw [List.length_map, List.length_map, List.length_append] at hds
  refine ⟨ds.take (items.drop n).reverse.length, ds.drop (items.drop n).reverse.length,
    (List.take_append_drop _ _).symm, ?_, ?_⟩
  · rw [List.length_drop, hds]
    omega
  · rw [List.take_append_drop]
    exact h

/-- **A reduction** gathers the last derivations under a new node. -/
theorem reduce (h : b.Realizes (items ++ args) (ds ++ ds') tokens) (hlen : ds'.length = args.length) (lhs : S) :
    ∃ b', b.reduce? lhs args = some b' ∧ b'.Realizes (items ++ [.nonterminal lhs]) (ds ++ [.node lhs ds']) tokens := by
  obtain ⟨visited, hh, hp⟩ := h
  obtain ⟨roots₁, roots₂, ds₁, ds₂, tokens₁, tokens₂, visited₁, visited₂, hroots, hds, rfl, rfl, h₁, h₂⟩ := hh.of_append
  have hlen₂ : ds₂.length = args.length := by
    have := congrArg List.length h₂.map_symbol
    simpa using this
  obtain ⟨rfl, rfl⟩ := List.append_inj' hds (hlen.trans hlen₂.symm)
  obtain ⟨u, ids, visited', hc, hu, hr, hp'⟩ := h₂.children
  have hcompleted : b.completed = roots₂.reverse ++ roots₁.reverse := by
    rw [← List.reverse_append, ← hroots, List.reverse_reverse]
  have hcount : args.countP StackItem.isNonterminal = roots₂.reverse.length := by
    rw [List.length_reverse, h₂.length_roots]
  have hreduce : b.reduce? lhs args = some ⟨u.addInner lhs ids, u.size :: roots₁.reverse⟩ := by
    simp only [reduce?]
    rw [hcount, hcompleted, List.take_left, List.drop_left, List.reverse_reverse, hc,
      if_neg (by rw [List.length_append]; omega)]
  have hgrow := Tree.extends_addInner u lhs ids
  have hread : (u.addInner lhs ids).Reads u.size (.node lhs ds') tokens₂ (u.size :: visited') :=
    .node (Tree.node?_addInner_size u lhs ids) (hr.extend hgrow)
  refine ⟨_, hreduce, visited₁ ++ (u.size :: visited'), ?_, ?_⟩
  · rw [List.reverse_cons, List.reverse_reverse]
    have happ := (h₁.extend (hu.trans hgrow)).append (.nonterminal hread .nil)
    rwa [List.append_nil, List.append_nil] at happ
  · -- the new nodes are the leaves that were missing and the node of the reduction
    have hrange : List.range (u.size + 1) =
        List.range b.tree.size ++ List.range' b.tree.size (u.size - b.tree.size) ++ [u.size] := by
      have happ := List.range'_append_1 (s := 0) (m := b.tree.size) (n := u.size - b.tree.size)
      rw [Nat.zero_add, Nat.add_sub_cancel' hu.size_le] at happ
      rw [List.range_succ, List.range_eq_range', List.range_eq_range', happ]
    rw [Tree.size_addInner, hrange]
    have hinner : (visited₁ ++ visited').Perm
        (List.range b.tree.size ++ List.range' b.tree.size (u.size - b.tree.size)) :=
      ((hp'.append_left visited₁).trans (by rw [List.append_assoc])).trans (hp.append_right _)
    exact (List.perm_middle.trans (hinner.cons u.size)).trans (List.perm_append_singleton _ _).symm

/-- The tree is not larger than the forest. -/
theorem size_le (h : b.Realizes items ds tokens) : b.tree.size ≤ Derivation.sizeAll ds := by
  obtain ⟨visited, hh, hp⟩ := h
  have hlen := hp.length_eq
  rw [List.length_range] at hlen
  exact hlen ▸ hh.length_visited_le

/-- Only a nonterminal stands for a tree that is not a leaf. -/
theorem eq_nonterminal {item : StackItem S} {s : S} {cs : List (Derivation S)}
    (h : b.Realizes [item] [.node s cs] tokens) : item = .nonterminal s := by
  obtain ⟨visited, hh, _⟩ := h
  generalize b.completed.reverse = roots at hh
  cases hh
  rfl

/-- **The finished tree** shows the only derivation that is left. -/
theorem finish {item : StackItem S} {s : S} {cs : List (Derivation S)} (h : b.Realizes [item] [.node s cs] tokens) :
    ∃ t, b.finish? = some t ∧ t.Shows (.node s cs) tokens := by
  obtain ⟨visited, hh, hp⟩ := h
  generalize hroots : b.completed.reverse = roots at hh
  cases hh with
  | @nonterminal _ _ _ _ _ tokens' _ visited' _ root hr hrest =>
    cases hrest
    have hcompleted : b.completed = [root] := by
      rw [← List.reverse_reverse b.completed, hroots]
      rfl
    refine ⟨b.tree.setRoot root, ?_, root, visited', rfl, ?_, ?_⟩
    · unfold finish?
      rw [hcompleted]
    · rw [List.append_nil]
      exact hr.congr fun _ _ => rfl
    · rw [List.append_nil] at hp
      exact hp

end TreeBuild.Realizes
end TableParser
