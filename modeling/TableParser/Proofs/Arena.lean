import Mathlib.Data.List.Perm.Subperm
import TableParser.Parse.Tree
import TableParser.Proofs.Derivation

/-!
# Reading arenas

A syntax tree is an arena of numbered nodes. `Tree.Reads` says what stands under a node: the tree of its symbols, the
tokens on the leaves from left to right, and the numbers of the nodes visited.

* **One reading** (`Reads.unique`): a node reads as one derivation only.
* **Growth** (`Reads.congr`, `Extends`): a reading depends on the visited nodes only.
* **Leaves** (`Reads.leaves_eq`): the tokens of a reading are those that the tree lists.
* **Whole trees** (`Shows`): a tree whose nodes are all visited, and each of them once.
-/

namespace TableParser
namespace Tree

variable {S : Type}

mutual

/-- What stands under a node: the symbols, the tokens on the leaves and the nodes visited. -/
inductive Reads (t : Tree S) : Nat → Derivation S → List Token → List Nat → Prop
  | leaf {id : Nat} {s : S} {token : Token} (h : t.node? id = some ⟨s, some token, []⟩) :
      Reads t id (.leaf s) [token] [id]
  | node {id : Nat} {s : S} {ids : List Nat} {children : List (Derivation S)} {tokens : List Token}
      {visited : List Nat} (h : t.node? id = some ⟨s, none, ids⟩) (hc : ReadsAll t ids children tokens visited) :
      Reads t id (.node s children) tokens (id :: visited)

/-- What stands under several nodes, from left to right. -/
inductive ReadsAll (t : Tree S) : List Nat → List (Derivation S) → List Token → List Nat → Prop
  | nil : ReadsAll t [] [] [] []
  | cons {id : Nat} {ids : List Nat} {d : Derivation S} {ds : List (Derivation S)} {tokens tokens' : List Token}
      {visited visited' : List Nat} (h : Reads t id d tokens visited) (hr : ReadsAll t ids ds tokens' visited') :
      ReadsAll t (id :: ids) (d :: ds) (tokens ++ tokens') (visited ++ visited')

end

variable {t u : Tree S}

/-- The root of a reading carries the symbol of the derivation. -/
theorem Reads.exists_node {id : Nat} {d : Derivation S} {tokens : List Token} {visited : List Nat}
    (h : t.Reads id d tokens visited) : ∃ n, t.node? id = some n ∧ n.symbol = d.symbol := by
  cases h with
  | leaf h => exact ⟨_, h, rfl⟩
  | node h _ => exact ⟨_, h, rfl⟩

mutual

/-- A reading depends on the nodes that it visits and on no others. -/
theorem Reads.congr {id : Nat} {d : Derivation S} {tokens : List Token} {visited : List Nat}
    (h : t.Reads id d tokens visited) (hu : ∀ i ∈ visited, u.node? i = t.node? i) :
    u.Reads id d tokens visited := by
  cases h with
  | leaf h => exact .leaf ((hu _ List.mem_cons_self).trans h)
  | node h hc =>
    exact .node ((hu _ List.mem_cons_self).trans h) (ReadsAll.congr hc fun i hi => hu i (List.mem_cons_of_mem _ hi))

theorem ReadsAll.congr {ids : List Nat} {ds : List (Derivation S)} {tokens : List Token} {visited : List Nat}
    (h : t.ReadsAll ids ds tokens visited) (hu : ∀ i ∈ visited, u.node? i = t.node? i) :
    u.ReadsAll ids ds tokens visited := by
  cases h with
  | nil => exact .nil
  | cons h hr =>
    exact .cons (Reads.congr h fun i hi => hu i (List.mem_append_left _ hi))
      (ReadsAll.congr hr fun i hi => hu i (List.mem_append_right _ hi))

end

theorem lt_size_of_node? {id : Nat} {n : TreeNode S} (h : t.node? id = some n) : id < t.size :=
  (Array.getElem?_eq_some_iff.mp h).1

mutual

/-- Only nodes of the tree are visited. -/
theorem Reads.lt_size {id : Nat} {d : Derivation S} {tokens : List Token} {visited : List Nat}
    (h : t.Reads id d tokens visited) : ∀ i ∈ visited, i < t.size := by
  intro i hi
  cases h with
  | leaf h =>
    rw [List.mem_singleton.mp hi]
    exact lt_size_of_node? h
  | node h hc =>
    rcases List.mem_cons.mp hi with rfl | hi
    · exact lt_size_of_node? h
    · exact ReadsAll.lt_size hc i hi

theorem ReadsAll.lt_size {ids : List Nat} {ds : List (Derivation S)} {tokens : List Token} {visited : List Nat}
    (h : t.ReadsAll ids ds tokens visited) : ∀ i ∈ visited, i < t.size := by
  intro i hi
  cases h with
  | nil => cases hi
  | cons h hr => exact (List.mem_append.mp hi).elim (Reads.lt_size h i) (ReadsAll.lt_size hr i)

end

mutual

/-- **A node reads as one derivation only**, with the same tokens and the same nodes. -/
theorem Reads.unique {id : Nat} {d : Derivation S} {tokens : List Token} {visited : List Nat}
    {d' : Derivation S} {tokens' : List Token} {visited' : List Nat}
    (h : t.Reads id d tokens visited) (h' : t.Reads id d' tokens' visited') :
    d = d' ∧ tokens = tokens' ∧ visited = visited' := by
  cases h with
  | leaf h =>
    cases h' with
    | leaf h' =>
      rw [h] at h'
      cases h'
      exact ⟨rfl, rfl, rfl⟩
    | node h' _ =>
      rw [h] at h'
      cases h'
  | node h hc =>
    cases h' with
    | leaf h' =>
      rw [h] at h'
      cases h'
    | node h' hc' =>
      rw [h] at h'
      cases h'
      obtain ⟨rfl, rfl, rfl⟩ := ReadsAll.unique hc hc'
      exact ⟨rfl, rfl, rfl⟩

theorem ReadsAll.unique {ids : List Nat} {ds : List (Derivation S)} {tokens : List Token} {visited : List Nat}
    {ds' : List (Derivation S)} {tokens' : List Token} {visited' : List Nat}
    (h : t.ReadsAll ids ds tokens visited) (h' : t.ReadsAll ids ds' tokens' visited') :
    ds = ds' ∧ tokens = tokens' ∧ visited = visited' := by
  cases h with
  | nil =>
    cases h'
    exact ⟨rfl, rfl, rfl⟩
  | cons h hr =>
    cases h' with
    | cons h' hr' =>
      obtain ⟨rfl, rfl, rfl⟩ := Reads.unique h h'
      obtain ⟨rfl, rfl, rfl⟩ := ReadsAll.unique hr hr'
      exact ⟨rfl, rfl, rfl⟩

end

mutual

/-- The tokens of a reading are the leaves under its root, for every depth that the nodes visited allow. -/
theorem Reads.leavesFrom_eq {id : Nat} {d : Derivation S} {tokens : List Token} {visited : List Nat}
    (h : t.Reads id d tokens visited) {fuel : Nat} (hf : visited.length ≤ fuel) :
    t.leavesFrom fuel id = tokens := by
  cases h with
  | leaf h =>
    obtain ⟨fuel, rfl⟩ : ∃ k, fuel = k + 1 := Nat.exists_eq_add_of_le' hf
    simp only [leavesFrom, h]
    rfl
  | node h hc =>
    rw [List.length_cons] at hf
    obtain ⟨k, rfl⟩ := Nat.exists_eq_add_of_le' (Nat.lt_of_lt_of_le (Nat.succ_pos _) hf)
    have hk := ReadsAll.leavesFrom_eq hc (Nat.le_of_succ_le_succ hf)
    simp only [leavesFrom, h, hk]
    rfl

theorem ReadsAll.leavesFrom_eq {ids : List Nat} {ds : List (Derivation S)} {tokens : List Token} {visited : List Nat}
    (h : t.ReadsAll ids ds tokens visited) {fuel : Nat} (hf : visited.length ≤ fuel) :
    ids.flatMap (t.leavesFrom fuel) = tokens := by
  cases h with
  | nil => rfl
  | cons h hr =>
    rw [List.length_append] at hf
    rw [List.flatMap_cons, Reads.leavesFrom_eq h (Nat.le_of_add_right_le hf), ReadsAll.leavesFrom_eq hr (Nat.le_of_add_left_le hf)]

end

/-- A reading of several nodes falls into readings of the first and of the others. -/
theorem ReadsAll.of_append {ids ids' : List Nat} {ds : List (Derivation S)} {tokens : List Token} {visited : List Nat}
    (h : t.ReadsAll (ids ++ ids') ds tokens visited) :
    ∃ ds₁ ds₂ tokens₁ tokens₂ visited₁ visited₂, ds = ds₁ ++ ds₂ ∧ tokens = tokens₁ ++ tokens₂ ∧
      visited = visited₁ ++ visited₂ ∧ ds₁.length = ids.length ∧ t.ReadsAll ids ds₁ tokens₁ visited₁ ∧
      t.ReadsAll ids' ds₂ tokens₂ visited₂ := by
  induction ids generalizing ds tokens visited with
  | nil => exact ⟨[], ds, [], tokens, [], visited, rfl, rfl, rfl, rfl, .nil, h⟩
  | cons id ids ih =>
    rw [List.cons_append] at h
    cases h with
    | cons h hr =>
      obtain ⟨ds₁, ds₂, tokens₁, tokens₂, visited₁, visited₂, rfl, rfl, rfl, hlen, h₁, h₂⟩ := ih hr
      exact ⟨_ :: ds₁, ds₂, _ ++ tokens₁, tokens₂, _ ++ visited₁, visited₂, rfl, (List.append_assoc _ _ _).symm,
        (List.append_assoc _ _ _).symm, congrArg Nat.succ hlen, .cons h h₁, h₂⟩

/-- **The leaves of a tree** are the tokens of its reading, when no node is visited twice. -/
theorem Reads.leaves_eq {id : Nat} {d : Derivation S} {tokens : List Token} {visited : List Nat}
    (h : t.Reads id d tokens visited) (hroot : t.root = some id) (hnodup : visited.Nodup) :
    t.leaves = tokens := by
  have hsub : visited ⊆ List.range t.size := fun i hi => List.mem_range.mpr (Reads.lt_size h i hi)
  have hle : visited.length ≤ t.size := by
    have := (hnodup.subperm hsub).length_le
    rwa [List.length_range] at this
  simp only [leaves, hroot]
  exact h.leavesFrom_eq hle

mutual

/-- Each leaf has its token. -/
theorem Reads.length_tokens {id : Nat} {d : Derivation S} {tokens : List Token} {visited : List Nat}
    (h : t.Reads id d tokens visited) : tokens.length = d.yield.length := by
  cases h with
  | leaf _ => rfl
  | node _ hc => exact ReadsAll.length_tokens hc

theorem ReadsAll.length_tokens {ids : List Nat} {ds : List (Derivation S)} {tokens : List Token} {visited : List Nat}
    (h : t.ReadsAll ids ds tokens visited) :
    tokens.length = (Derivation.yieldAll ds).length := by
  cases h with
  | nil => rfl
  | cons h hr => rw [List.length_append, Derivation.yieldAll, List.length_append, Reads.length_tokens h, ReadsAll.length_tokens hr]

end

mutual

/-- A reading visits as many nodes as the derivation has. -/
theorem Reads.length_visited {id : Nat} {d : Derivation S} {tokens : List Token} {visited : List Nat}
    (h : t.Reads id d tokens visited) : visited.length = d.size := by
  cases h with
  | leaf _ => rfl
  | node _ hc => rw [List.length_cons, ReadsAll.length_visited hc, Derivation.size]

theorem ReadsAll.length_visited {ids : List Nat} {ds : List (Derivation S)} {tokens : List Token} {visited : List Nat}
    (h : t.ReadsAll ids ds tokens visited) : visited.length = Derivation.sizeAll ds := by
  cases h with
  | nil => rfl
  | cons h hr => rw [List.length_append, Derivation.sizeAll, Reads.length_visited h, ReadsAll.length_visited hr]

end

/-- The tree is nothing but this derivation with these tokens on its leaves: every node is reached from the root, and
only once. -/
def Shows (t : Tree S) (d : Derivation S) (tokens : List Token) : Prop :=
  ∃ root visited, t.root = some root ∧ t.Reads root d tokens visited ∧ visited.Perm (List.range t.size)

theorem Shows.leaves_eq {d : Derivation S} {tokens : List Token} (h : t.Shows d tokens) : t.leaves = tokens := by
  obtain ⟨root, visited, hroot, hr, hp⟩ := h
  exact hr.leaves_eq hroot (hp.nodup_iff.mpr List.nodup_range)

/-- A tree shows one derivation only. -/
theorem Shows.unique {d d' : Derivation S} {tokens tokens' : List Token} (h : t.Shows d tokens)
    (h' : t.Shows d' tokens') : d = d' ∧ tokens = tokens' := by
  obtain ⟨root, visited, hroot, hr, _⟩ := h
  obtain ⟨root', visited', hroot', hr', _⟩ := h'
  rw [hroot] at hroot'
  cases hroot'
  obtain ⟨hd, ht, _⟩ := hr.unique hr'
  exact ⟨hd, ht⟩

/-! ## Growth -/

/-- The second tree has the nodes of the first one and perhaps more. -/
structure Extends (t u : Tree S) : Prop where
  size_le : t.size ≤ u.size
  node?_eq : ∀ i < t.size, u.node? i = t.node? i

theorem Extends.refl (t : Tree S) : t.Extends t := ⟨Nat.le_refl _, fun _ _ => rfl⟩

theorem Extends.trans {v : Tree S} (h₁ : t.Extends u) (h₂ : u.Extends v) : t.Extends v where
  size_le := Nat.le_trans h₁.size_le h₂.size_le
  node?_eq i hi := (h₂.node?_eq i (Nat.lt_of_lt_of_le hi h₁.size_le)).trans (h₁.node?_eq i hi)

theorem Reads.extend {id : Nat} {d : Derivation S} {tokens : List Token} {visited : List Nat}
    (h : t.Reads id d tokens visited) (hu : t.Extends u) : u.Reads id d tokens visited :=
  h.congr fun i hi => hu.node?_eq i (h.lt_size i hi)

theorem ReadsAll.extend {ids : List Nat} {ds : List (Derivation S)} {tokens : List Token} {visited : List Nat}
    (h : t.ReadsAll ids ds tokens visited) (hu : t.Extends u) :
    u.ReadsAll ids ds tokens visited :=
  h.congr fun i hi => hu.node?_eq i (h.lt_size i hi)

@[simp] theorem size_addLeaf (t : Tree S) (s : S) (token : Token) : (t.addLeaf s token).size = t.size + 1 :=
  Array.size_push _

@[simp] theorem size_addInner (t : Tree S) (s : S) (children : List Nat) : (t.addInner s children).size = t.size + 1 :=
  Array.size_push _

theorem extends_addLeaf (t : Tree S) (s : S) (token : Token) : t.Extends (t.addLeaf s token) where
  size_le := by simp
  node?_eq _ hi := (Array.getElem?_push_lt hi).trans (Array.getElem?_eq_getElem hi).symm

theorem extends_addInner (t : Tree S) (s : S) (children : List Nat) : t.Extends (t.addInner s children) where
  size_le := by simp
  node?_eq _ hi := (Array.getElem?_push_lt hi).trans (Array.getElem?_eq_getElem hi).symm

theorem node?_addLeaf_size (t : Tree S) (s : S) (token : Token) :
    (t.addLeaf s token).node? t.size = some ⟨s, some token, []⟩ := Array.getElem?_push_size

theorem node?_addInner_size (t : Tree S) (s : S) (children : List Nat) :
    (t.addInner s children).node? t.size = some ⟨s, none, children⟩ := Array.getElem?_push_size

/-! ## Nodes without children -/

theorem nodes_addNodes (t : Tree S) (symbols : List S) :
    (t.addNodes symbols).nodes = t.nodes ++ (symbols.map fun s => ⟨s, none, []⟩).toArray := by
  unfold addNodes
  induction symbols generalizing t with
  | nil => rw [List.foldl_nil, List.map_nil, Array.append_empty]
  | cons s symbols ih =>
    rw [List.foldl_cons, ih, List.map_cons]
    simp [addNode]

@[simp] theorem root_addNodes (t : Tree S) (symbols : List S) : (t.addNodes symbols).root = t.root := by
  unfold addNodes
  induction symbols generalizing t with
  | nil => rfl
  | cons s symbols ih => rw [List.foldl_cons, ih, addNode]

@[simp] theorem size_addNodes (t : Tree S) (symbols : List S) :
    (t.addNodes symbols).size = t.size + symbols.length := by
  simp [size, nodes_addNodes]

/-- Old nodes stay as they are, new nodes carry their symbols. -/
theorem node?_addNodes (t : Tree S) (symbols : List S) (i : Nat) : (t.addNodes symbols).node? i =
    if i < t.size then t.node? i else (symbols[i - t.size]?).map fun s => ⟨s, none, []⟩ := by
  simp only [node?, size, nodes_addNodes, Array.getElem?_append, List.getElem?_toArray, List.getElem?_map]
  rfl

@[simp] theorem size_setToken (t : Tree S) (id : Nat) (token : Token) : (t.setToken id token).size = t.size :=
  Array.size_modify

@[simp] theorem size_setChildren (t : Tree S) (id : Nat) (children : List Nat) :
    (t.setChildren id children).size = t.size :=
  Array.size_modify

theorem node?_setToken (t : Tree S) (id : Nat) (token : Token) (i : Nat) : (t.setToken id token).node? i =
    if id = i then (t.node? i).map fun n => { n with token := some token } else t.node? i :=
  Array.getElem?_modify

theorem node?_setChildren (t : Tree S) (id : Nat) (children : List Nat) (i : Nat) : (t.setChildren id children).node? i =
    if id = i then (t.node? i).map fun n => { n with children := children } else t.node? i :=
  Array.getElem?_modify

end Tree
end TableParser
