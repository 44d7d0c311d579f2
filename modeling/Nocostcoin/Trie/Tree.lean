import Nocostcoin.Trie.Bounds

/-!
# The tree behind the node table

For keys of one length the node table stands for a radix tree: the root names the tree by its hash,
and every node of the tree is in the table under its own hash. An insertion into the table is one
into the tree. A branch that a key reaches with its last nibble takes the value itself, as in
`insert_at`.
-/

namespace Nocostcoin

namespace MerklePatriciaTrie

variable {crypto : Crypto}

deriving instance DecidableEq for Node

/-- The resolved trie. -/
abbrev Tree := RadixTree UInt8 Bytes

/-- Insertion into the tree, for keys of which none is a prefix of another. -/
def insertTree : Tree → Bytes → Bytes → Option Tree
  | .empty, path, value => some (.leaf path value)
  | .leaf key old, path, value =>
    if key = path then some (.leaf path value)
    else (RadixTree.part key path).map fun (shared, (x, rest), (y, newRest)) =>
      .skip shared (.branch (.pair x (.leaf rest old) y (.leaf newRest value)) none)
  | .branch _ _, [], _ => none
  | .branch children held, nibble :: rest, value =>
    if rest = [] then some (.branch children (some value))
    else (insertTree (children nibble) rest value).map fun child =>
      .branch (Function.update children nibble child) held
  | .extension extPath child, path, value =>
    if extPath <+: path then
      (insertTree child (path.drop extPath.length) value).map (.extension extPath)
    else (RadixTree.part extPath path).map fun (shared, (x, rest), (y, newRest)) =>
      .skip shared (.branch (.pair x (.skip rest child) y (.leaf newRest value)) none)

section Merkle

variable (crypto)

/-- The node at the root of a tree; children are named by their hashes. -/
def nodeOf : Tree → Option Node
  | .empty => none
  | .leaf key value => some (.leaf key value)
  | .branch children value =>
    some (.branch (Vector.ofFn fun i => (nodeOf (children (UInt8.ofNat i))).map (Node.hash crypto)) value)
  | .extension extPath child =>
    (nodeOf child).map fun node => .extension extPath (node.hash crypto)

/-- The hash of a tree. -/
def hashOf (tree : Tree) : Option String := (nodeOf crypto tree).map (Node.hash crypto)

/-- The hashes of the children of a branch. -/
def hashes (children : UInt8 → Tree) : Children :=
  Vector.ofFn fun i => hashOf crypto (children (UInt8.ofNat i))

/-- All nodes of a tree. -/
def nodesOf : Tree → List Node
  | .empty => []
  | .leaf key value => [.leaf key value]
  | .branch children value =>
    (nodeOf crypto (.branch children value)).toList ++
      (List.range 16).flatMap fun i => nodesOf (children (UInt8.ofNat i))
  | .extension extPath child =>
    (nodeOf crypto (.extension extPath child)).toList ++ nodesOf child

end Merkle

/-- Only nibbles have children, extensions skip to something, and all paths are nibbles. -/
inductive Proper : Tree → Prop
  | empty : Proper .empty
  | leaf {key value : Bytes} (hkey : IsNibbles key) : Proper (.leaf key value)
  | branch {children : UInt8 → Tree} {value : Option Bytes}
      (hout : ∀ digit, 16 ≤ digit.toNat → children digit = .empty)
      (hchildren : ∀ digit, Proper (children digit)) : Proper (.branch children value)
  | extension {extPath : Bytes} {child : Tree} (hne : extPath ≠ []) (hpath : IsNibbles extPath)
      (hsome : child ≠ .empty) (hchild : Proper child) : Proper (.extension extPath child)

/-- Every tree that is not empty has a root node. -/
theorem nodeOf_isSome (crypto : Crypto) {tree : Tree} (hproper : Proper tree) (hsome : tree ≠ .empty) :
    ∃ node, nodeOf crypto tree = some node := by
  induction hproper with
  | empty => exact absurd rfl hsome
  | leaf => exact ⟨_, rfl⟩
  | branch => exact ⟨_, rfl⟩
  | extension _ _ hchild _ ih =>
    obtain ⟨node, hnode⟩ := ih hchild
    exact ⟨_, by rw [nodeOf, hnode]; rfl⟩

/-- The root node is one of the nodes. -/
theorem mem_nodesOf_of_nodeOf {tree : Tree} {node : Node} (h : nodeOf crypto tree = some node) :
    node ∈ nodesOf crypto tree := by
  cases tree with
  | empty => exact absurd h (by simp [nodeOf])
  | leaf key value =>
    obtain rfl := Option.some.inj h
    exact List.mem_singleton_self _
  | branch children value =>
    rw [nodesOf, h]
    exact List.mem_cons_self
  | extension extPath child =>
    rw [nodesOf, h]
    exact List.mem_cons_self

theorem toNat_nibble {i : ℕ} (h : i < 16) : (UInt8.ofNat i).toNat = i :=
  UInt8.toNat_ofNat_of_lt' (Nat.lt_trans h (by decide))

/-- The nodes of a branch are its own and those of its children. -/
theorem mem_nodesOf_branch {children : UInt8 → Tree} {value : Option Bytes} {node : Node} :
    node ∈ nodesOf crypto (.branch children value) ↔
      node = .branch (hashes crypto children) value ∨
        ∃ digit : UInt8, digit.toNat < 16 ∧ node ∈ nodesOf crypto (children digit) := by
  rw [nodesOf, List.mem_append, List.mem_flatMap]
  apply or_congr
  · exact List.mem_singleton
  · constructor
    · rintro ⟨i, hi, hnode⟩
      have hlt := List.mem_range.mp hi
      exact ⟨UInt8.ofNat i, by rwa [toNat_nibble hlt], hnode⟩
    · rintro ⟨digit, hdigit, hnode⟩
      exact ⟨digit.toNat, List.mem_range.mpr hdigit, by rwa [UInt8.ofNat_toNat]⟩

/-- The nodes below a skipped path are those of the child. -/
theorem mem_nodesOf_extension {extPath : Bytes} {child : Tree} {node : Node}
    (h : node ∈ nodesOf crypto child) : node ∈ nodesOf crypto (.extension extPath child) :=
  List.mem_append_right _ h

theorem mem_nodesOf_skip {shared : Bytes} {child : Tree} {node : Node}
    (h : node ∈ nodesOf crypto child) : node ∈ nodesOf crypto (.skip shared child) := by
  cases shared with
  | nil => exact h
  | cons digit shared => exact mem_nodesOf_extension h

/-- The hash of the child at an index. -/
theorem getElem_hashes (children : UInt8 → Tree) {i : ℕ} (hi : i < 16) :
    (hashes crypto children)[i] = hashOf crypto (children (UInt8.ofNat i)) := by
  rw [hashes, Vector.getElem_ofFn]

/-- The hash of the child under a nibble. -/
theorem getElem_hashes_toNat (children : UInt8 → Tree) {digit : UInt8} (h : digit.toNat < 16) :
    (hashes crypto children)[digit.toNat] = hashOf crypto (children digit) := by
  rw [getElem_hashes, UInt8.ofNat_toNat]

/-- The hashes after a child changed. -/
theorem hashes_update (children : UInt8 → Tree) {digit : UInt8} (h : digit.toNat < 16) (child : Tree) :
    hashes crypto (Function.update children digit child) =
      (hashes crypto children).set digit.toNat (hashOf crypto child) := by
  apply Vector.ext
  intro i hi
  rw [Vector.getElem_set, getElem_hashes _ hi, getElem_hashes _ hi, Function.update_apply]
  by_cases heq : digit.toNat = i
  · rw [if_pos heq, if_pos (by rw [← heq, UInt8.ofNat_toNat])]
  · rw [if_neg heq, if_neg fun hdigit => heq (by rw [← hdigit, toNat_nibble hi])]

/-- Without children there are no hashes. -/
theorem hashes_empty : hashes crypto (fun _ => .empty) = Vector.replicate 16 none := by
  apply Vector.ext
  intro i hi
  rw [getElem_hashes _ hi, Vector.getElem_replicate]
  rfl

/-- No two nodes of a list have one hash. -/
def CollisionFree (crypto : Crypto) (known : List Node) : Prop :=
  ∀ a ∈ known, ∀ b ∈ known, a.hash crypto = b.hash crypto → a = b

instance (crypto : Crypto) (known : List Node) : Decidable (CollisionFree crypto known) :=
  inferInstanceAs (Decidable (∀ a ∈ known, ∀ b ∈ known, _ → _))

/-- A table holds nodes of a list alone, each under its own hash. -/
def TableOf (crypto : Crypto) (known : List Node) (nodes : Nodes) : Prop :=
  ∀ hash node, nodes.lookup hash = some node → node.hash crypto = hash ∧ node ∈ known

/-- What was in a table still is. -/
def Kept (nodes nodes' : Nodes) : Prop :=
  ∀ hash node, nodes.lookup hash = some node → nodes'.lookup hash = some node

/-- All nodes of a tree are in the table under their hashes. -/
def Stored (crypto : Crypto) (nodes : Nodes) (tree : Tree) : Prop :=
  ∀ node ∈ nodesOf crypto tree, nodes.lookup (node.hash crypto) = some node

theorem Kept.refl (nodes : Nodes) : Kept nodes nodes := fun _ _ h => h

theorem Kept.trans {a b c : Nodes} (hab : Kept a b) (hbc : Kept b c) : Kept a c :=
  fun hash node h => hbc hash node (hab hash node h)

theorem Stored.kept {nodes nodes' : Nodes} {tree : Tree} (h : Stored crypto nodes tree)
    (hkept : Kept nodes nodes') : Stored crypto nodes' tree :=
  fun node hnode => hkept _ node (h node hnode)

/-- The empty tree has no nodes. -/
theorem stored_empty (nodes : Nodes) : Stored crypto nodes .empty :=
  fun _ hnode => absurd hnode List.not_mem_nil

/-- A branch is stored with its node and its children. -/
theorem stored_branch_iff {nodes : Nodes} {children : UInt8 → Tree} {value : Option Bytes} :
    Stored crypto nodes (.branch children value) ↔
      nodes.lookup ((Node.branch (hashes crypto children) value).hash crypto) =
          some (.branch (hashes crypto children) value) ∧
        ∀ digit : UInt8, digit.toNat < 16 → Stored crypto nodes (children digit) := by
  constructor
  · intro h
    refine ⟨h _ (mem_nodesOf_branch.mpr (.inl rfl)), fun digit hdigit node hnode => ?_⟩
    exact h node (mem_nodesOf_branch.mpr (.inr ⟨digit, hdigit, hnode⟩))
  · rintro ⟨hown, hchildren⟩ node hnode
    rcases mem_nodesOf_branch.mp hnode with rfl | ⟨digit, hdigit, hbelow⟩
    · exact hown
    · exact hchildren digit hdigit node hbelow

/-- An extension is stored with its node and its child. -/
theorem stored_extension_iff {nodes : Nodes} {extPath : Bytes} {child : Tree} {root : String}
    (hroot : hashOf crypto child = some root) :
    Stored crypto nodes (.extension extPath child) ↔
      nodes.lookup ((Node.extension extPath root).hash crypto) = some (.extension extPath root) ∧
        Stored crypto nodes child := by
  obtain ⟨node, hnode, rfl⟩ := Option.map_eq_some_iff.mp hroot
  have hown : nodeOf crypto (.extension extPath child) = some (.extension extPath (node.hash crypto)) := by
    rw [nodeOf, hnode]
    rfl
  constructor
  · intro h
    exact ⟨h _ (mem_nodesOf_of_nodeOf hown), fun other hother => h other (mem_nodesOf_extension hother)⟩
  · rintro ⟨hstored, hchild⟩ other hother
    rw [nodesOf, hown] at hother
    rcases List.mem_cons.mp hother with rfl | hbelow
    · exact hstored
    · exact hchild other hbelow

/-- Entering a node of the list keeps the table, what is in it, and finds the node. -/
theorem store_known {known : List Node} (hfree : CollisionFree crypto known) {nodes : Nodes}
    (htable : TableOf crypto known nodes) {node : Node} (hnode : node ∈ known) :
    TableOf crypto known (store crypto nodes node).1 ∧ Kept nodes (store crypto nodes node).1 ∧
      (store crypto nodes node).1.lookup (node.hash crypto) = some node := by
  refine ⟨fun hash other hother => ?_, fun hash other hother => ?_, Finmap.lookup_insert _⟩
  · unfold store at hother
    rw [FiniteMap.lookup_insert_ite] at hother
    split at hother
    · rename_i heq
      rw [← Option.some.inj hother]
      exact ⟨heq.symm, hnode⟩
    · exact htable hash other hother
  · unfold store
    rw [FiniteMap.lookup_insert_ite]
    split
    · rename_i heq
      obtain ⟨hhash, hmem⟩ := htable hash other hother
      rw [hfree node hnode other hmem (heq.symm.trans hhash.symm)]
    · exact hother

/-- What entering nodes makes of a table: a tree and its hash. -/
structure Enters (crypto : Crypto) (known : List Node) (nodes : Nodes) (entered : Nodes × String)
    (tree : Tree) : Prop where
  table : TableOf crypto known entered.1
  kept : Kept nodes entered.1
  stored : Stored crypto entered.1 tree
  root : hashOf crypto tree = some entered.2

theorem enters_leaf {known : List Node} (hfree : CollisionFree crypto known) {nodes : Nodes}
    (htable : TableOf crypto known nodes) {key value : Bytes} (hnode : Node.leaf key value ∈ known) :
    Enters crypto known nodes (store crypto nodes (.leaf key value)) (.leaf key value) := by
  obtain ⟨htable', hkept, hfound⟩ := store_known hfree htable hnode
  refine ⟨htable', hkept, fun node hmem => ?_, rfl⟩
  rw [List.mem_singleton.mp hmem]
  exact hfound

theorem enters_branch {known : List Node} (hfree : CollisionFree crypto known) {nodes : Nodes}
    (htable : TableOf crypto known nodes) {children : UInt8 → Tree} {value : Option Bytes}
    (hchildren : ∀ digit : UInt8, digit.toNat < 16 → Stored crypto nodes (children digit))
    (hnode : Node.branch (hashes crypto children) value ∈ known) :
    Enters crypto known nodes (store crypto nodes (.branch (hashes crypto children) value))
      (.branch children value) := by
  obtain ⟨htable', hkept, hfound⟩ := store_known hfree htable hnode
  exact ⟨htable', hkept, stored_branch_iff.mpr
    ⟨hfound, fun digit hdigit => (hchildren digit hdigit).kept hkept⟩, rfl⟩

/-- An extension over a tree that was entered. -/
theorem Enters.extension {known : List Node} (hfree : CollisionFree crypto known) {nodes : Nodes}
    {entered : Nodes × String} {child : Tree} (h : Enters crypto known nodes entered child)
    {extPath : Bytes} (hnode : Node.extension extPath entered.2 ∈ known) :
    Enters crypto known nodes (store crypto entered.1 (.extension extPath entered.2))
      (.extension extPath child) := by
  obtain ⟨htable', hkept, hfound⟩ := store_known hfree h.table hnode
  obtain ⟨node, hchild, hhash⟩ := Option.map_eq_some_iff.mp h.root
  refine ⟨htable', h.kept.trans hkept, (stored_extension_iff h.root).mpr
    ⟨hfound, h.stored.kept hkept⟩, ?_⟩
  rw [hashOf, nodeOf, hchild, ← hhash]
  rfl

/-- The node of an extension is one of its nodes. -/
theorem extension_mem_nodesOf {extPath : Bytes} {child : Tree} {root : String}
    (hroot : hashOf crypto child = some root) :
    .extension extPath root ∈ nodesOf crypto (.extension extPath child) := by
  obtain ⟨node, hnode, rfl⟩ := Option.map_eq_some_iff.mp hroot
  apply mem_nodesOf_of_nodeOf
  rw [nodeOf, hnode]
  rfl

/-- What was entered after other nodes were. -/
theorem Enters.after {known : List Node} {nodes nodes' : Nodes} {entered : Nodes × String} {tree : Tree}
    (h : Enters crypto known nodes' entered tree) (hkept : Kept nodes nodes') :
    Enters crypto known nodes entered tree :=
  ⟨h.table, hkept.trans h.kept, h.stored, h.root⟩

/-- A fork enters its branch and the path above it. -/
theorem enters_fork {known : List Node} (hfree : CollisionFree crypto known) {nodes : Nodes}
    (htable : TableOf crypto known nodes) {children : UInt8 → Tree} (shared : Bytes)
    (hchildren : ∀ digit : UInt8, digit.toNat < 16 → Stored crypto nodes (children digit))
    (hknown : ∀ node ∈ nodesOf crypto (.skip shared (.branch children none)), node ∈ known) :
    Enters crypto known nodes (storeFork crypto nodes (hashes crypto children) shared)
      (.skip shared (.branch children none)) := by
  have hbranch := enters_branch hfree htable hchildren
    (hknown _ (mem_nodesOf_skip (mem_nodesOf_branch.mpr (.inl rfl))))
  cases shared with
  | nil => exact hbranch
  | cons digit shared => exact hbranch.extension hfree (hknown _ (extension_mem_nodesOf hbranch.root))

/-- Both children of a pair are stored. -/
theorem stored_pair {nodes : Nodes} {x y : UInt8} {first second : Tree}
    (hfirst : Stored crypto nodes first) (hsecond : Stored crypto nodes second) (digit : UInt8) :
    Stored crypto nodes (RadixTree.pair x first y second digit) := by
  rw [RadixTree.pair, Function.update_apply, Function.update_apply]
  split
  · exact hsecond
  · split
    · exact hfirst
    · exact stored_empty nodes

/-- The hashes of a pair. -/
theorem hashes_pair {x y : UInt8} (hx : x.toNat < 16) (hy : y.toNat < 16) (first second : Tree) :
    hashes crypto (RadixTree.pair x first y second) =
      ((Vector.replicate 16 none).set x.toNat (hashOf crypto first)).set y.toNat
        (hashOf crypto second) := by
  rw [RadixTree.pair, hashes_update _ hy, hashes_update _ hx, hashes_empty]

/-- The nodes of the second child of a pair are in the fork over it. -/
theorem mem_nodesOf_pair_second {shared : Bytes} {x y : UInt8} {first second : Tree} {node : Node}
    (hy : y.toNat < 16) (hnode : node ∈ nodesOf crypto second) :
    node ∈ nodesOf crypto (.skip shared (.branch (.pair x first y second) none)) := by
  refine mem_nodesOf_skip (mem_nodesOf_branch.mpr (.inr ⟨y, hy, ?_⟩))
  rwa [RadixTree.pair, Function.update_self]

/-- The nodes of the first child of a pair are in the fork over it. -/
theorem mem_nodesOf_pair_first {shared : Bytes} {x y : UInt8} {first second : Tree} {node : Node}
    (hne : x ≠ y) (hx : x.toNat < 16) (hnode : node ∈ nodesOf crypto first) :
    node ∈ nodesOf crypto (.skip shared (.branch (.pair x first y second) none)) := by
  refine mem_nodesOf_skip (mem_nodesOf_branch.mpr (.inr ⟨x, hx, ?_⟩))
  rwa [RadixTree.pair, Function.update_of_ne hne, Function.update_self]

/-- Splitting a leaf enters the fork over both leaves. -/
theorem enters_splitLeaf {known : List Node} (hfree : CollisionFree crypto known) {nodes : Nodes}
    (htable : TableOf crypto known nodes) {shared rest newRest old value : Bytes} {x y : UInt8}
    (hne : x ≠ y) (hx : x.toNat < 16) (hy : y.toNat < 16)
    (hknown : ∀ node ∈ nodesOf crypto
      (.skip shared (.branch (.pair x (.leaf rest old) y (.leaf newRest value)) none)), node ∈ known) :
    ∃ entered, splitLeaf crypto nodes (shared ++ x :: rest) old (shared ++ y :: newRest) value =
        some entered ∧
      Enters crypto known nodes entered
        (.skip shared (.branch (.pair x (.leaf rest old) y (.leaf newRest value)) none)) := by
  have hcommon := commonPrefix_of_parts shared hne rest newRest
  have hfirst := enters_leaf hfree htable
    (hknown _ (mem_nodesOf_pair_first hne hx (List.mem_singleton_self _)))
  have hsecond := enters_leaf hfree hfirst.table
    (hknown _ (mem_nodesOf_pair_second hy (List.mem_singleton_self _)))
  have hfork := enters_fork hfree hsecond.table shared
    (fun digit _ => stored_pair (hfirst.stored.kept hsecond.kept) hsecond.stored digit) hknown
  rw [hashes_pair hx hy] at hfork
  refine ⟨_, ?_, hfork.after (hfirst.kept.trans hsecond.kept)⟩
  have hdropX : (shared ++ x :: rest).drop shared.length = x :: rest := List.drop_left
  have hdropY : (shared ++ y :: newRest).drop shared.length = y :: newRest := List.drop_left
  rw [splitLeaf_eq (by rw [hcommon]; exact forkLeaf_of_nibble old hdropX hx)
    (by rw [hcommon]; exact forkLeaf_of_nibble value hdropY hy), hcommon, List.take_left]
  rfl

/-- What is left of a split extension. -/
theorem enters_storeRest {known : List Node} (hfree : CollisionFree crypto known) {nodes : Nodes}
    (htable : TableOf crypto known nodes) {rest : Bytes} {child : Tree} {root : String}
    (hstored : Stored crypto nodes child) (hroot : hashOf crypto child = some root)
    (hknown : ∀ node ∈ nodesOf crypto (.skip rest child), node ∈ known) :
    Enters crypto known nodes (storeRest crypto nodes rest root) (.skip rest child) := by
  have hchild : Enters crypto known nodes (nodes, root) child := ⟨htable, .refl nodes, hstored, hroot⟩
  cases rest with
  | nil => exact hchild
  | cons digit rest => exact hchild.extension hfree (hknown _ (extension_mem_nodesOf hroot))

/-- Splitting an extension enters the fork over what is left of it and the new leaf. -/
theorem enters_splitExtension {known : List Node} (hfree : CollisionFree crypto known) {nodes : Nodes}
    (htable : TableOf crypto known nodes) {shared rest newRest value : Bytes} {x y : UInt8}
    {child : Tree} {root : String} (hne : x ≠ y) (hx : x.toNat < 16) (hy : y.toNat < 16)
    (hstored : Stored crypto nodes child) (hroot : hashOf crypto child = some root)
    (hknown : ∀ node ∈ nodesOf crypto
      (.skip shared (.branch (.pair x (.skip rest child) y (.leaf newRest value)) none)), node ∈ known) :
    ∃ entered, splitExtension crypto nodes (shared ++ x :: rest) root (shared ++ y :: newRest) value
        (commonPrefix (shared ++ x :: rest) (shared ++ y :: newRest)) = some entered ∧
      Enters crypto known nodes entered
        (.skip shared (.branch (.pair x (.skip rest child) y (.leaf newRest value)) none)) := by
  have hrest := enters_storeRest hfree htable hstored hroot
    fun node hnode => hknown node (mem_nodesOf_pair_first hne hx hnode)
  have hleaf := enters_leaf hfree hrest.table
    (hknown _ (mem_nodesOf_pair_second hy (List.mem_singleton_self _)))
  have hfork := enters_fork hfree hleaf.table shared
    (fun digit _ => stored_pair (hrest.stored.kept hleaf.kept) hleaf.stored digit) hknown
  rw [hashes_pair hx hy, hrest.root] at hfork
  refine ⟨_, ?_, hfork.after (hrest.kept.trans hleaf.kept)⟩
  rw [commonPrefix_of_parts shared hne rest newRest]
  have hdropX : (shared ++ x :: rest).drop (shared.length + 1) = rest := by simp
  have hdropY : (shared ++ y :: newRest).drop (shared.length + 1) = newRest := by simp
  rw [splitExtension_eq (by simp) (by simp) hx hy, hdropX, hdropY, List.take_left]
  rfl

end MerklePatriciaTrie

end Nocostcoin
