import Mathlib.Data.List.ReduceOption
import Nocostcoin.Trie.Sites

/-!
# The node table as a store

Whatever keys are inserted, an insertion only ever adds nodes, each under its own hash and after its
children, so every hash that a stored node names is stored. The walks of `get_at` and `insert_at` meet no
missing node, and where no two nodes have one hash an old root reads as it did.
-/

namespace Nocostcoin

namespace MerklePatriciaTrie

variable {crypto : Crypto} {nodes nodes' : Nodes}

/-- The hashes by which a node names its children. -/
def Node.children : Node → List String
  | leaf _ _ => []
  | branch children _ => children.toList.reduceOption
  | extension _ child => [child]

/-- Every node stands under its own hash and names stored nodes, and extensions have paths. -/
structure Closed (crypto : Crypto) (nodes : Nodes) : Prop where
  own : ∀ hash node, nodes.lookup hash = some node → node.hash crypto = hash
  children : ∀ hash node, nodes.lookup hash = some node → ∀ child ∈ node.children, child ∈ nodes
  paths : ∀ hash path child, nodes.lookup hash = some (.extension path child) → path ≠ []

/-- A table and a hash in it, reached from a table by entering nodes. -/
structure Adds (crypto : Crypto) (nodes : Nodes) (entered : Nodes × String) : Prop where
  closed : Closed crypto entered.1
  grows : ∀ hash ∈ nodes, hash ∈ entered.1
  root : entered.2 ∈ entered.1

/-- The empty table is closed. -/
theorem closed_empty (crypto : Crypto) : Closed crypto ∅ where
  own _ _ h := absurd h (by simp)
  children _ _ h := absurd h (by simp)
  paths _ _ _ h := absurd h (by simp)

/-- A child of a branch. -/
theorem Node.mem_children_branch {children : Children} {value : Option Bytes} {child : String} :
    child ∈ (Node.branch children value).children ↔ some child ∈ children := by
  rw [Node.children, List.reduceOption_mem_iff, Vector.mem_toList_iff]

/-- A child of a stored branch is stored. -/
theorem Closed.child {hash child : String} {children : Children} {value : Option Bytes} {i : ℕ}
    (h : Closed crypto nodes) (hnode : nodes.lookup hash = some (.branch children value)) (hi : i < 16)
    (hchild : children[i] = some child) : child ∈ nodes := by
  apply h.children hash _ hnode
  rw [Node.mem_children_branch, ← hchild]
  exact Vector.getElem_mem hi

/-- What was in the table before still is. -/
theorem Adds.after {entered : Nodes × String} (h : Adds crypto nodes' entered)
    (hgrows : ∀ hash ∈ nodes, hash ∈ nodes') : Adds crypto nodes entered :=
  ⟨h.closed, fun hash hhash => h.grows hash (hgrows hash hhash), h.root⟩

/-- A node is entered after its children. -/
theorem Closed.adds_store (h : Closed crypto nodes) {node : Node} (hchildren : ∀ child ∈ node.children, child ∈ nodes)
    (hpath : ∀ path child, node = .extension path child → path ≠ []) :
    Adds crypto nodes (store crypto nodes node) := by
  have hgrows : ∀ hash ∈ nodes, hash ∈ (store crypto nodes node).1 :=
    fun hash hhash => Finmap.mem_insert.mpr (.inr hhash)
  have hcases : ∀ hash other, (store crypto nodes node).1.lookup hash = some other →
      (hash = node.hash crypto ∧ other = node) ∨ nodes.lookup hash = some other := by
    intro hash other hother
    unfold store at hother
    rw [FiniteMap.lookup_insert_ite] at hother
    split at hother
    · rename_i hown
      exact .inl ⟨hown, (Option.some.inj hother).symm⟩
    · exact .inr hother
  refine ⟨⟨?_, ?_, ?_⟩, hgrows, Finmap.mem_insert.mpr (.inl rfl)⟩
  · intro hash other hother
    rcases hcases hash other hother with ⟨rfl, rfl⟩ | hold
    · rfl
    · exact h.own hash other hold
  · intro hash other hother child hchild
    rcases hcases hash other hother with ⟨-, rfl⟩ | hold
    · exact hgrows child (hchildren child hchild)
    · exact hgrows child (h.children hash other hold child hchild)
  · intro hash path child hother
    rcases hcases hash _ hother with ⟨-, hnode⟩ | hold
    · exact hpath path child hnode.symm
    · exact h.paths hash path child hold

/-- A leaf has no children. -/
theorem Closed.adds_leaf (h : Closed crypto nodes) (key value : Bytes) :
    Adds crypto nodes (store crypto nodes (.leaf key value)) :=
  h.adds_store (fun _ hchild => absurd hchild List.not_mem_nil) (fun _ _ heq => Node.noConfusion heq)

/-- A branch is entered after its children. -/
theorem Closed.adds_branch (h : Closed crypto nodes) {children : Children} (value : Option Bytes)
    (hchildren : ∀ child, some child ∈ children → child ∈ nodes) :
    Adds crypto nodes (store crypto nodes (.branch children value)) :=
  h.adds_store (fun child hchild => hchildren child (Node.mem_children_branch.mp hchild))
    (fun _ _ heq => Node.noConfusion heq)

/-- An extension is entered after its child. -/
theorem Closed.adds_extension (h : Closed crypto nodes) {path : Bytes} {child : String} (hpath : path ≠ [])
    (hchild : child ∈ nodes) :
    Adds crypto nodes (store crypto nodes (.extension path child)) := by
  refine h.adds_store (fun other hother => ?_) (fun other _ heq => ?_)
  · rw [List.mem_singleton.mp hother]
    exact hchild
  · rw [← (Node.extension.inj heq).1]
    exact hpath

/-- After a child is set the children are the old ones and the new one. -/
theorem mem_of_mem_set {children : Children} {i : ℕ} {hash child : String} (hi : i < 16)
    (hchildren : ∀ child, some child ∈ children → child ∈ nodes) (hhash : hash ∈ nodes)
    (h : some child ∈ children.set i (some hash)) : child ∈ nodes := by
  rcases Vector.mem_or_eq_of_mem_set h with hold | hnew
  · exact hchildren child hold
  · rw [Option.some.inj hnew]
    exact hhash

/-- The same of `children[nibble] = Some(hash)`. -/
theorem mem_of_setChild {children children' : Children} {nibble : UInt8} {hash child : String}
    (hset : setChild children nibble hash = some children')
    (hchildren : ∀ child, some child ∈ children → child ∈ nodes) (hhash : hash ∈ nodes)
    (h : some child ∈ children') : child ∈ nodes := by
  unfold setChild at hset
  split at hset
  · rename_i hnibble
    rw [← Option.some.inj hset] at h
    exact mem_of_mem_set hnibble hchildren hhash h
  · contradiction

/-- A branch without children. -/
theorem not_mem_replicate {child : String} : some child ∉ (Vector.replicate 16 none : Children) := by
  intro h
  exact Option.some_ne_none child (Vector.eq_of_mem_replicate h)

/-- The fork over two children and the extension above it. -/
theorem Closed.adds_storeFork (h : Closed crypto nodes) {children : Children} (shared : Bytes)
    (hchildren : ∀ child, some child ∈ children → child ∈ nodes) :
    Adds crypto nodes (storeFork crypto nodes children shared) := by
  have hbranch := h.adds_branch none hchildren
  unfold storeFork
  dsimp only
  split
  · exact hbranch
  · rename_i hne
    have hpath : shared ≠ [] := fun hnil => hne (by rw [hnil]; rfl)
    exact (hbranch.closed.adds_extension hpath hbranch.root).after hbranch.grows

/-- The leaf of one key at a fork. -/
theorem Closed.adds_forkLeaf (h : Closed crypto nodes) {children children' : Children} {key value : Bytes} {common : ℕ}
    (hchildren : ∀ child, some child ∈ children → child ∈ nodes)
    (hfork : forkLeaf crypto nodes children key common value = some (nodes', children')) :
    Closed crypto nodes' ∧ (∀ hash ∈ nodes, hash ∈ nodes') ∧
      ∀ child, some child ∈ children' → child ∈ nodes' := by
  unfold forkLeaf at hfork
  split at hfork
  · obtain ⟨rfl, rfl⟩ := Prod.mk.inj (Option.some.inj hfork)
    exact ⟨h, fun _ hhash => hhash, hchildren⟩
  · rename_i nibble rest hdrop
    have hleaf := h.adds_leaf rest value
    obtain ⟨set, hset, hsome⟩ := Option.bind_eq_some_iff.mp hfork
    obtain ⟨rfl, rfl⟩ := Prod.mk.inj (Option.some.inj hsome)
    exact ⟨hleaf.closed, hleaf.grows, fun child => mem_of_setChild hset
      (fun child hchild => hleaf.grows child (hchildren child hchild)) hleaf.root⟩

/-- Splitting a leaf only adds nodes. -/
theorem Closed.adds_splitLeaf (h : Closed crypto nodes) {leafKey leafValue newKey newValue : Bytes}
    {entered : Nodes × String}
    (hsplit : splitLeaf crypto nodes leafKey leafValue newKey newValue = some entered) :
    Adds crypto nodes entered := by
  obtain ⟨⟨nodes₁, children₁⟩, hfirst, hrest⟩ := Option.bind_eq_some_iff.mp hsplit
  obtain ⟨⟨nodes₂, children₂⟩, hsecond, hfork⟩ := Option.bind_eq_some_iff.mp hrest
  obtain ⟨h₁, hgrows₁, hchildren₁⟩ := h.adds_forkLeaf (fun _ hchild => absurd hchild not_mem_replicate) hfirst
  obtain ⟨h₂, hgrows₂, hchildren₂⟩ := h₁.adds_forkLeaf hchildren₁ hsecond
  rw [← Option.some.inj hfork]
  exact (h₂.adds_storeFork _ hchildren₂).after fun hash hhash => hgrows₂ hash (hgrows₁ hash hhash)

/-- Splitting an extension only adds nodes. -/
theorem Closed.adds_splitExtension (h : Closed crypto nodes) {extPath newKey newValue : Bytes} {extChild : String}
    {common : ℕ} {entered : Nodes × String} (hchild : extChild ∈ nodes)
    (hsplit : splitExtension crypto nodes extPath extChild newKey newValue common = some entered) :
    Adds crypto nodes entered := by
  obtain ⟨extNibble, -, hrest⟩ := Option.bind_eq_some_iff.mp hsplit
  have hremainder : Adds crypto nodes (storeRest crypto nodes (extPath.drop (common + 1)) extChild) := by
    unfold storeRest
    split
    · exact ⟨h, fun _ hhash => hhash, hchild⟩
    · rename_i hne
      exact h.adds_extension (fun hnil => hne (by rw [hnil]; rfl)) hchild
  obtain ⟨children, hset, hrest⟩ := Option.bind_eq_some_iff.mp hrest
  obtain ⟨newNibble, -, hrest⟩ := Option.bind_eq_some_iff.mp hrest
  have hleaf := (hremainder.closed.adds_leaf (newKey.drop (common + 1)) newValue).after hremainder.grows
  obtain ⟨children', hset', hfork⟩ := Option.bind_eq_some_iff.mp hrest
  rw [← Option.some.inj hfork]
  refine (hleaf.closed.adds_storeFork _ ?_).after hleaf.grows
  have hfirst : ∀ child, some child ∈ children →
      child ∈ (storeRest crypto nodes (extPath.drop (common + 1)) extChild).1 := fun child =>
    mem_of_setChild hset (fun _ hmem => absurd hmem not_mem_replicate) hremainder.root
  exact fun child => mem_of_setChild hset'
    (fun other hother => (hremainder.closed.adds_leaf _ _).grows other (hfirst other hother)) hleaf.root

/-- An insertion that completes only adds nodes. -/
theorem Closed.adds_insertAt {fuel : ℕ} {nodeHash : Option String} {path value : Bytes}
    {entered : Nodes × String} (h : Closed crypto nodes)
    (hinsert : insertAt crypto fuel nodes nodeHash path value = some entered) :
    Adds crypto nodes entered := by
  induction fuel generalizing nodeHash path entered with
  | zero => contradiction
  | succ fuel ih =>
    cases path with
    | nil =>
      rw [← Option.some.inj hinsert]
      exact h.adds_leaf [] value
    | cons nibble rest =>
      rw [insertAt] at hinsert
      dsimp only at hinsert
      cases hlookup : nodeHash.bind fun hash => nodes.lookup hash with
      | none =>
        rw [hlookup] at hinsert
        rw [← Option.some.inj hinsert]
        exact h.adds_leaf (nibble :: rest) value
      | some node =>
        obtain ⟨hash, rfl, hnode⟩ := Option.bind_eq_some_iff.mp hlookup
        rw [hlookup] at hinsert
        cases node with
        | leaf leafKey leafValue =>
          dsimp only at hinsert
          split at hinsert
          · rw [← Option.some.inj hinsert]
            exact h.adds_leaf (nibble :: rest) value
          · exact h.adds_splitLeaf hinsert
        | branch children branchValue =>
          have hstored : ∀ child, some child ∈ children → child ∈ nodes := fun child hchild =>
            h.children hash _ hnode child (Node.mem_children_branch.mpr hchild)
          dsimp only at hinsert
          split at hinsert
          · rw [← Option.some.inj hinsert]
            exact h.adds_branch (some value) hstored
          · split at hinsert
            · rename_i hnibble
              obtain ⟨below, hbelow, hsome⟩ := Option.bind_eq_some_iff.mp hinsert
              have hadds := ih hbelow
              rw [← Option.some.inj hsome]
              exact (hadds.closed.adds_branch branchValue fun child => mem_of_mem_set hnibble
                (fun other hother => hadds.grows other (hstored other hother)) hadds.root).after hadds.grows
            · contradiction
        | extension extPath child =>
          dsimp only at hinsert
          split at hinsert
          · obtain ⟨below, hbelow, hsome⟩ := Option.bind_eq_some_iff.mp hinsert
            have hadds := ih hbelow
            rw [← Option.some.inj hsome]
            exact (hadds.closed.adds_extension (h.paths hash extPath child hnode) hadds.root).after
              hadds.grows
          · exact h.adds_splitExtension (h.children hash _ hnode child (List.mem_singleton_self _)) hinsert

/-- `insert_at` without its last arm: a hash that is not in the table is an error. -/
def insertAtFound (crypto : Crypto) : ℕ → Nodes → Option String → Bytes → Bytes → Option (Nodes × String)
  | 0, _, _, _, _ => none
  | fuel + 1, nodes, nodeHash, path, value =>
    match path with
    | [] => some (store crypto nodes (.leaf [] value))
    | nibble :: rest =>
      match nodeHash with
      | none => some (store crypto nodes (.leaf path value))
      | some hash =>
        match nodes.lookup hash with
        | none => none
        | some (.leaf leafKey leafValue) =>
          if leafKey = path then some (store crypto nodes (.leaf path value))
          else splitLeaf crypto nodes leafKey leafValue path value
        | some (.branch children branchValue) =>
          if rest.isEmpty then some (store crypto nodes (.branch children (some value)))
          else if h : nibble.toNat < 16 then do
            let (nodes, childHash) ← insertAtFound crypto fuel nodes children[nibble.toNat] rest value
            some (store crypto nodes
              (.branch (children.set nibble.toNat (some childHash)) branchValue))
          else none
        | some (.extension extPath child) =>
          let common := commonPrefix extPath path
          if common = extPath.length then do
            let (nodes, newChild) ← insertAtFound crypto fuel nodes (some child) (path.drop common) value
            some (store crypto nodes (.extension extPath newChild))
          else splitExtension crypto nodes extPath child path value common

/-- In a closed table an insertion meets no missing node. -/
theorem Closed.insertAtFound_eq (h : Closed crypto nodes) (fuel : ℕ) {nodeHash : Option String}
    (hstored : ∀ hash, nodeHash = some hash → hash ∈ nodes) (path value : Bytes) :
    insertAtFound crypto fuel nodes nodeHash path value =
      insertAt crypto fuel nodes nodeHash path value := by
  induction fuel generalizing nodeHash path with
  | zero => rfl
  | succ fuel ih =>
    cases path with
    | nil => rfl
    | cons nibble rest =>
      cases nodeHash with
      | none => rfl
      | some hash =>
        obtain ⟨node, hnode⟩ := Finmap.mem_iff.mp (hstored hash rfl)
        rw [insertAtFound, insertAt, Option.bind_some, hnode]
        cases node with
        | leaf leafKey leafValue => rfl
        | branch children branchValue =>
          dsimp only
          split
          · rfl
          · split
            · rename_i hnibble
              rw [ih fun child hchild => h.child hnode hnibble hchild]
            · rfl
        | extension extPath child =>
          dsimp only
          split
          · rw [ih fun other hother => Option.some.inj hother ▸
              h.children hash _ hnode child (List.mem_singleton_self _)]
          · rfl

/-- A walk of `get_at` takes no more steps than its path has digits. -/
theorem Closed.getAt_fuel (h : Closed crypto nodes) {fuel fuel' : ℕ} (root : String) {path : Bytes}
    (hfuel : path.length < fuel) (hfuel' : path.length < fuel') :
    getAt fuel nodes root path = getAt fuel' nodes root path := by
  induction fuel generalizing fuel' root path with
  | zero => exact absurd hfuel (Nat.not_lt_zero _)
  | succ fuel ih =>
    obtain ⟨fuel', rfl⟩ := Nat.exists_eq_succ_of_ne_zero (Nat.ne_zero_of_lt hfuel')
    rw [getAt, getAt]
    cases hnode : nodes.lookup root with
    | none => rfl
    | some node =>
      cases node with
      | leaf key value => rfl
      | branch children value =>
        cases path with
        | nil => rfl
        | cons nibble rest =>
          dsimp only
          split
          · split
            · rfl
            · rename_i child hchild
              exact ih child (Nat.lt_of_succ_lt_succ hfuel) (Nat.lt_of_succ_lt_succ hfuel')
          · rfl
      | extension extPath child =>
        dsimp only
        split
        · rename_i hon
          have hpositive := List.length_pos_iff.mpr (h.paths root extPath child hnode)
          have hle := hon.length_le
          apply ih child <;> rw [List.length_drop] <;> omega
        · rfl

/-- A walk along nibbles ends with an answer. -/
theorem Closed.exists_getAt (h : Closed crypto nodes) {fuel : ℕ} (root : String) {path : Bytes}
    (hpath : IsNibbles path) (hfuel : path.length < fuel) :
    ∃ found, getAt fuel nodes root path = some found := by
  induction fuel generalizing root path with
  | zero => exact absurd hfuel (Nat.not_lt_zero _)
  | succ fuel ih =>
    rw [getAt]
    cases hnode : nodes.lookup root with
    | none => exact ⟨_, rfl⟩
    | some node =>
      cases node with
      | leaf key value => exact ⟨_, rfl⟩
      | branch children value =>
        cases path with
        | nil => exact ⟨_, rfl⟩
        | cons nibble rest =>
          dsimp only
          rw [dif_pos (hpath nibble List.mem_cons_self)]
          split
          · exact ⟨_, rfl⟩
          · rename_i child hchild
            exact ih child hpath.tail (Nat.lt_of_succ_lt_succ hfuel)
      | extension extPath child =>
        dsimp only
        split
        · rename_i hon
          have hpositive := List.length_pos_iff.mpr (h.paths root extPath child hnode)
          have hle := hon.length_le
          apply ih child (hpath.drop extPath.length)
          rw [List.length_drop]
          omega
        · exact ⟨_, rfl⟩

/-- A walk from a stored root reads the same where all of a closed table was kept. -/
theorem Closed.getAt_kept (h : Closed crypto nodes) (hkept : Kept nodes nodes') {root : String}
    (hroot : root ∈ nodes) (fuel : ℕ) (path : Bytes) :
    getAt fuel nodes' root path = getAt fuel nodes root path := by
  induction fuel generalizing root path with
  | zero => rfl
  | succ fuel ih =>
    obtain ⟨node, hnode⟩ := Finmap.mem_iff.mp hroot
    rw [getAt, getAt, hnode, hkept root node hnode]
    cases node with
    | leaf key value => rfl
    | branch children value =>
      cases path with
      | nil => rfl
      | cons nibble rest =>
        dsimp only
        split
        · rename_i hnibble
          split
          · rfl
          · rename_i child hchild
            exact ih (h.child hnode hnibble hchild) rest
        · rfl
    | extension extPath child =>
      dsimp only
      split
      · exact ih (h.children root _ hnode child (List.mem_singleton_self _)) _
      · rfl

/-- A closed table with its root in it. -/
structure Whole (crypto : Crypto) (trie : MerklePatriciaTrie) : Prop where
  closed : Closed crypto trie.nodes
  root : ∀ root, trie.root = some root → root ∈ trie.nodes

/-- The new trie is whole. -/
theorem whole_new (crypto : Crypto) : Whole crypto new where
  closed := closed_empty crypto
  root _ h := by cases h

/-- Insertions that complete keep the trie whole and every hash in its table. -/
theorem Whole.insertAll {trie trie' : MerklePatriciaTrie} (h : Whole crypto trie)
    {entries : List (Bytes × Bytes)} (hrun : insertAll crypto trie entries = some trie') :
    Whole crypto trie' ∧ ∀ hash ∈ trie.nodes, hash ∈ trie'.nodes := by
  induction entries generalizing trie with
  | nil =>
    rw [← Option.some.inj hrun]
    exact ⟨h, fun _ hhash => hhash⟩
  | cons entry rest ih =>
    rw [insertAll_cons] at hrun
    obtain ⟨reached, hinsert, hrest⟩ := Option.bind_eq_some_iff.mp hrun
    obtain ⟨entered, hat, hsome⟩ := Option.bind_eq_some_iff.mp hinsert
    have hadds := h.closed.adds_insertAt hat
    rw [← Option.some.inj hsome] at hrest
    have hwhole : Whole crypto ⟨entered.1, some entered.2⟩ :=
      ⟨hadds.closed, fun root hroot => Option.some.inj hroot ▸ hadds.root⟩
    obtain ⟨hwhole', hgrows⟩ := ih hwhole hrest
    exact ⟨hwhole', fun hash hhash => hgrows hash (hadds.grows hash hhash)⟩

/-- The nodes in the tables that a sequence of insertions goes through. -/
def nodesOfTables (crypto : Crypto) (entries : List (Bytes × Bytes)) : Set Node :=
  {node | ∃ before trie hash, before <+: entries ∧ MerklePatriciaTrie.insertAll crypto new before = some trie ∧
    trie.nodes.lookup hash = some node}

/-- What a trie is after insertions: closed, with walks that end and meet no missing node, and with every
earlier root readable as it was. -/
structure Durable (crypto : Crypto) (entries : List (Bytes × Bytes)) (trie : MerklePatriciaTrie) : Prop where
  closed : Closed crypto trie.nodes
  /-- More steps than the path has digits change nothing. -/
  ends : ∀ root path fuel, path.length < fuel →
    getAt fuel trie.nodes root path = getAt (path.length + 1) trie.nodes root path
  /-- The walk of a path of nibbles is in bounds. -/
  reads : ∀ root path, IsNibbles path → (getAt (path.length + 1) trie.nodes root path).isSome = true
  /-- No insertion of the sequence, and none after it, takes the arm for a missing node. -/
  found : ∀ before earlier key value, before <+: entries →
    MerklePatriciaTrie.insertAll crypto new before = some earlier →
      insertAtFound crypto ((toNibbles key).length + 1) earlier.nodes earlier.root (toNibbles key) value =
        insertAt crypto ((toNibbles key).length + 1) earlier.nodes earlier.root (toNibbles key) value
  /-- A root of an earlier trie of the sequence reads as it did. -/
  kept : ∀ before earlier root path, before <+: entries →
    MerklePatriciaTrie.insertAll crypto new before = some earlier → earlier.root = some root →
      getAt (path.length + 1) trie.nodes root path = getAt (path.length + 1) earlier.nodes root path

/-- Insertions of keys of any content and lengths that complete leave a durable trie, if `Node::hash` is
injective on the nodes of their tables. -/
theorem durable_of_insertAll (crypto : Crypto) {entries : List (Bytes × Bytes)} {trie : MerklePatriciaTrie}
    (hrun : insertAll crypto new entries = some trie)
    (hinjective : Set.InjOn (Node.hash crypto) (nodesOfTables crypto entries)) :
    Durable crypto entries trie := by
  have hwhole := ((whole_new crypto).insertAll hrun).1
  refine ⟨hwhole.closed, ?_, ?_, ?_, ?_⟩
  · intro root path fuel hfuel
    exact hwhole.closed.getAt_fuel root hfuel (Nat.lt_succ_self _)
  · intro root path hpath
    obtain ⟨found, hfound⟩ := hwhole.closed.exists_getAt root hpath (Nat.lt_succ_self _)
    rw [hfound]
    rfl
  · intro before earlier key value _ hearlier
    have hwholeBefore := ((whole_new crypto).insertAll hearlier).1
    exact hwholeBefore.closed.insertAtFound_eq _ hwholeBefore.root _ value
  · intro before earlier root path hbefore hearlier hroot
    have hwholeBefore := ((whole_new crypto).insertAll hearlier).1
    have hkept : Kept earlier.nodes trie.nodes := by
      obtain ⟨after, rfl⟩ := hbefore
      have hlater : MerklePatriciaTrie.insertAll crypto earlier after = some trie := by
        unfold MerklePatriciaTrie.insertAll at hrun hearlier ⊢
        rw [List.foldlM_append, hearlier] at hrun
        exact hrun
      intro hash node hnode
      have hgrown := (hwholeBefore.insertAll hlater).2 hash (Finmap.mem_of_lookup_eq_some hnode)
      obtain ⟨now, hnow⟩ := Finmap.mem_iff.mp hgrown
      have hsame : now.hash crypto = node.hash crypto :=
        (hwhole.closed.own hash now hnow).trans (hwholeBefore.closed.own hash node hnode).symm
      rw [hnow, hinjective ⟨_, trie, hash, List.prefix_refl _, hrun, hnow⟩
        ⟨before, earlier, hash, List.prefix_append _ _, hearlier, hnode⟩ hsame]
    exact hwholeBefore.closed.getAt_kept hkept (hwholeBefore.root root hroot) _ path

/-- Two keys under an extension, and a key that splits it. -/
def nestedEntries : List (Bytes × Bytes) :=
  [([0x11, 0x10], [1]), ([0x11, 0x20], [2]), ([0x13, 0x30], [3])]

/-- The root over the first two keys reads as it did after the third. -/
theorem durable_nested :
    ∃ trie, insertAll Crypto.plain new nestedEntries = some trie ∧
      Durable Crypto.plain nestedEntries trie := by
  have hagree : ∀ trie ∈ nestedEntries.inits.filterMap (insertAll Crypto.plain new),
      ∀ trie' ∈ nestedEntries.inits.filterMap (insertAll Crypto.plain new), ∀ hash ∈ trie.nodes.keys,
        trie'.nodes.lookup hash = none ∨ trie'.nodes.lookup hash = trie.nodes.lookup hash := by
    decide +kernel
  have hcompletes : (insertAll Crypto.plain new nestedEntries).isSome = true := by decide +kernel
  obtain ⟨trie, hrun⟩ := Option.isSome_iff_exists.mp hcompletes
  refine ⟨trie, hrun, durable_of_insertAll Crypto.plain hrun ?_⟩
  rintro node ⟨before, earlier, hash, hbefore, hearlier, hnode⟩ node'
    ⟨before', earlier', hash', hbefore', hearlier', hnode'⟩ hsame
  have hown := ((whole_new Crypto.plain).insertAll hearlier).1.closed.own hash node hnode
  have hown' := ((whole_new Crypto.plain).insertAll hearlier').1.closed.own hash' node' hnode'
  rw [← hown', ← hsame, hown] at hnode'
  have hmem := List.mem_filterMap.mpr ⟨before, (List.mem_inits _ _).mpr hbefore, hearlier⟩
  have hmem' := List.mem_filterMap.mpr ⟨before', (List.mem_inits _ _).mpr hbefore', hearlier'⟩
  rcases hagree earlier hmem earlier' hmem' hash
    (Finmap.mem_keys.mpr (Finmap.mem_of_lookup_eq_some hnode)) with hnone | heq
  · exact absurd (hnone.symm.trans hnode') (Option.some_ne_none _).symm
  · exact Option.some.inj (hnode.symm.trans (heq.symm.trans hnode'))

end MerklePatriciaTrie

end Nocostcoin
