import Nocostcoin.Trie.Tree

/-!
# Walks through the node table follow the tree

When a table stores a tree, `insert_at` stores the tree after the insertion and `get_at` reads what
the tree holds. Nodes are told apart by their hashes; this is asked of the nodes that occur alone.
-/

namespace Nocostcoin

namespace MerklePatriciaTrie

variable {crypto : Crypto}

/-- The hash of a branch. -/
theorem hashOf_branch (children : UInt8 → Tree) (value : Option Bytes) :
    hashOf crypto (.branch children value) =
      some ((Node.branch (hashes crypto children) value).hash crypto) := rfl

/-- The root node of an extension. -/
theorem nodeOf_extension {extPath : Bytes} {child : Tree} {root : String}
    (hroot : hashOf crypto child = some root) :
    nodeOf crypto (.extension extPath child) = some (.extension extPath root) := by
  obtain ⟨node, hnode, rfl⟩ := Option.map_eq_some_iff.mp hroot
  rw [nodeOf, hnode]
  rfl

/-- Proper trees that are not empty have a hash. -/
theorem hashOf_isSome (crypto : Crypto) {tree : Tree} (hproper : Proper tree) (hsome : tree ≠ .empty) :
    ∃ root, hashOf crypto tree = some root := by
  obtain ⟨node, hnode⟩ := nodeOf_isSome crypto hproper hsome
  exact ⟨_, by rw [hashOf, hnode, Option.map_some]⟩

/-- A branch over a child that was entered. -/
theorem Enters.branch {known : List Node} (hfree : CollisionFree crypto known) {nodes : Nodes}
    {entered : Nodes × String} {children : UInt8 → Tree} {held : Option Bytes} {nibble : UInt8}
    {child : Tree} (h : Enters crypto known nodes entered child) (hnibble : nibble.toNat < 16)
    (hbelow : ∀ digit : UInt8, digit.toNat < 16 → Stored crypto nodes (children digit))
    (hnode : Node.branch (hashes crypto (Function.update children nibble child)) held ∈ known) :
    Enters crypto known nodes
      (store crypto entered.1
        (.branch ((hashes crypto children).set nibble.toNat (some entered.2)) held))
      (.branch (Function.update children nibble child) held) := by
  have hstored : ∀ digit : UInt8, digit.toNat < 16 →
      Stored crypto entered.1 (Function.update children nibble child digit) := by
    intro digit hdigit
    rw [Function.update_apply]
    split
    · exact h.stored
    · exact (hbelow digit hdigit).kept h.kept
  have hbranch := enters_branch hfree h.table hstored hnode
  rw [hashes_update _ hnibble, h.root] at hbranch
  exact hbranch.after h.kept

/-- An insertion that meets a leaf. -/
theorem insertAt_leaf_tree {known : List Node} (hfree : CollisionFree crypto known) {fuel : ℕ}
    {nodes : Nodes} (htable : TableOf crypto known nodes) {key old path value : Bytes} {tree' : Tree}
    (hkey : IsNibbles key) (hstored : Stored crypto nodes (.leaf key old)) (hpath : IsNibbles path)
    (hinsert : insertTree (.leaf key old) path value = some tree')
    (hknown : ∀ node ∈ nodesOf crypto tree', node ∈ known) :
    ∃ entered, insertAt crypto (fuel + 1) nodes (hashOf crypto (.leaf key old)) path value =
        some entered ∧ Enters crypto known nodes entered tree' := by
  have hnode := hstored _ (List.mem_singleton_self _)
  rw [insertTree] at hinsert
  split at hinsert
  · rename_i heq
    obtain rfl := Option.some.inj hinsert
    refine ⟨_, ?_, enters_leaf hfree htable (hknown _ (List.mem_singleton_self _))⟩
    cases path with
    | nil => rfl
    | cons nibble rest =>
      rw [insertAt, hashOf, nodeOf, Option.map_some, Option.bind_some, hnode]
      exact if_pos heq
  · rename_i hne
    obtain ⟨⟨shared, ⟨x, rest⟩, y, newRest⟩, hparted, rfl⟩ := Option.map_eq_some_iff.mp hinsert
    obtain ⟨hxy, rfl, rfl⟩ := RadixTree.of_part hparted
    have hx : x.toNat < 16 := hkey.of_append x List.mem_cons_self
    have hy : y.toNat < 16 := hpath.of_append y List.mem_cons_self
    obtain ⟨entered, hsplit, henters⟩ := enters_splitLeaf hfree htable hxy hx hy hknown
    refine ⟨entered, ?_, henters⟩
    obtain ⟨nibble, below, hcons⟩ := List.exists_cons_of_ne_nil
      (List.append_ne_nil_of_right_ne_nil shared (List.cons_ne_nil y newRest))
    rw [hcons] at hne hsplit ⊢
    rw [insertAt, hashOf, nodeOf, Option.map_some, Option.bind_some, hnode]
    exact (if_neg hne).trans hsplit

/-- A key that leaves the path of an extension splits the extension. -/
theorem splitExtension_tree {known : List Node} (hfree : CollisionFree crypto known)
    {nodes : Nodes} (htable : TableOf crypto known nodes) {extPath path value : Bytes}
    {child tree' : Tree} {root : String} (hext : IsNibbles extPath) (hpath : IsNibbles path)
    (hstored : Stored crypto nodes child) (hroot : hashOf crypto child = some root)
    (hoff : ¬ extPath <+: path)
    (hinsert : insertTree (.extension extPath child) path value = some tree')
    (hknown : ∀ node ∈ nodesOf crypto tree', node ∈ known) :
    ∃ entered, splitExtension crypto nodes extPath root path value (commonPrefix extPath path) =
        some entered ∧ Enters crypto known nodes entered tree' := by
  rw [insertTree, if_neg hoff] at hinsert
  obtain ⟨⟨shared, ⟨x, extRest⟩, y, newRest⟩, hparted, rfl⟩ := Option.map_eq_some_iff.mp hinsert
  obtain ⟨hxy, rfl, rfl⟩ := RadixTree.of_part hparted
  have hx : x.toNat < 16 := hext.of_append x List.mem_cons_self
  have hy : y.toNat < 16 := hpath.of_append y List.mem_cons_self
  exact enters_splitExtension hfree htable hxy hx hy hstored hroot hknown

/-- An insertion that the tree allows enters the tree after it. -/
theorem insertAt_tree {known : List Node} (hfree : CollisionFree crypto known) {fuel : ℕ}
    {nodes : Nodes} (htable : TableOf crypto known nodes) {tree tree' : Tree} {path value : Bytes}
    (hproper : Proper tree) (hstored : Stored crypto nodes tree) (hpath : IsNibbles path)
    (hfuel : path.length < fuel) (hinsert : insertTree tree path value = some tree')
    (hknown : ∀ node ∈ nodesOf crypto tree', node ∈ known) :
    ∃ entered, insertAt crypto fuel nodes (hashOf crypto tree) path value = some entered ∧
      Enters crypto known nodes entered tree' := by
  induction hproper generalizing fuel path tree' with
  | empty =>
    obtain rfl := Option.some.inj hinsert
    obtain ⟨fuel, rfl⟩ := Nat.exists_eq_add_of_lt hfuel
    refine ⟨_, ?_, enters_leaf hfree htable (hknown _ (List.mem_singleton_self _))⟩
    cases path with
    | nil => rfl
    | cons nibble rest => rfl
  | @leaf key old hkey =>
    obtain ⟨fuel, rfl⟩ := Nat.exists_eq_add_of_lt hfuel
    exact insertAt_leaf_tree hfree htable hkey hstored hpath hinsert hknown
  | @branch children held hout hchildren ih =>
    obtain ⟨hown, hbelow⟩ := stored_branch_iff.mp hstored
    cases path with
    | nil => exact absurd hinsert (by simp [insertTree])
    | cons nibble rest =>
      have hnibble := hpath nibble List.mem_cons_self
      obtain ⟨fuel, rfl⟩ := Nat.exists_eq_add_of_lt hfuel
      rw [insertAt, hashOf_branch, Option.bind_some, hown]
      dsimp only
      rw [insertTree] at hinsert
      split at hinsert
      · rename_i hend
        obtain rfl := Option.some.inj hinsert
        rw [hend, if_pos List.isEmpty_nil]
        exact ⟨_, rfl, enters_branch hfree htable hbelow
          (hknown _ (mem_nodesOf_branch.mpr (.inl rfl)))⟩
      · rename_i hne
        obtain ⟨child, hchild, rfl⟩ := Option.map_eq_some_iff.mp hinsert
        have hknownChild : ∀ node ∈ nodesOf crypto child, node ∈ known := by
          intro node hnode
          refine hknown node (mem_nodesOf_branch.mpr (.inr ⟨nibble, hnibble, ?_⟩))
          rwa [Function.update_self]
        have hbound : rest.length < (nibble :: rest).length + fuel := by
          rw [List.length_cons]
          omega
        obtain ⟨entered, hat, henters⟩ := ih nibble (hbelow nibble hnibble) hpath.tail hbound hchild
          hknownChild
        rw [if_neg (by rwa [List.isEmpty_iff]), dif_pos hnibble, getElem_hashes_toNat _ hnibble, hat]
        exact ⟨_, rfl, henters.branch hfree hnibble hbelow
          (hknown _ (mem_nodesOf_branch.mpr (.inl rfl)))⟩
  | @extension extPath child hne hext hsome hchild ih =>
    obtain ⟨root, hroot⟩ := hashOf_isSome crypto hchild hsome
    obtain ⟨hown, hbelow⟩ := (stored_extension_iff hroot).mp hstored
    have hhash : hashOf crypto (.extension extPath child) =
        some ((Node.extension extPath root).hash crypto) := by
      rw [hashOf, nodeOf_extension hroot, Option.map_some]
    cases path with
    | nil =>
      have hnot : ¬ extPath <+: [] := fun h => hne (List.prefix_nil.mp h)
      rw [insertTree, if_neg hnot] at hinsert
      obtain ⟨parts, hparted, -⟩ := Option.map_eq_some_iff.mp hinsert
      exact absurd (RadixTree.of_part hparted).2.2 (by simp)
    | cons nibble rest =>
      obtain ⟨fuel, rfl⟩ := Nat.exists_eq_add_of_lt hfuel
      rw [insertAt, hhash, Option.bind_some, hown]
      dsimp only
      by_cases hon : extPath <+: nibble :: rest
      · rw [insertTree, if_pos hon] at hinsert
        rw [if_pos (commonPrefix_eq_length_iff.mpr hon), commonPrefix_eq_length_iff.mpr hon]
        obtain ⟨below, hpathEq⟩ := hon
        obtain ⟨child', hchild', rfl⟩ := Option.map_eq_some_iff.mp hinsert
        have hpositive := List.length_pos_iff.mpr hne
        have hlength := congrArg List.length hpathEq
        rw [List.length_append] at hlength
        rw [← hpathEq] at hpath hchild' ⊢
        rw [List.drop_left] at hchild' ⊢
        have hbound : below.length < (extPath ++ below).length + fuel := by
          rw [List.length_append]
          omega
        obtain ⟨entered, hat, henters⟩ := ih hbelow hpath.of_append hbound hchild'
          fun node hnode => hknown node (mem_nodesOf_extension hnode)
        rw [← hroot, hat]
        exact ⟨_, rfl, henters.extension hfree (hknown _ (extension_mem_nodesOf henters.root))⟩
      · rw [if_neg fun heq => hon (commonPrefix_eq_length_iff.mp heq)]
        exact splitExtension_tree hfree htable hext hpath hbelow hroot hon hinsert hknown

/-- A walk for a key reads what the tree holds. -/
theorem getAt_tree {nodes : Nodes} {tree : Tree} {root : String} {fuel : ℕ} {path : Bytes}
    (hproper : Proper tree) (hstored : Stored crypto nodes tree) (hroot : hashOf crypto tree = some root)
    (hpath : IsNibbles path) (hfuel : path.length < fuel) :
    getAt fuel nodes root path = some (tree.get path) := by
  induction hproper generalizing root fuel path with
  | empty => exact absurd hroot (by simp [hashOf, nodeOf])
  | @leaf key value hkey =>
    obtain ⟨fuel, rfl⟩ := Nat.exists_eq_add_of_lt hfuel
    obtain rfl := Option.some.inj hroot
    rw [getAt, hstored _ (List.mem_singleton_self _)]
    rfl
  | @branch children value hout hchildren ih =>
    obtain ⟨hown, hbelow⟩ := stored_branch_iff.mp hstored
    obtain ⟨fuel, rfl⟩ := Nat.exists_eq_add_of_lt hfuel
    rw [hashOf_branch] at hroot
    obtain rfl := Option.some.inj hroot
    rw [getAt, hown]
    dsimp only
    cases path with
    | nil => rfl
    | cons nibble rest =>
      have hnibble := hpath nibble List.mem_cons_self
      dsimp only
      rw [dif_pos hnibble, getElem_hashes_toNat _ hnibble, RadixTree.get_branch_cons]
      cases hchild : hashOf crypto (children nibble) with
      | none =>
        have hempty : children nibble = .empty := by
          by_contra hsome
          obtain ⟨child, hhash⟩ := hashOf_isSome crypto (hchildren nibble) hsome
          rw [hchild] at hhash
          contradiction
        rw [hempty]
        rfl
      | some child =>
        have hbound : rest.length < (nibble :: rest).length + fuel := by
          rw [List.length_cons]
          omega
        exact ih nibble (hbelow nibble hnibble) hchild hpath.tail hbound
  | @extension extPath child hne hext hsome hchild ih =>
    obtain ⟨below, hbelow⟩ := hashOf_isSome crypto hchild hsome
    obtain ⟨hown, hstoredChild⟩ := (stored_extension_iff hbelow).mp hstored
    obtain ⟨fuel, rfl⟩ := Nat.exists_eq_add_of_lt hfuel
    rw [hashOf, nodeOf_extension hbelow, Option.map_some] at hroot
    obtain rfl := Option.some.inj hroot
    rw [getAt, hown]
    dsimp only
    by_cases hon : extPath <+: path
    · obtain ⟨rest, rfl⟩ := hon
      have hpositive := List.length_pos_iff.mpr hne
      have hbound : rest.length < (extPath ++ rest).length + fuel := by
        rw [List.length_append]
        omega
      rw [if_pos (List.prefix_append extPath rest), List.drop_left, RadixTree.get_extension_append]
      exact ih hstoredChild hbelow hpath.of_append hbound
    · rw [if_neg hon, RadixTree.get_extension_off child hon]

/-- A skipped path of nibbles above a proper tree. -/
theorem Proper.skip {shared : Bytes} {child : Tree} (hshared : IsNibbles shared)
    (hsome : child ≠ .empty) (h : Proper child) : Proper (.skip shared child) := by
  cases shared with
  | nil => exact h
  | cons digit shared => exact .extension (List.cons_ne_nil _ _) hshared hsome h

/-- A branch over two proper trees under nibbles. -/
theorem Proper.pair {x y : UInt8} {first second : Tree} (hx : x.toNat < 16) (hy : y.toNat < 16)
    (hfirst : Proper first) (hsecond : Proper second) :
    Proper (.branch (RadixTree.pair x first y second) none) := by
  constructor
  · intro digit hdigit
    have hnotx : digit ≠ x := fun heq => Nat.not_le_of_lt hx (heq ▸ hdigit)
    have hnoty : digit ≠ y := fun heq => Nat.not_le_of_lt hy (heq ▸ hdigit)
    rw [RadixTree.pair, Function.update_of_ne hnoty, Function.update_of_ne hnotx]
  · intro digit
    rw [RadixTree.pair, Function.update_apply, Function.update_apply]
    split
    · exact hsecond
    · split
      · exact hfirst
      · exact .empty

theorem IsNibbles.of_append_left {path rest : Bytes} (h : IsNibbles (path ++ rest)) : IsNibbles path :=
  fun digit hdigit => h digit (List.mem_append_left _ hdigit)

/-- An insertion keeps the tree proper. -/
theorem Proper.insert {tree tree' : Tree} {path value : Bytes} (h : Proper tree) (hpath : IsNibbles path)
    (hinsert : insertTree tree path value = some tree') : Proper tree' ∧ tree' ≠ .empty := by
  induction h generalizing path tree' with
  | empty =>
    obtain rfl := Option.some.inj hinsert
    exact ⟨.leaf hpath, fun heq => by cases heq⟩
  | @leaf key old hkey =>
    rw [insertTree] at hinsert
    split at hinsert
    · obtain rfl := Option.some.inj hinsert
      exact ⟨.leaf hpath, fun heq => by cases heq⟩
    · obtain ⟨⟨shared, ⟨x, rest⟩, y, newRest⟩, hparted, rfl⟩ := Option.map_eq_some_iff.mp hinsert
      obtain ⟨-, rfl, rfl⟩ := RadixTree.of_part hparted
      have hpair : Proper (.branch (RadixTree.pair x (.leaf rest old) y (.leaf newRest value)) none) :=
        .pair (hkey.of_append x List.mem_cons_self) (hpath.of_append y List.mem_cons_self)
          (.leaf hkey.of_append.tail) (.leaf hpath.of_append.tail)
      exact ⟨.skip hkey.of_append_left (fun heq => by cases heq) hpair, by cases shared <;> simp [RadixTree.skip]⟩
  | @branch children held hout hchildren ih =>
    cases path with
    | nil => exact absurd hinsert (by simp [insertTree])
    | cons nibble rest =>
      rw [insertTree] at hinsert
      split at hinsert
      · obtain rfl := Option.some.inj hinsert
        exact ⟨.branch hout hchildren, fun heq => by cases heq⟩
      · obtain ⟨child, hchild, rfl⟩ := Option.map_eq_some_iff.mp hinsert
        have hnibble := hpath nibble List.mem_cons_self
        refine ⟨.branch (fun digit hdigit => ?_) fun digit => ?_, fun heq => by cases heq⟩
        · have hother : digit ≠ nibble := fun heq => Nat.not_le_of_lt hnibble (heq ▸ hdigit)
          rw [Function.update_of_ne hother]
          exact hout digit hdigit
        · rw [Function.update_apply]
          split
          · exact (ih nibble hpath.tail hchild).1
          · exact hchildren digit
  | @extension extPath child hne hext hsome hchild ih =>
    rw [insertTree] at hinsert
    split at hinsert
    · obtain ⟨child', hchild', rfl⟩ := Option.map_eq_some_iff.mp hinsert
      obtain ⟨hproper', hsome'⟩ := ih (hpath.drop _) hchild'
      exact ⟨.extension hne hext hsome' hproper', fun heq => by cases heq⟩
    · obtain ⟨⟨shared, ⟨x, rest⟩, y, newRest⟩, hparted, rfl⟩ := Option.map_eq_some_iff.mp hinsert
      obtain ⟨-, rfl, rfl⟩ := RadixTree.of_part hparted
      have hpair : Proper (.branch (RadixTree.pair x (.skip rest child) y (.leaf newRest value)) none) :=
        .pair (hext.of_append x List.mem_cons_self) (hpath.of_append y List.mem_cons_self)
          (.skip hext.of_append.tail hsome hchild) (.leaf hpath.of_append.tail)
      exact ⟨.skip hext.of_append_left (fun heq => by cases heq) hpair, by cases shared <;> simp [RadixTree.skip]⟩

/-- Without collisions trees of one hash have one root node. -/
theorem nodeOf_eq_of_hashOf {known : List Node} (hfree : CollisionFree crypto known) {tree tree' : Tree}
    (hknown : ∀ node ∈ nodesOf crypto tree, node ∈ known)
    (hknown' : ∀ node ∈ nodesOf crypto tree', node ∈ known)
    (hsame : hashOf crypto tree = hashOf crypto tree') : nodeOf crypto tree = nodeOf crypto tree' := by
  rw [hashOf, hashOf] at hsame
  cases hnode : nodeOf crypto tree with
  | none =>
    rw [hnode, Option.map_none, eq_comm, Option.map_eq_none_iff] at hsame
    exact hsame.symm
  | some node =>
    rw [hnode, Option.map_some, eq_comm] at hsame
    obtain ⟨node', hnode', hhash⟩ := Option.map_eq_some_iff.mp hsame
    rw [hnode', hfree node (hknown node (mem_nodesOf_of_nodeOf hnode)) node'
      (hknown' node' (mem_nodesOf_of_nodeOf hnode')) hhash.symm]

/-- Without collisions the hash tells proper trees apart. -/
theorem Proper.eq_of_hashOf {known : List Node} (hfree : CollisionFree crypto known) {tree tree' : Tree}
    (h : Proper tree) (h' : Proper tree') (hknown : ∀ node ∈ nodesOf crypto tree, node ∈ known)
    (hknown' : ∀ node ∈ nodesOf crypto tree', node ∈ known)
    (hsame : hashOf crypto tree = hashOf crypto tree') : tree = tree' := by
  induction h generalizing tree' with
  | empty =>
    by_contra hsome
    obtain ⟨root, hroot⟩ := hashOf_isSome crypto h' (Ne.symm hsome)
    rw [← hsame] at hroot
    contradiction
  | @leaf key value hkey =>
    have hnode := nodeOf_eq_of_hashOf hfree hknown hknown' hsame
    cases h' with
    | empty => contradiction
    | leaf =>
      cases hnode
      rfl
    | branch => cases hnode
    | extension _ _ hsome hchild =>
      obtain ⟨root, hroot⟩ := hashOf_isSome crypto hchild hsome
      rw [nodeOf_extension hroot] at hnode
      cases hnode
  | @branch children value hout hchildren ih =>
    have hnode := nodeOf_eq_of_hashOf hfree hknown hknown' hsame
    cases h' with
    | empty | leaf => cases hnode
    | @branch children' value' hout' hchildren' =>
      obtain ⟨hhashes, rfl⟩ := Node.branch.inj (Option.some.inj hnode)
      have hchild : children = children' := by
        funext digit
        by_cases hdigit : digit.toNat < 16
        · refine ih digit (hchildren' digit)
            (fun node hmem => hknown node (mem_nodesOf_branch.mpr (.inr ⟨digit, hdigit, hmem⟩)))
            (fun node hmem => hknown' node (mem_nodesOf_branch.mpr (.inr ⟨digit, hdigit, hmem⟩))) ?_
          have hboth : (hashes crypto children)[digit.toNat] = (hashes crypto children')[digit.toNat] :=
            congrArg (fun v : Children => v[digit.toNat]) hhashes
          rwa [getElem_hashes_toNat _ hdigit, getElem_hashes_toNat _ hdigit] at hboth
        · rw [hout digit (Nat.le_of_not_lt hdigit), hout' digit (Nat.le_of_not_lt hdigit)]
      rw [hchild]
    | extension _ _ hsome hchild =>
      obtain ⟨root, hroot⟩ := hashOf_isSome crypto hchild hsome
      rw [nodeOf_extension hroot] at hnode
      cases hnode
  | @extension extPath child hne hext hsome hchild ih =>
    have hnode := nodeOf_eq_of_hashOf hfree hknown hknown' hsame
    obtain ⟨root, hroot⟩ := hashOf_isSome crypto hchild hsome
    rw [nodeOf_extension hroot] at hnode
    cases h' with
    | empty | leaf | branch => cases hnode
    | @extension extPath' child' hne' hext' hsome' hchild' =>
      obtain ⟨root', hroot'⟩ := hashOf_isSome crypto hchild' hsome'
      rw [nodeOf_extension hroot'] at hnode
      obtain ⟨rfl, rfl⟩ := Node.extension.inj (Option.some.inj hnode)
      rw [ih hchild' (fun node hmem => hknown node (mem_nodesOf_extension hmem))
        (fun node hmem => hknown' node (mem_nodesOf_extension hmem)) (hroot.trans hroot'.symm)]

end MerklePatriciaTrie

end Nocostcoin
