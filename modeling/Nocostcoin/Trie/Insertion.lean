import Nocostcoin.Trie.Refinement

/-!
# What an insertion changes

The tree stays forked, and an insertion changes what one path holds: that of its key, or, when there is a
branch one nibble above the end of the key, the path of this branch, whose value `insert_at` sets instead
of the child's. It completes for a key that neither continues nor starts another.
-/

namespace Nocostcoin

namespace MerklePatriciaTrie

/-- The path whose value an insertion sets. -/
def target (tree : Tree) (path : Bytes) : Bytes :=
  if tree.branchAt path.dropLast then path.dropLast else path

/-- The path passes by all leaves, and ends neither above nor below what the tree holds. -/
structure Clear (tree : Tree) (path : Bytes) : Prop where
  leaves : ∀ q, tree.get q ≠ none → tree.branchAt q = false → q <+: path → q = path
  held : ∀ q, tree.get q ≠ none → path <+: q → q = path

variable {tree tree' : Tree} {path value : Bytes}

/-- An insertion into a branch makes a branch. -/
theorem insertTree_branch {children : UInt8 → Tree} {held : Option Bytes}
    (h : insertTree (.branch children held) path value = some tree') :
    ∃ children' held', tree' = .branch children' held' := by
  cases path with
  | nil => exact absurd h (by simp [insertTree])
  | cons nibble rest =>
    rw [insertTree] at h
    split at h
    · exact ⟨_, _, (Option.some.inj h).symm⟩
    · obtain ⟨child, -, rfl⟩ := Option.map_eq_some_iff.mp h
      exact ⟨_, _, rfl⟩

/-- The target below a branch is that in the child. -/
theorem target_branch {children : UInt8 → Tree} {held : Option Bytes} {nibble : UInt8} {rest : Bytes}
    (hrest : rest ≠ []) :
    target (.branch children held) (nibble :: rest) = nibble :: target (children nibble) rest := by
  rw [target, target, List.dropLast_cons_of_ne_nil hrest, RadixTree.branchAt]
  split
  · rfl
  · rfl

/-- The target along an extension is that in the child. -/
theorem target_extension {extPath below : Bytes} {child : Tree} (hbelow : below ≠ []) :
    target (.extension extPath child) (extPath ++ below) = extPath ++ target child below := by
  rw [target, target, List.dropLast_append_of_ne_nil hbelow, RadixTree.branchAt_extension_append]
  split
  · rfl
  · rfl

/-- A key that leaves an extension is its own target. -/
theorem target_extension_off {extPath : Bytes} {child : Tree} (hoff : ¬ extPath <+: path) :
    target (.extension extPath child) path = path := by
  rw [target, RadixTree.branchAt_extension_off, if_neg Bool.false_ne_true]
  exact fun hle => hoff (hle.trans (List.dropLast_prefix _))

/-- The first insertion makes a leaf. -/
theorem get_insertTree_empty (hinsert : insertTree .empty path value = some tree') (q : Bytes) :
    tree'.get q = if q = target .empty path then some value else RadixTree.empty.get q := by
  obtain rfl := Option.some.inj hinsert
  rw [RadixTree.get_leaf, RadixTree.get_empty]
  simp only [target, RadixTree.branchAt, Bool.false_eq_true, if_false, eq_comm]

/-- An insertion that meets a leaf replaces it or forks it off. -/
theorem get_insertTree_leaf {key old : Bytes} (hinsert : insertTree (.leaf key old) path value = some tree')
    (q : Bytes) :
    tree'.get q = if q = target (.leaf key old) path then some value else (RadixTree.leaf key old).get q := by
  have htarget : target (.leaf key old) path = path := if_neg Bool.false_ne_true
  rw [insertTree] at hinsert
  rw [htarget]
  split at hinsert
  · rename_i heq
    obtain rfl := Option.some.inj hinsert
    rw [RadixTree.get_leaf, RadixTree.get_leaf, heq]
    by_cases hq : path = q
    · rw [if_pos hq, if_pos hq.symm]
    · rw [if_neg hq, if_neg (Ne.symm hq), if_neg hq]
  · obtain ⟨⟨shared, ⟨x, rest⟩, y, newRest⟩, hparted, rfl⟩ := Option.map_eq_some_iff.mp hinsert
    obtain ⟨hne, rfl, rfl⟩ := RadixTree.of_part hparted
    dsimp only
    rw [RadixTree.get_fork hne, RadixTree.get_skip_leaf, List.append_assoc]
    rfl

/-- A key that leaves the path of an extension is forked off there. -/
theorem get_insertTree_off {extPath : Bytes} {child : Tree} (hoff : ¬ extPath <+: path)
    (hinsert : insertTree (.extension extPath child) path value = some tree') (q : Bytes) :
    tree'.get q = if q = target (.extension extPath child) path then some value
      else (RadixTree.extension extPath child).get q := by
  rw [insertTree, if_neg hoff] at hinsert
  obtain ⟨⟨shared, ⟨x, rest⟩, y, newRest⟩, hparted, rfl⟩ := Option.map_eq_some_iff.mp hinsert
  rw [target_extension_off hoff]
  obtain ⟨hne, rfl, rfl⟩ := RadixTree.of_part hparted
  dsimp only
  rw [RadixTree.get_fork hne, RadixTree.get_skip_skip, List.append_assoc]
  cases shared with
  | nil => rfl
  | cons digit shared => rfl

/-- What changes in a child changes in the branch. -/
theorem get_update_child {children : UInt8 → Tree} {held : Option Bytes} {nibble : UInt8} {rest : Bytes}
    {child : Tree} (hrest : rest ≠ [])
    (hbelow : ∀ q, child.get q =
      if q = target (children nibble) rest then some value else (children nibble).get q) (q : Bytes) :
    (RadixTree.branch (Function.update children nibble child) held).get q =
      if q = target (.branch children held) (nibble :: rest) then some value
        else (RadixTree.branch children held).get q := by
  rw [target_branch hrest]
  cases q with
  | nil => rfl
  | cons digit q =>
    rw [RadixTree.get_branch_cons, RadixTree.get_branch_cons, Function.update_apply]
    by_cases hdigit : digit = nibble
    · rw [if_pos hdigit, hbelow, hdigit]
      simp only [List.cons.injEq, true_and]
    · rw [if_neg hdigit, if_neg fun heq => hdigit (List.cons.inj heq).1]

/-- What changes below an extension changes along it. -/
theorem get_extension_child {extPath below : Bytes} {child child' : Tree} (hne : below ≠ [])
    (hbelow : ∀ q, child'.get q = if q = target child below then some value else child.get q) (q : Bytes) :
    (RadixTree.extension extPath child').get q =
      if q = target (.extension extPath child) (extPath ++ below) then some value
        else (RadixTree.extension extPath child).get q := by
  rw [target_extension hne]
  by_cases hq : extPath <+: q
  · obtain ⟨q, rfl⟩ := hq
    simp only [RadixTree.get_extension_append, hbelow, List.append_cancel_left_eq]
  · rw [RadixTree.get_extension_off _ hq, RadixTree.get_extension_off _ hq, if_neg]
    rintro rfl
    exact hq (List.prefix_append _ _)

/-- An insertion changes what the tree holds under the target alone. -/
theorem get_insertTree (h : tree = .empty ∨ RadixTree.Forked tree)
    (hinsert : insertTree tree path value = some tree') (q : Bytes) :
    tree'.get q = if q = target tree path then some value else tree.get q := by
  cases h with
  | inl hempty =>
    subst hempty
    exact get_insertTree_empty hinsert q
  | inr hforked =>
    induction hforked generalizing path tree' q with
    | leaf => exact get_insertTree_leaf hinsert q
    | @branch children held _ _ _ _ _ _ ih =>
      cases path with
      | nil => exact absurd hinsert (by simp [insertTree])
      | cons nibble rest =>
        rw [insertTree] at hinsert
        split at hinsert
        · rename_i hend
          obtain rfl := Option.some.inj hinsert
          rw [hend]
          cases q with
          | nil => rfl
          | cons digit q => rfl
        · rename_i hrest
          obtain ⟨child, hchild, rfl⟩ := Option.map_eq_some_iff.mp hinsert
          apply get_update_child hrest
          intro below
          by_cases hempty : children nibble = .empty
          · rw [hempty] at hchild ⊢
            exact get_insertTree_empty hchild below
          · exact ih nibble hempty hchild below
    | @extension extPath children held _ _ ih =>
      by_cases hon : extPath <+: path
      · obtain ⟨below, rfl⟩ := hon
        rw [insertTree, if_pos (List.prefix_append extPath below), List.drop_left] at hinsert
        obtain ⟨child', hbelow, rfl⟩ := Option.map_eq_some_iff.mp hinsert
        have hne : below ≠ [] := by
          rintro rfl
          exact absurd hbelow (by simp [insertTree])
        exact get_extension_child hne (ih hbelow) q
      · exact get_insertTree_off hon hinsert q

/-- An insertion makes a forked tree. -/
theorem forked_insertTree (h : tree = .empty ∨ RadixTree.Forked tree)
    (hinsert : insertTree tree path value = some tree') : RadixTree.Forked tree' := by
  cases h with
  | inl hempty =>
    subst hempty
    obtain rfl := Option.some.inj hinsert
    exact .leaf
  | inr hforked =>
    induction hforked generalizing path tree' with
    | @leaf key old =>
      rw [insertTree] at hinsert
      split at hinsert
      · obtain rfl := Option.some.inj hinsert
        exact .leaf
      · obtain ⟨⟨shared, ⟨x, rest⟩, y, newRest⟩, hparted, rfl⟩ := Option.map_eq_some_iff.mp hinsert
        exact (RadixTree.Forked.pair (RadixTree.of_part hparted).1 .leaf .leaf).skip shared
    | @branch children held x y hne hx hy hchildren ih =>
      cases path with
      | nil => exact absurd hinsert (by simp [insertTree])
      | cons nibble rest =>
        rw [insertTree] at hinsert
        split at hinsert
        · obtain rfl := Option.some.inj hinsert
          exact .branch hne hx hy hchildren
        · obtain ⟨child, hchild, rfl⟩ := Option.map_eq_some_iff.mp hinsert
          have hforked : RadixTree.Forked child := by
            by_cases hempty : children nibble = .empty
            · rw [hempty] at hchild
              obtain rfl := Option.some.inj hchild
              exact .leaf
            · exact ih nibble hempty hchild
          have hkept : ∀ digit, children digit ≠ .empty →
              Function.update children nibble child digit ≠ .empty := by
            intro digit hdigit
            rw [Function.update_apply]
            split
            · exact hforked.ne_empty
            · exact hdigit
          apply RadixTree.Forked.branch hne (hkept x hx) (hkept y hy)
          intro digit hdigit
          rw [Function.update_apply] at hdigit ⊢
          split
          · exact hforked
          · rename_i hother
            rw [if_neg hother] at hdigit
            exact hchildren digit hdigit
    | @extension extPath children held hext hchild ih =>
      rw [insertTree] at hinsert
      split at hinsert
      · obtain ⟨child', hbelow, rfl⟩ := Option.map_eq_some_iff.mp hinsert
        have hforked := ih hbelow
        obtain ⟨children', held', rfl⟩ := insertTree_branch hbelow
        exact .extension hext hforked
      · obtain ⟨⟨shared, ⟨x, rest⟩, y, newRest⟩, hparted, rfl⟩ := Option.map_eq_some_iff.mp hinsert
        exact (RadixTree.Forked.pair (RadixTree.of_part hparted).1 (hchild.skip rest) .leaf).skip shared

/-- What is clear along an extension is clear below it. -/
theorem Clear.below {extPath below : Bytes} {child : Tree}
    (h : Clear (.extension extPath child) (extPath ++ below)) : Clear child below where
  leaves q hget hleaf hq := by
    apply List.append_cancel_left
    apply h.leaves (extPath ++ q)
    · rwa [RadixTree.get_extension_append]
    · rwa [RadixTree.branchAt_extension_append]
    · rwa [List.prefix_append_right_inj]
  held q hget hq := by
    apply List.append_cancel_left
    apply h.held (extPath ++ q)
    · rwa [RadixTree.get_extension_append]
    · rwa [List.prefix_append_right_inj]

/-- What is clear in a branch is clear in the child. -/
theorem Clear.child {children : UInt8 → Tree} {held : Option Bytes} {nibble : UInt8} {rest : Bytes}
    (h : Clear (.branch children held) (nibble :: rest)) : Clear (children nibble) rest where
  leaves q hget hleaf hq := by
    have hcons := h.leaves (nibble :: q) hget hleaf (List.cons_prefix_cons.mpr ⟨rfl, hq⟩)
    exact (List.cons.inj hcons).2
  held q hget hq := by
    have hcons := h.held (nibble :: q) hget (List.cons_prefix_cons.mpr ⟨rfl, hq⟩)
    exact (List.cons.inj hcons).2

/-- Above a forked branch nothing is clear. -/
theorem not_clear_nil {children : UInt8 → Tree} {held : Option Bytes}
    (h : RadixTree.Forked (.branch children held)) : ¬ Clear (.branch children held) [] := by
  intro hclear
  cases h with
  | @branch _ _ x _ _ hx _ hchildren =>
    obtain ⟨below, hbelow⟩ := (hchildren x hx).canonical.holds
    exact absurd (hclear.held (x :: below) hbelow List.nil_prefix) (List.cons_ne_nil x below)

/-- A key that is clear is inserted. -/
theorem exists_insertTree (h : tree = .empty ∨ RadixTree.Forked tree) (hclear : Clear tree path)
    (value : Bytes) : ∃ tree', insertTree tree path value = some tree' := by
  cases h with
  | inl hempty =>
    subst hempty
    exact ⟨_, rfl⟩
  | inr hforked =>
    induction hforked generalizing path with
    | @leaf key old =>
      rw [insertTree]
      by_cases heq : key = path
      · rw [if_pos heq]
        exact ⟨_, rfl⟩
      · have hheld : (RadixTree.leaf key old).get key ≠ none := by simp [RadixTree.get_leaf]
        obtain ⟨shared, x, rest, y, newRest, hparted⟩ := RadixTree.part_isSome
          (fun hle => heq (hclear.leaves key hheld rfl hle)) (fun hle => heq (hclear.held key hheld hle))
        rw [if_neg heq, hparted]
        exact ⟨_, rfl⟩
    | @branch children held x y hne hx hy hchildren ih =>
      cases path with
      | nil => exact absurd hclear (not_clear_nil (.branch hne hx hy hchildren))
      | cons nibble rest =>
        rw [insertTree]
        by_cases hend : rest = []
        · rw [if_pos hend]
          exact ⟨_, rfl⟩
        · rw [if_neg hend]
          by_cases hempty : children nibble = .empty
          · rw [hempty]
            exact ⟨_, rfl⟩
          · obtain ⟨child, hchild⟩ := ih nibble hempty hclear.child
            rw [hchild]
            exact ⟨_, rfl⟩
    | @extension extPath children held hext hchild ih =>
      rw [insertTree]
      by_cases hon : extPath <+: path
      · obtain ⟨below, rfl⟩ := hon
        obtain ⟨child', hbelow⟩ := ih hclear.below
        rw [if_pos (List.prefix_append extPath below), List.drop_left, hbelow]
        exact ⟨_, rfl⟩
      · have hshort : ¬ path <+: extPath := by
          intro hle
          obtain ⟨below, hget⟩ := hchild.canonical.holds
          have hlonger : path <+: extPath ++ below := hle.trans (List.prefix_append extPath below)
          have hheld : (RadixTree.extension extPath (.branch children held)).get (extPath ++ below) ≠ none := by
            rwa [RadixTree.get_extension_append]
          have heq := hclear.held _ hheld hlonger
          exact hon (heq ▸ List.prefix_append extPath below)
        obtain ⟨shared, x, rest, y, newRest, hparted⟩ := RadixTree.part_isSome hon hshort
        rw [if_neg hon, hparted]
        exact ⟨_, rfl⟩

end MerklePatriciaTrie

end Nocostcoin
