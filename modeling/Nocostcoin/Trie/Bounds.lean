import Nocostcoin.Library.RadixTree
import Nocostcoin.Trie

/-!
# When an insertion is out of bounds

`split_leaf` looks whether the keys go on past the fork before it indexes them, `split_extension`
does not look at the new key. An insertion panics exactly when the walk of its key ends inside the
path of an extension; whatever the hashes are, no other index or slice is out of bounds.
-/

namespace Nocostcoin

namespace MerklePatriciaTrie

variable {crypto : Crypto}

section Paths

variable {a b path : Bytes}

/-- The common prefix is all of the first path exactly when that is a prefix of the second. -/
theorem commonPrefix_eq_length_iff : commonPrefix a b = a.length ↔ a <+: b := by
  induction a generalizing b with
  | nil => simp [commonPrefix]
  | cons x a ih =>
    cases b with
    | nil => simp [commonPrefix]
    | cons y b =>
      rw [commonPrefix, List.cons_prefix_cons]
      split
      · rename_i heq
        rw [List.length_cons, Nat.add_right_cancel_iff, ih]
        exact ⟨fun h => ⟨heq, h⟩, fun h => h.2⟩
      · rename_i hne
        exact ⟨fun h => absurd h (Nat.succ_ne_zero _).symm, fun h => absurd h.1 hne⟩

/-- The common prefix does not depend on the order. -/
theorem commonPrefix_comm (a b : Bytes) : commonPrefix a b = commonPrefix b a := by
  induction a generalizing b with
  | nil => cases b <;> rfl
  | cons x a ih =>
    cases b with
    | nil => rfl
    | cons y b =>
      rw [commonPrefix, commonPrefix, ih b]
      by_cases heq : x = y
      · rw [if_pos heq, if_pos heq.symm]
      · rw [if_neg heq, if_neg (Ne.symm heq)]

/-- The common prefix of two paths ends where they part. -/
theorem commonPrefix_of_parts (shared : Bytes) {x y : UInt8} (hne : x ≠ y) (ra rb : Bytes) :
    commonPrefix (shared ++ x :: ra) (shared ++ y :: rb) = shared.length := by
  induction shared with
  | nil => exact if_neg hne
  | cons z shared ih =>
    rw [List.cons_append, List.cons_append, commonPrefix, if_pos rfl, ih, List.length_cons]

/-- Two paths of which neither is a prefix of the other part at different digits. -/
theorem parts_of_not_prefixes (hab : ¬ a <+: b) (hba : ¬ b <+: a) :
    ∃ shared x y ra rb, x ≠ y ∧ a = shared ++ x :: ra ∧ b = shared ++ y :: rb ∧
      commonPrefix a b = shared.length := by
  obtain ⟨shared, x, ra, y, rb, hparted⟩ := RadixTree.part_isSome hab hba
  obtain ⟨hne, rfl, rfl⟩ := RadixTree.of_part hparted
  exact ⟨shared, x, y, ra, rb, hne, rfl, rfl, commonPrefix_of_parts shared hne ra rb⟩

/-- Both nibbles of a byte are below sixteen. -/
theorem lt_of_mem_toNibbles {bytes : Bytes} {nibble : UInt8} (h : nibble ∈ toNibbles bytes) :
    nibble.toNat < 16 := by
  obtain ⟨byte, -, hnibble⟩ := List.mem_flatMap.mp h
  have hbyte := byte.toNat_lt
  rcases List.mem_cons.mp hnibble with rfl | hlow
  · rw [UInt8.toNat_shiftRight, Nat.shiftRight_eq_div_pow]
    change byte.toNat / 16 < 16
    omega
  · rw [List.mem_singleton.mp hlow, UInt8.toNat_and]
    exact Nat.and_lt_two_pow _ (n := 4) (by decide)

/-- A key has two nibbles for each byte. -/
theorem length_toNibbles (bytes : Bytes) : (toNibbles bytes).length = 2 * bytes.length := by
  induction bytes with
  | nil => rfl
  | cons byte bytes ih =>
    change (toNibbles bytes).length + 2 = 2 * (bytes.length + 1)
    omega

end Paths

/-- All digits of a path are nibbles. -/
def IsNibbles (path : Bytes) : Prop := ∀ digit ∈ path, digit.toNat < 16

theorem isNibbles_toNibbles (bytes : Bytes) : IsNibbles (toNibbles bytes) :=
  fun _ hdigit => lt_of_mem_toNibbles hdigit

theorem IsNibbles.drop {path : Bytes} (h : IsNibbles path) (n : ℕ) : IsNibbles (path.drop n) :=
  fun digit hdigit => h digit (List.mem_of_mem_drop hdigit)

theorem IsNibbles.take {path : Bytes} (h : IsNibbles path) (n : ℕ) : IsNibbles (path.take n) :=
  fun digit hdigit => h digit (List.mem_of_mem_take hdigit)

theorem IsNibbles.tail {digit : UInt8} {rest : Bytes} (h : IsNibbles (digit :: rest)) :
    IsNibbles rest :=
  fun other hother => h other (List.mem_cons_of_mem _ hother)

theorem IsNibbles.of_append {path rest : Bytes} (h : IsNibbles (path ++ rest)) : IsNibbles rest :=
  fun digit hdigit => h digit (List.mem_append_right _ hdigit)

/-- The paths in a node are nibbles, and an extension has a path. -/
def Node.Sound : Node → Prop
  | leaf key _ => IsNibbles key
  | branch _ _ => True
  | extension path _ => path ≠ [] ∧ IsNibbles path

/-- All nodes of a table are sound. -/
def SoundNodes (nodes : Nodes) : Prop :=
  ∀ hash node, nodes.lookup hash = some node → node.Sound

/-- The walk of a path ends inside the path of an extension. -/
inductive EndsInside (nodes : Nodes) : Option String → Bytes → Prop
  | here {hash child : String} {extPath path : Bytes}
      (hnode : nodes.lookup hash = some (.extension extPath child)) (hne : path ≠ [])
      (hinside : path <+: extPath) (hshort : path ≠ extPath) : EndsInside nodes (some hash) path
  | branch {hash : String} {children : Children} {value : Option Bytes} {nibble : UInt8} {rest : Bytes}
      (hnode : nodes.lookup hash = some (.branch children value)) (hnibble : nibble.toNat < 16)
      (hrest : EndsInside nodes children[nibble.toNat] rest) :
      EndsInside nodes (some hash) (nibble :: rest)
  | extension {hash child : String} {extPath path rest : Bytes}
      (hnode : nodes.lookup hash = some (.extension extPath child)) (hpath : path = extPath ++ rest)
      (hrest : EndsInside nodes (some child) rest) : EndsInside nodes (some hash) path

/-- Such a walk goes along a digit at least. -/
theorem EndsInside.ne_nil {nodes : Nodes} {hash : Option String} {path : Bytes}
    (h : EndsInside nodes hash path) : path ≠ [] := by
  induction h with
  | here _ hne => exact hne
  | branch => exact List.cons_ne_nil _ _
  | extension _ hpath _ ih =>
    rw [hpath]
    exact List.append_ne_nil_of_right_ne_nil _ ih

/-- It meets a node. -/
theorem EndsInside.node {nodes : Nodes} {hash : Option String} {path : Bytes}
    (h : EndsInside nodes hash path) :
    ∃ node, (hash.bind fun hash => nodes.lookup hash) = some node := by
  cases h with
  | here hnode | branch hnode | extension hnode => exact ⟨_, hnode⟩

/-- No walk ends inside a leaf. -/
theorem not_endsInside_leaf {nodes : Nodes} {hash : String} {key value path : Bytes}
    (hnode : nodes.lookup hash = some (.leaf key value)) : ¬ EndsInside nodes (some hash) path := by
  intro h
  cases h with
  | here hother | branch hother | extension hother =>
    rw [hnode] at hother
    cases hother

/-- Below a branch the walk goes on from the child. -/
theorem endsInside_branch_iff {nodes : Nodes} {hash : String} {children : Children}
    {value : Option Bytes} {nibble : UInt8} {rest : Bytes}
    (hnode : nodes.lookup hash = some (.branch children value)) (hnibble : nibble.toNat < 16) :
    EndsInside nodes (some hash) (nibble :: rest) ↔
      EndsInside nodes children[nibble.toNat] rest := by
  refine ⟨fun h => ?_, EndsInside.branch hnode hnibble⟩
  cases h with
  | here hother | extension hother =>
    rw [hnode] at hother
    cases hother
  | branch hother _ hrest =>
    rw [hnode] at hother
    cases hother
    exact hrest

/-- At an extension the walk ends inside its path or goes on from its child. -/
theorem endsInside_extension_iff {nodes : Nodes} {hash child : String} {extPath path : Bytes}
    (hnode : nodes.lookup hash = some (.extension extPath child)) (hne : path ≠ []) :
    EndsInside nodes (some hash) path ↔ (path <+: extPath ∧ path ≠ extPath) ∨
      ∃ rest, path = extPath ++ rest ∧ EndsInside nodes (some child) rest := by
  constructor
  · intro h
    cases h with
    | here hother _ hinside hshort =>
      rw [hnode] at hother
      cases hother
      exact .inl ⟨hinside, hshort⟩
    | branch hother =>
      rw [hnode] at hother
      cases hother
    | extension hother hpath hrest =>
      rw [hnode] at hother
      cases hother
      exact .inr ⟨_, hpath, hrest⟩
  · rintro (⟨hinside, hshort⟩ | ⟨rest, hpath, hrest⟩)
    · exact .here hnode hne hinside hshort
    · exact .extension hnode hpath hrest

/-- Entering a sound node keeps the table sound. -/
theorem SoundNodes.store {nodes : Nodes} (h : SoundNodes nodes) {node : Node} (hnode : node.Sound) :
    SoundNodes (store crypto nodes node).1 := by
  intro hash other hother
  unfold MerklePatriciaTrie.store at hother
  rw [FiniteMap.lookup_insert_ite] at hother
  split at hother
  · rw [← Option.some.inj hother]
    exact hnode
  · exact h hash other hother

/-- A child under a nibble. -/
theorem setChild_of_lt (children : Children) {nibble : UInt8} (hash : String)
    (h : nibble.toNat < 16) :
    setChild children nibble hash = some (children.set nibble.toNat (some hash)) := dif_pos h

/-- A key that ends at the fork gets no leaf. -/
theorem forkLeaf_of_end {nodes : Nodes} {children : Children} {key : Bytes} {common : ℕ}
    (value : Bytes) (h : key.drop common = []) :
    forkLeaf crypto nodes children key common value = some (nodes, children) := by
  rw [forkLeaf, h]

/-- A key that goes on past the fork gets a leaf under its next nibble. -/
theorem forkLeaf_of_nibble {nodes : Nodes} {children : Children} {key rest : Bytes} {common : ℕ}
    {nibble : UInt8} (value : Bytes) (h : key.drop common = nibble :: rest)
    (hnibble : nibble.toNat < 16) :
    forkLeaf crypto nodes children key common value =
      some ((store crypto nodes (.leaf rest value)).1,
        children.set nibble.toNat (some ((Node.leaf rest value).hash crypto))) := by
  rw [forkLeaf, h]
  dsimp only [store]
  rw [setChild_of_lt children _ hnibble]
  rfl

/-- The leaf of one key at a fork is in bounds. -/
theorem forkLeaf_sound (crypto : Crypto) {nodes : Nodes} (h : SoundNodes nodes) (children : Children) {key : Bytes}
    (hkey : IsNibbles key) (common : ℕ) (value : Bytes) :
    ∃ nodes' children', forkLeaf crypto nodes children key common value = some (nodes', children') ∧
      SoundNodes nodes' := by
  have hrest := hkey.drop common
  cases hdrop : key.drop common with
  | nil => exact ⟨nodes, children, forkLeaf_of_end value hdrop, h⟩
  | cons nibble rest =>
    rw [hdrop] at hrest
    exact ⟨_, _, forkLeaf_of_nibble value hdrop (hrest nibble List.mem_cons_self),
      h.store hrest.tail⟩

/-- The branch of a fork and the extension above it are sound. -/
theorem storeFork_sound {nodes : Nodes} (h : SoundNodes nodes) (children : Children) {shared : Bytes}
    (hshared : IsNibbles shared) : SoundNodes (storeFork crypto nodes children shared).1 := by
  have hbranch : SoundNodes (store crypto nodes (.branch children none)).1 := h.store trivial
  unfold storeFork
  dsimp only
  split
  · exact hbranch
  · rename_i hne
    exact hbranch.store ⟨fun heq => hne (by rw [heq]; rfl), hshared⟩

/-- A leaf is split by a leaf for each key and the fork over them. -/
theorem splitLeaf_eq {nodes nodes₁ nodes₂ : Nodes} {children₁ children₂ : Children}
    {leafKey leafValue newKey newValue : Bytes}
    (hfirst : forkLeaf crypto nodes (Vector.replicate 16 none) leafKey (commonPrefix leafKey newKey)
      leafValue = some (nodes₁, children₁))
    (hsecond : forkLeaf crypto nodes₁ children₁ newKey (commonPrefix leafKey newKey) newValue =
      some (nodes₂, children₂)) :
    splitLeaf crypto nodes leafKey leafValue newKey newValue =
      some (storeFork crypto nodes₂ children₂ (leafKey.take (commonPrefix leafKey newKey))) := by
  unfold splitLeaf
  dsimp only
  rw [hfirst, Option.bind_eq_bind, Option.bind_some]
  dsimp only
  rw [hsecond, Option.bind_some]

/-- Splitting a leaf is in bounds. -/
theorem splitLeaf_sound {nodes : Nodes} (h : SoundNodes nodes) {leafKey newKey : Bytes}
    (hleaf : IsNibbles leafKey) (hnew : IsNibbles newKey) (leafValue newValue : Bytes) :
    ∃ nodes' root, splitLeaf crypto nodes leafKey leafValue newKey newValue = some (nodes', root) ∧
      SoundNodes nodes' := by
  obtain ⟨nodes₁, children₁, hfirst, h₁⟩ := forkLeaf_sound crypto h
    (Vector.replicate 16 none) hleaf (commonPrefix leafKey newKey) leafValue
  obtain ⟨nodes₂, children₂, hsecond, h₂⟩ := forkLeaf_sound crypto h₁ children₁ hnew
    (commonPrefix leafKey newKey) newValue
  exact ⟨_, _, splitLeaf_eq hfirst hsecond, storeFork_sound h₂ children₂ (hleaf.take _)⟩

/-- What is left of a split extension: its child, or an extension over the rest of its path. -/
def storeRest (crypto : Crypto) (nodes : Nodes) (extRest : Bytes) (extChild : String) :
    Nodes × String :=
  if extRest.isEmpty then (nodes, extChild) else store crypto nodes (.extension extRest extChild)

/-- An extension is split by what is left of it, a leaf for the new key and the fork over them. -/
theorem splitExtension_eq {nodes : Nodes} {extPath newKey newValue : Bytes} {extChild : String}
    {common : ℕ} {x y : UInt8} (hext : extPath[common]? = some x) (hnew : newKey[common]? = some y)
    (hx : x.toNat < 16) (hy : y.toNat < 16) :
    splitExtension crypto nodes extPath extChild newKey newValue common =
      some (storeFork crypto
        (store crypto (storeRest crypto nodes (extPath.drop (common + 1)) extChild).1
          (.leaf (newKey.drop (common + 1)) newValue)).1
        (((Vector.replicate 16 none).set x.toNat
          (some (storeRest crypto nodes (extPath.drop (common + 1)) extChild).2)).set y.toNat
            (some ((Node.leaf (newKey.drop (common + 1)) newValue).hash crypto)))
        (extPath.take common)) := by
  unfold splitExtension
  rw [hext, hnew]
  simp only [Option.bind_eq_bind, Option.bind_some, setChild_of_lt _ _ hx, setChild_of_lt _ _ hy]
  rfl

/-- A new key that ends in the path of the extension is out of bounds. -/
theorem splitExtension_of_end {nodes : Nodes} {extPath newKey newValue : Bytes} {extChild : String}
    {common : ℕ} (hnew : newKey[common]? = none) :
    splitExtension crypto nodes extPath extChild newKey newValue common = none := by
  unfold splitExtension
  rw [hnew]
  simp only [Option.bind_eq_bind, Option.bind_none, Option.bind_fun_none]

/-- What is left of a split extension is sound. -/
theorem storeRest_sound (crypto : Crypto) {nodes : Nodes} (h : SoundNodes nodes) {extRest : Bytes}
    (hrest : IsNibbles extRest) (extChild : String) :
    SoundNodes (storeRest crypto nodes extRest extChild).1 := by
  unfold storeRest
  split
  · exact h
  · rename_i hne
    exact h.store ⟨fun heq => hne (by rw [heq]; rfl), hrest⟩

/-- Splitting an extension is in bounds when the new key goes on past the fork. -/
theorem splitExtension_sound (crypto : Crypto) {nodes : Nodes} (h : SoundNodes nodes)
    {extPath newKey : Bytes} (hext : IsNibbles extPath) (hnew : IsNibbles newKey)
    (extChild : String) (newValue : Bytes) (hoff : ¬ extPath <+: newKey) (hlong : ¬ newKey <+: extPath) :
    ∃ nodes' root, splitExtension crypto nodes extPath extChild newKey newValue
      (commonPrefix extPath newKey) = some (nodes', root) ∧ SoundNodes nodes' := by
  obtain ⟨shared, x, y, extRest, newRest, -, rfl, rfl, hcommon⟩ := parts_of_not_prefixes hoff hlong
  have hx : (shared ++ x :: extRest)[shared.length]? = some x := by simp
  have hy : (shared ++ y :: newRest)[shared.length]? = some y := by simp
  have hxNibble : x.toNat < 16 := hext.of_append x List.mem_cons_self
  have hyNibble : y.toNat < 16 := hnew.of_append y List.mem_cons_self
  rw [hcommon]
  refine ⟨_, _, splitExtension_eq hx hy hxNibble hyNibble, ?_⟩
  have hrest := storeRest_sound crypto h (hext.drop (shared.length + 1)) extChild
  have hleaf : SoundNodes (store crypto
      (storeRest crypto nodes ((shared ++ x :: extRest).drop (shared.length + 1)) extChild).1
      (.leaf ((shared ++ y :: newRest).drop (shared.length + 1)) newValue)).1 :=
    hrest.store (hnew.drop (shared.length + 1))
  exact storeFork_sound hleaf _ (hext.take shared.length)

/-- An insertion below a node is out of bounds exactly when the walk of the path ends inside an
extension, and it keeps the table sound. -/
theorem insertAt_sound (crypto : Crypto) {fuel : ℕ} {nodes : Nodes} (nodeHash : Option String)
    {path : Bytes} (value : Bytes) (hfuel : path.length < fuel) (h : SoundNodes nodes)
    (hpath : IsNibbles path) :
    (EndsInside nodes nodeHash path ∧ insertAt crypto fuel nodes nodeHash path value = none) ∨
      (¬ EndsInside nodes nodeHash path ∧ ∃ nodes' root,
        insertAt crypto fuel nodes nodeHash path value = some (nodes', root) ∧ SoundNodes nodes') := by
  induction fuel generalizing nodeHash path with
  | zero => exact absurd hfuel (Nat.not_lt_zero _)
  | succ fuel ih =>
    cases path with
    | nil =>
      have hleaf : SoundNodes (store crypto nodes (.leaf [] value)).1 := h.store hpath
      exact .inr ⟨fun hends => hends.ne_nil rfl, _, _, rfl, hleaf⟩
    | cons nibble rest =>
      rw [List.length_cons, Nat.add_lt_add_iff_right] at hfuel
      have hleaf : SoundNodes (store crypto nodes (.leaf (nibble :: rest) value)).1 := h.store hpath
      rw [insertAt]
      cases hlookup : nodeHash.bind fun hash => nodes.lookup hash with
      | none =>
        refine .inr ⟨fun hends => ?_, _, _, rfl, hleaf⟩
        obtain ⟨node, hnode⟩ := hends.node
        rw [hlookup] at hnode
        contradiction
      | some node =>
        obtain ⟨hash, rfl, hnode⟩ := Option.bind_eq_some_iff.mp hlookup
        have hsound := h hash node hnode
        cases node with
        | leaf leafKey leafValue =>
          refine .inr ⟨not_endsInside_leaf hnode, ?_⟩
          dsimp only
          split
          · exact ⟨_, _, rfl, hleaf⟩
          · exact splitLeaf_sound h hsound hpath leafValue value
        | branch children branchValue =>
          have hnibble := hpath nibble List.mem_cons_self
          rw [endsInside_branch_iff hnode hnibble]
          dsimp only
          cases rest with
          | nil =>
            have hbranch : SoundNodes (store crypto nodes (.branch children (some value))).1 :=
              h.store trivial
            exact .inr ⟨fun hends => hends.ne_nil rfl, _, _, rfl, hbranch⟩
          | cons next rest =>
            rw [if_neg (by simp), dif_pos hnibble]
            rcases ih children[nibble.toNat] hfuel hpath.tail with
              ⟨hends, hpanic⟩ | ⟨hnot, nodes', child, hinsert, h'⟩
            · rw [hpanic]
              exact .inl ⟨hends, rfl⟩
            · rw [hinsert]
              exact .inr ⟨hnot, _, _, rfl, h'.store trivial⟩
        | extension extPath child =>
          rw [endsInside_extension_iff hnode (List.cons_ne_nil _ _)]
          dsimp only
          by_cases hon : extPath <+: nibble :: rest
          · -- the walk follows the whole path of the extension
            rw [if_pos (commonPrefix_eq_length_iff.mpr hon), commonPrefix_eq_length_iff.mpr hon]
            obtain ⟨below, hbelow⟩ := hon
            have hpositive := List.length_pos_iff.mpr hsound.1
            have hlength := congrArg List.length hbelow
            rw [List.length_append, List.length_cons] at hlength
            rw [← hbelow] at hpath ⊢
            rw [List.drop_left]
            have hnothere : ¬ (extPath ++ below <+: extPath ∧ extPath ++ below ≠ extPath) := by
              rintro ⟨hle, hne⟩
              exact hne (hle.eq_of_length_le (by simp))
            have hbound : below.length < fuel := by omega
            rcases ih (some child) hbound hpath.of_append with
              ⟨hends, hpanic⟩ | ⟨hnot, nodes', newChild, hinsert, h'⟩
            · rw [hpanic]
              exact .inl ⟨.inr ⟨below, rfl, hends⟩, rfl⟩
            · rw [hinsert]
              refine .inr ⟨?_, _, _, rfl, h'.store hsound⟩
              rintro (hhere | ⟨other, hother, hends⟩)
              · exact hnothere hhere
              · rw [← List.append_cancel_left hother] at hends
                exact hnot hends
          · rw [if_neg fun heq => hon (commonPrefix_eq_length_iff.mp heq)]
            by_cases hshort : nibble :: rest <+: extPath
            · have hend : (nibble :: rest)[commonPrefix extPath (nibble :: rest)]? = none := by
                rw [commonPrefix_comm, commonPrefix_eq_length_iff.mpr hshort]
                exact List.getElem?_length _
              rw [splitExtension_of_end hend]
              exact .inl ⟨.inl ⟨hshort, fun heq => hon (heq ▸ List.prefix_refl _)⟩, rfl⟩
            · refine .inr ⟨?_, splitExtension_sound crypto h hsound.2 hpath child value hon hshort⟩
              rintro (⟨hinside, -⟩ | ⟨below, hbelow, -⟩)
              · exact hshort hinside
              · exact hon ⟨below, hbelow.symm⟩

/-- Insertions one after another. -/
def insertAll (crypto : Crypto) (trie : MerklePatriciaTrie) (entries : List (Bytes × Bytes)) :
    Option MerklePatriciaTrie :=
  entries.foldlM (fun trie entry => trie.insert crypto entry.1 entry.2) trie

/-- The walk of a key through the trie ends inside the path of an extension. -/
def StopsShort (trie : MerklePatriciaTrie) (key : Bytes) : Prop :=
  EndsInside trie.nodes trie.root (toNibbles key)

/-- An insertion into a sound trie panics exactly when the key stops short; it keeps the trie sound. -/
theorem insert_sound (crypto : Crypto) {trie : MerklePatriciaTrie} (h : SoundNodes trie.nodes) (key value : Bytes) :
    (trie.StopsShort key ∧ trie.insert crypto key value = none) ∨
      (¬ trie.StopsShort key ∧
        ∃ trie', trie.insert crypto key value = some trie' ∧ SoundNodes trie'.nodes) := by
  unfold insert StopsShort
  dsimp only
  rcases insertAt_sound crypto trie.root value (Nat.lt_succ_self _) h
    (isNibbles_toNibbles key) with ⟨hends, hpanic⟩ | ⟨hnot, nodes', root, hinsert, h'⟩
  · rw [hpanic]
    exact .inl ⟨hends, rfl⟩
  · rw [hinsert]
    exact .inr ⟨hnot, _, rfl, h'⟩

/-- The first of several insertions, and the others. -/
theorem insertAll_cons (trie : MerklePatriciaTrie) (key value : Bytes) (rest : List (Bytes × Bytes)) :
    insertAll crypto trie ((key, value) :: rest) =
      (trie.insert crypto key value).bind fun trie => insertAll crypto trie rest := by
  rw [insertAll, List.foldlM_cons]
  rfl

/-- From a sound trie all insertions complete exactly when no key stops short at its turn. -/
theorem insertAll_isSome_iff {trie : MerklePatriciaTrie} (h : SoundNodes trie.nodes)
    (entries : List (Bytes × Bytes)) :
    (insertAll crypto trie entries).isSome = true ↔
      ∀ before key value after, entries = before ++ (key, value) :: after →
        ∀ reached, insertAll crypto trie before = some reached → ¬ reached.StopsShort key := by
  induction entries generalizing trie with
  | nil =>
    refine ⟨fun _ before key value after hsplit => ?_, fun _ => rfl⟩
    exact absurd hsplit.symm (List.append_ne_nil_of_right_ne_nil _ (List.cons_ne_nil _ _))
  | cons entry rest ih =>
    obtain ⟨key, value⟩ := entry
    rw [insertAll_cons]
    rcases insert_sound crypto h key value with
      ⟨hends, hpanic⟩ | ⟨hnot, trie', hinsert, h'⟩
    · rw [hpanic, Option.bind_none]
      constructor
      · intro hfalse
        exact absurd hfalse Bool.false_ne_true
      · intro hall
        exact absurd hends (hall [] key value rest rfl trie rfl)
    · rw [hinsert, Option.bind_some, ih h']
      constructor
      · intro hall before key' value' after hsplit reached hreached
        cases before with
        | nil =>
          obtain ⟨hentry, -⟩ := List.cons.inj hsplit
          obtain ⟨rfl, rfl⟩ := Prod.mk.inj hentry
          rw [← Option.some.inj hreached]
          exact hnot
        | cons first before =>
          obtain ⟨rfl, hrest⟩ := List.cons.inj hsplit
          rw [insertAll_cons, hinsert] at hreached
          exact hall before key' value' after hrest reached hreached
      · intro hall before key' value' after hsplit reached hreached
        apply hall ((key, value) :: before) key' value' after (congrArg _ hsplit) reached
        rw [insertAll_cons, hinsert]
        exact hreached

/-- For keys of any content and any lengths, whatever the hashes: every insertion of a sequence into
the empty trie completes exactly when no key, at its turn, stops short in the trie built so far. -/
theorem insertions_complete_iff (crypto : Crypto) (entries : List (Bytes × Bytes)) :
    (insertAll crypto new entries).isSome = true ↔
      ∀ before key value after, entries = before ++ (key, value) :: after →
        ∀ reached, insertAll crypto new before = some reached → ¬ reached.StopsShort key := by
  apply insertAll_isSome_iff
  intro hash node hnode
  exact absurd hnode (by simp [new])

/-- Two long addresses with a common start, and then that start alone. -/
def shortAddressEntries : List (Bytes × Bytes) :=
  [([0x11, 0x11, 0x10], [1]), ([0x11, 0x11, 0x20], [2]), ([0x11], [3])]

/-- The first two insertions complete, the third is out of bounds. -/
theorem insert_out_of_bounds :
    (insertAll Crypto.plain new (shortAddressEntries.take 2)).isSome = true ∧
      insertAll Crypto.plain new shortAddressEntries = none := by
  decide +kernel

end MerklePatriciaTrie

end Nocostcoin
