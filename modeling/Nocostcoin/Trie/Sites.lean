import Nocostcoin.Trie.Insertion

/-!
# Where the insertions of a sequence go

For keys of which none is a proper prefix of another every insertion completes. It ends at the branch one
nibble above the end of its key if two keys that were inserted earlier part there, and sets its value;
otherwise it sets the value under its key. So the trie holds, under every path, what was written last to
that site.
-/

namespace Nocostcoin

namespace MerklePatriciaTrie

/-- What a sequence of writes leaves: the last one to each place. -/
def lastWrite (writes : List (Bytes × Bytes)) : Bytes → Option Bytes :=
  writes.foldl (fun held write => Function.update held write.1 (some write.2)) fun _ => none

/-- One write more. -/
theorem lastWrite_append (writes : List (Bytes × Bytes)) (key value place : Bytes) :
    lastWrite (writes ++ [(key, value)]) place =
      if place = key then some value else lastWrite writes place := by
  rw [lastWrite, List.foldl_append, List.foldl_cons, List.foldl_nil, Function.update_apply]
  rfl

/-- The tree after a sequence of insertions. -/
def treeOf (entries : List (Bytes × Bytes)) : Option Tree :=
  entries.foldlM (fun tree entry => insertTree tree (toNibbles entry.1) entry.2) .empty

/-- All nodes of the trees that a sequence of insertions goes through. -/
def nodesOfRun (crypto : Crypto) (entries : List (Bytes × Bytes)) : List Node :=
  entries.inits.flatMap fun before => (treeOf before).elim [] (nodesOf crypto)

/-- The nibble after a path that a key follows. -/
def nibbleAfter (path key : Bytes) : Option UInt8 :=
  if path <+: toNibbles key then (toNibbles key)[path.length]? else none

/-- Two of the keys written before follow a path and part after it. -/
def Branches (before : List (Bytes × Bytes)) (path : Bytes) : Prop :=
  ∃ a ∈ before, ∃ b ∈ before, (nibbleAfter path a.1).isSome ∧ (nibbleAfter path b.1).isSome ∧
    nibbleAfter path a.1 ≠ nibbleAfter path b.1

instance (before : List (Bytes × Bytes)) (path : Bytes) : Decidable (Branches before path) :=
  inferInstanceAs (Decidable (∃ a ∈ before, ∃ b ∈ before, _ ∧ _ ∧ _))

/-- The path that an insertion writes to: a key loses its last nibble where others part there. -/
def site (before : List (Bytes × Bytes)) (key : Bytes) : Bytes :=
  if Branches before (toNibbles key).dropLast then (toNibbles key).dropLast else toNibbles key

/-- The writes of a sequence of insertions, each to its site. -/
def sitedFrom (before : List (Bytes × Bytes)) : List (Bytes × Bytes) → List (Bytes × Bytes)
  | [] => []
  | (key, value) :: rest => (site before key, value) :: sitedFrom (before ++ [(key, value)]) rest

/-- The writes of a sequence of insertions into the empty trie. -/
def sited (entries : List (Bytes × Bytes)) : List (Bytes × Bytes) := sitedFrom [] entries

/-- No key is a proper prefix of another. -/
def PrefixFree (entries : List (Bytes × Bytes)) : Prop :=
  ∀ a ∈ entries, ∀ b ∈ entries, a.1 <+: b.1 → a.1 = b.1

instance (entries : List (Bytes × Bytes)) : Decidable (PrefixFree entries) :=
  inferInstanceAs (Decidable (∀ a ∈ entries, ∀ b ∈ entries, _ → _))

section Lists

variable (before entries : List (Bytes × Bytes)) (key value : Bytes)

theorem sitedFrom_append : sitedFrom before (entries ++ [(key, value)]) =
    sitedFrom before entries ++ [(site (before ++ entries) key, value)] := by
  induction entries generalizing before with
  | nil =>
    rw [List.append_nil]
    rfl
  | cons entry rest ih =>
    rw [List.cons_append, sitedFrom, sitedFrom, ih, List.append_assoc]
    rfl

/-- One insertion more writes to its site. -/
theorem sited_append : sited (entries ++ [(key, value)]) = sited entries ++ [(site entries key, value)] :=
  sitedFrom_append [] entries key value

/-- One insertion more into the tree. -/
theorem treeOf_append : treeOf (entries ++ [(key, value)]) =
    (treeOf entries).bind fun tree => insertTree tree (toNibbles key) value := by
  rw [treeOf, List.foldlM_append]
  simp only [List.foldlM_cons, List.foldlM_nil, bind_pure]
  rfl

/-- One insertion more into the trie. -/
theorem insertAll_append (crypto : Crypto) (trie : MerklePatriciaTrie) :
    insertAll crypto trie (entries ++ [(key, value)]) =
      (insertAll crypto trie entries).bind fun trie => trie.insert crypto key value := by
  rw [insertAll, List.foldlM_append]
  simp only [List.foldlM_cons, List.foldlM_nil, bind_pure]
  rfl

variable {before entries} in
/-- The nodes of every tree on the way are nodes of the run. -/
theorem mem_nodesOfRun {crypto : Crypto} {tree : Tree} {node : Node} (hbefore : before <+: entries)
    (htree : treeOf before = some tree) (hnode : node ∈ nodesOf crypto tree) :
    node ∈ nodesOfRun crypto entries := by
  refine List.mem_flatMap.mpr ⟨before, (List.mem_inits before entries).mpr hbefore, ?_⟩
  rwa [htree]

end Lists

/-- The nodes of a run up to some point are nodes of the whole run. -/
theorem nodesOfRun_append {crypto : Crypto} (before after : List (Bytes × Bytes)) :
    ∀ node ∈ nodesOfRun crypto before, node ∈ nodesOfRun crypto (before ++ after) := by
  intro node hnode
  obtain ⟨earlier, hearlier, hmem⟩ := List.mem_flatMap.mp hnode
  refine List.mem_flatMap.mpr ⟨earlier, ?_, hmem⟩
  rw [List.mem_inits] at hearlier ⊢
  exact hearlier.trans (List.prefix_append before after)

/-- A byte is made of its nibbles. -/
theorem toNat_nibbles (byte : UInt8) :
    byte.toNat = 16 * (byte >>> 4).toNat + (byte &&& 0x0F).toNat := by
  have hlow : (byte &&& 0x0F).toNat = byte.toNat % 16 := by
    rw [UInt8.toNat_and]
    exact Nat.and_two_pow_sub_one_eq_mod byte.toNat 4
  rw [hlow, UInt8.toNat_shiftRight, Nat.shiftRight_eq_div_pow]
  exact (Nat.div_add_mod byte.toNat 16).symm

/-- A key whose nibbles start those of another starts the other. -/
theorem prefix_of_toNibbles {a b : Bytes} (h : toNibbles a <+: toNibbles b) : a <+: b := by
  induction a generalizing b with
  | nil => exact List.nil_prefix
  | cons byte a ih =>
    cases b with
    | nil => exact absurd (List.prefix_nil.mp h) (by simp [toNibbles])
    | cons byte' b =>
      obtain ⟨hhigh, htail⟩ := List.cons_prefix_cons.mp h
      obtain ⟨hlow, hrest⟩ := List.cons_prefix_cons.mp htail
      have hbyte : byte = byte' := by
        rw [← UInt8.toNat_inj, toNat_nibbles byte, hhigh, hlow, ← toNat_nibbles byte']
      exact List.cons_prefix_cons.mpr ⟨hbyte, ih hrest⟩

/-- The nibbles of a key determine it. -/
theorem toNibbles_injective : Function.Injective toNibbles := by
  intro a b h
  have hle : a <+: b := prefix_of_toNibbles (h ▸ List.prefix_refl _)
  apply hle.eq_of_length
  have hlength := congrArg List.length h
  rw [length_toNibbles, length_toNibbles] at hlength
  omega

/-- What it means that a key goes on with a nibble after a path. -/
theorem nibbleAfter_eq_some_iff {path key : Bytes} {x : UInt8} :
    nibbleAfter path key = some x ↔ path ++ [x] <+: toNibbles key := by
  unfold nibbleAfter
  by_cases hon : path <+: toNibbles key
  · obtain ⟨rest, hrest⟩ := hon
    rw [if_pos ⟨rest, hrest⟩, ← hrest, List.getElem?_append_right (Nat.le_refl _), Nat.sub_self,
      List.prefix_append_right_inj]
    cases rest with
    | nil => simp
    | cons digit rest =>
      rw [List.cons_prefix_cons, List.getElem?_cons_zero, Option.some_inj]
      exact ⟨fun h => ⟨h.symm, List.nil_prefix⟩, fun h => h.1.symm⟩
  · rw [if_neg hon]
    constructor
    · intro h
      contradiction
    · intro hlonger
      exact absurd ((List.prefix_append path [x]).trans hlonger) hon

/-- Two keys that follow a path and go on with different nibbles. -/
theorem branches_iff {before : List (Bytes × Bytes)} {path : Bytes} :
    Branches before path ↔ ∃ a ∈ before, ∃ b ∈ before, ∃ x y, x ≠ y ∧
      path ++ [x] <+: toNibbles a.1 ∧ path ++ [y] <+: toNibbles b.1 := by
  simp only [← nibbleAfter_eq_some_iff]
  constructor
  · rintro ⟨a, ha, b, hb, hasome, hbsome, hne⟩
    obtain ⟨x, hx⟩ := Option.isSome_iff_exists.mp hasome
    obtain ⟨y, hy⟩ := Option.isSome_iff_exists.mp hbsome
    refine ⟨a, ha, b, hb, x, y, fun heq => hne ?_, hx, hy⟩
    rw [hx, hy, heq]
  · rintro ⟨a, ha, b, hb, x, y, hne, hx, hy⟩
    refine ⟨a, ha, b, hb, by rw [hx]; rfl, by rw [hy]; rfl, fun heq => hne ?_⟩
    rw [hx, hy] at heq
    exact Option.some.inj heq

/-- Keys that part go on to part. -/
theorem Branches.mono {before after : List (Bytes × Bytes)} {path : Bytes} (h : Branches before path)
    (hsub : ∀ entry ∈ before, entry ∈ after) : Branches after path := by
  obtain ⟨a, ha, b, hb, hparted⟩ := h
  exact ⟨a, hsub a ha, b, hsub b hb, hparted⟩

/-- A key starts with its site. -/
theorem prefix_of_site (before : List (Bytes × Bytes)) (key : Bytes) : site before key <+: toNibbles key := by
  unfold site
  split
  · exact List.dropLast_prefix _
  · exact List.prefix_refl _

/-- A path that was written to is the site of an insertion. -/
theorem exists_site {entries : List (Bytes × Bytes)} {path : Bytes}
    (h : lastWrite (sited entries) path ≠ none) :
    ∃ before key value after, entries = before ++ (key, value) :: after ∧ path = site before key := by
  induction entries using List.reverseRecOn with
  | nil => exact absurd rfl h
  | append_singleton earlier entry ih =>
    obtain ⟨key, value⟩ := entry
    rw [sited_append, lastWrite_append] at h
    by_cases hlast : path = site earlier key
    · exact ⟨earlier, key, value, [], rfl, hlast⟩
    · rw [if_neg hlast] at h
      obtain ⟨before, key', value', after, hsplit, hpath⟩ := ih h
      refine ⟨before, key', value', after ++ [(key, value)], ?_, hpath⟩
      rw [hsplit, List.append_assoc, List.cons_append]

/-- The tree after insertions: empty or forked, it holds what was written last to each site, and a key
that was inserted is held or lies under a branch. -/
structure Standing (entries : List (Bytes × Bytes)) (tree : Tree) : Prop where
  result : treeOf entries = some tree
  forked : (entries = [] ∧ tree = .empty) ∨ RadixTree.Forked tree
  get : ∀ q, tree.get q = lastWrite (sited entries) q
  held : ∀ entry ∈ entries, tree.get (toNibbles entry.1) ≠ none ∨
    tree.branchAt (toNibbles entry.1).dropLast = true

/-- The empty tree is what no insertion leaves. -/
theorem standing_nil : Standing [] .empty where
  result := rfl
  forked := .inl ⟨rfl, rfl⟩
  get _ := rfl
  held _ h := absurd h List.not_mem_nil

namespace Standing

variable {entries : List (Bytes × Bytes)} {tree : Tree} {key value : Bytes}

/-- A key that goes on after a path leaves something there, or the path has a branch. -/
theorem exists_held (h : Standing entries tree) {entry : Bytes × Bytes} (hentry : entry ∈ entries)
    {path : Bytes} {x : UInt8} (hon : path ++ [x] <+: toNibbles entry.1) :
    tree.branchAt path = true ∨ ∃ p, tree.get (path ++ x :: p) ≠ none := by
  obtain ⟨rest, hrest⟩ := hon
  rw [List.append_assoc, List.singleton_append] at hrest
  cases h.held entry hentry with
  | inl hget =>
    rw [← hrest] at hget
    exact .inr ⟨rest, hget⟩
  | inr hbranch =>
    rw [← hrest, List.dropLast_append_of_ne_nil (List.cons_ne_nil x rest)] at hbranch
    cases rest with
    | nil =>
      rw [List.dropLast_singleton, List.append_nil] at hbranch
      exact .inl hbranch
    | cons digit rest =>
      have hforked : RadixTree.Forked tree := by
        cases h.forked with
        | inl hempty => exact absurd hentry (hempty.1 ▸ List.not_mem_nil)
        | inr hforked => exact hforked
      obtain ⟨z, _, p, _, _, hget, -⟩ := (hforked.branchAt_iff _).mp hbranch
      rw [List.dropLast_cons_of_ne_nil (List.cons_ne_nil digit rest), List.append_assoc,
        List.cons_append] at hget
      exact .inr ⟨_, hget⟩

/-- The tree has a branch exactly where two keys part. -/
theorem branchAt_iff (h : Standing entries tree) (path : Bytes) :
    tree.branchAt path = true ↔ Branches entries path := by
  cases h.forked with
  | inl hempty =>
    obtain ⟨rfl, rfl⟩ := hempty
    constructor
    · intro hfalse
      exact absurd hfalse Bool.false_ne_true
    · intro hbranches
      obtain ⟨a, ha, -⟩ := hbranches
      exact absurd ha List.not_mem_nil
  | inr hforked =>
    rw [branches_iff]
    constructor
    · intro hbranch
      have hentry : ∀ {x p}, tree.get (path ++ x :: p) ≠ none →
          ∃ entry ∈ entries, path ++ [x] <+: toNibbles entry.1 := by
        intro x p hget
        rw [h.get] at hget
        obtain ⟨before, key, value, after, hsplit, hsite⟩ := exists_site hget
        refine ⟨(key, value), by simp [hsplit], List.IsPrefix.trans ⟨p, ?_⟩ (prefix_of_site before key)⟩
        rw [← hsite, List.append_assoc, List.singleton_append]
      obtain ⟨x, y, p, q, hne, hx, hy⟩ := (hforked.branchAt_iff path).mp hbranch
      obtain ⟨a, ha, hax⟩ := hentry hx
      obtain ⟨b, hb, hby⟩ := hentry hy
      exact ⟨a, ha, b, hb, x, y, hne, hax, hby⟩
    · intro hparted
      obtain ⟨a, ha, b, hb, x, y, hne, hax, hby⟩ := hparted
      cases h.exists_held ha hax with
      | inl hbranch => exact hbranch
      | inr hx =>
        cases h.exists_held hb hby with
        | inl hbranch => exact hbranch
        | inr hy =>
          obtain ⟨p, hp⟩ := hx
          obtain ⟨q, hq⟩ := hy
          exact hforked.branchAt_of_parted hne hp hq

/-- The insertion of a key goes to its site. -/
theorem target_eq (h : Standing entries tree) (key : Bytes) : target tree (toNibbles key) = site entries key := by
  rw [target, site]
  simp only [h.branchAt_iff]

/-- A key that neither starts nor continues another is clear. -/
theorem clear (h : Standing entries tree) (hfree : PrefixFree (entries ++ [(key, value)])) :
    Clear tree (toNibbles key) := by
  have hlast : (key, value) ∈ entries ++ [(key, value)] :=
    List.mem_append_right _ (List.mem_singleton_self _)
  have hsite : ∀ q, tree.get q ≠ none → ∃ before entry, (∀ other ∈ before, other ∈ entries) ∧
      entry ∈ entries ++ [(key, value)] ∧ q = site before entry.1 := by
    intro q hget
    rw [h.get] at hget
    obtain ⟨before, other, bytes, after, hsplit, hq⟩ := exists_site hget
    refine ⟨before, (other, bytes), fun entry hentry => ?_, ?_, hq⟩
    · rw [hsplit]
      exact List.mem_append_left _ hentry
    · apply List.mem_append_left
      rw [hsplit]
      exact List.mem_append_right _ List.mem_cons_self
  constructor
  · intro q hget hleaf hle
    obtain ⟨before, entry, hbefore, hentry, rfl⟩ := hsite q hget
    unfold site at hleaf hle ⊢
    split at hleaf
    · rename_i hbranches
      rw [(h.branchAt_iff _).mpr (hbranches.mono hbefore)] at hleaf
      exact absurd hleaf.symm Bool.false_ne_true
    · rename_i hnone
      rw [if_neg hnone] at hle ⊢
      rw [hfree entry hentry (key, value) hlast (prefix_of_toNibbles hle)]
  · intro q hget hle
    obtain ⟨before, entry, -, hentry, rfl⟩ := hsite q hget
    have hsame : key = entry.1 := hfree (key, value) hlast entry hentry
      (prefix_of_toNibbles (hle.trans (prefix_of_site before entry.1)))
    apply Eq.symm
    apply hle.eq_of_length_le
    rw [hsame]
    exact (prefix_of_site before entry.1).length_le

/-- One insertion more. -/
theorem insert (h : Standing entries tree) (hfree : PrefixFree (entries ++ [(key, value)])) :
    ∃ tree', insertTree tree (toNibbles key) value = some tree' ∧
      Standing (entries ++ [(key, value)]) tree' := by
  have hshape : tree = .empty ∨ RadixTree.Forked tree := h.forked.imp And.right id
  obtain ⟨tree', hresult⟩ := exists_insertTree hshape (h.clear hfree) value
  have hforked := forked_insertTree hshape hresult
  have hget := get_insertTree hshape hresult
  rw [h.target_eq] at hget
  have hmore : ∀ q, tree.get q ≠ none → tree'.get q ≠ none := by
    intro q hq
    rw [hget]
    split
    · exact Option.some_ne_none value
    · exact hq
  have hbranches : ∀ path, tree.branchAt path = true → tree'.branchAt path = true := by
    intro path hbranch
    cases hshape with
    | inl hempty =>
      rw [hempty] at hbranch
      exact absurd hbranch Bool.false_ne_true
    | inr hbefore => exact hbefore.branchAt_mono hforked hmore hbranch
  refine ⟨tree', hresult, ?_, .inr hforked, ?_, ?_⟩
  · rw [treeOf_append, h.result, Option.bind_some, hresult]
  · intro q
    rw [sited_append, lastWrite_append, hget, h.get]
  · intro entry hentry
    cases List.mem_append.mp hentry with
    | inl hold => exact (h.held entry hold).imp (hmore _) (hbranches _)
    | inr hnew =>
      obtain rfl := List.mem_singleton.mp hnew
      by_cases hcrossed : Branches entries (toNibbles key).dropLast
      · exact .inr (hbranches _ ((h.branchAt_iff _).mpr hcrossed))
      · left
        rw [hget, site, if_neg hcrossed, if_pos rfl]
        exact Option.some_ne_none value

end Standing

/-- A trie whose table stores a tree that its root names. -/
structure Holds (crypto : Crypto) (known : List Node) (trie : MerklePatriciaTrie) (tree : Tree) :
    Prop where
  table : TableOf crypto known trie.nodes
  stored : Stored crypto trie.nodes tree
  proper : Proper tree
  root : trie.root = hashOf crypto tree

/-- The new trie holds the empty tree. -/
theorem holds_new (crypto : Crypto) (known : List Node) : Holds crypto known new .empty where
  table _ _ h := absurd h (by simp [new])
  stored := stored_empty _
  proper := .empty
  root := rfl

/-- An insertion that the tree allows. -/
theorem Holds.insert {crypto : Crypto} {known : List Node} (hfree : CollisionFree crypto known)
    {trie : MerklePatriciaTrie} {tree tree' : Tree} (h : Holds crypto known trie tree) {key value : Bytes}
    (hinsert : insertTree tree (toNibbles key) value = some tree')
    (hknown : ∀ node ∈ nodesOf crypto tree', node ∈ known) :
    ∃ trie', trie.insert crypto key value = some trie' ∧ Holds crypto known trie' tree' := by
  obtain ⟨entered, hat, henters⟩ := insertAt_tree hfree h.table h.proper h.stored
    (isNibbles_toNibbles key) (Nat.lt_succ_self _) hinsert hknown
  refine ⟨⟨entered.1, some entered.2⟩, ?_, henters.table, henters.stored,
    (h.proper.insert (isNibbles_toNibbles key) hinsert).1, henters.root.symm⟩
  rw [MerklePatriciaTrie.insert, h.root, hat]
  rfl

/-- A lookup reads what the tree holds. -/
theorem Holds.get {crypto : Crypto} {known : List Node} {trie : MerklePatriciaTrie} {tree : Tree}
    (h : Holds crypto known trie tree) (key : Bytes) :
    trie.get key = some (tree.get (toNibbles key)) := by
  rw [MerklePatriciaTrie.get, h.root]
  cases hroot : hashOf crypto tree with
  | none =>
    have hempty : tree = .empty := by
      by_contra hsome
      obtain ⟨root, hhash⟩ := hashOf_isSome crypto h.proper hsome
      rw [hroot] at hhash
      contradiction
    rw [hempty]
    rfl
  | some root =>
    exact getAt_tree h.proper h.stored hroot (isNibbles_toNibbles key) (Nat.lt_succ_self _)

/-- Insertions of keys of which none starts another complete; the trie holds the tree after them. -/
theorem insertAll_standing {crypto : Crypto} {known : List Node} (hfree : CollisionFree crypto known)
    {entries : List (Bytes × Bytes)} (hkeys : PrefixFree entries)
    (hknown : ∀ node ∈ nodesOfRun crypto entries, node ∈ known) :
    ∃ trie tree, insertAll crypto new entries = some trie ∧ Holds crypto known trie tree ∧
      Standing entries tree := by
  induction entries using List.reverseRecOn with
  | nil => exact ⟨new, .empty, rfl, holds_new crypto known, standing_nil⟩
  | append_singleton before entry ih =>
    obtain ⟨key, value⟩ := entry
    have hbefore : PrefixFree before := fun a ha b hb =>
      hkeys a (List.mem_append_left _ ha) b (List.mem_append_left _ hb)
    obtain ⟨trie, tree, hall, hholds, hstanding⟩ := ih hbefore
      fun node hnode => hknown node (nodesOfRun_append before _ node hnode)
    obtain ⟨tree', hinsert, hstanding'⟩ := hstanding.insert hkeys
    obtain ⟨trie', htrie', hholds'⟩ := hholds.insert hfree hinsert
      fun node hnode => hknown node (mem_nodesOfRun (List.prefix_refl _) hstanding'.result hnode)
    exact ⟨trie', tree', by rw [insertAll_append, hall, Option.bind_some, htrie'], hholds', hstanding'⟩

end MerklePatriciaTrie

end Nocostcoin
