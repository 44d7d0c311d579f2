import Nocostcoin.Trie.Lookup

/-!
# What the root commits to

For keys of one length two tries have one root exactly when they hold the same values in the same places.
So the root commits to the last values of the keys as long as the insertions of crowded keys, which go
to other places, do not tell two sequences with the same last values apart, or hide a difference.
-/

namespace Nocostcoin

namespace MerklePatriciaTrie

variable {crypto : Crypto} {n : ℕ} {entries entries' : List (Bytes × Bytes)}

/-- A digest of some bytes is not the empty text. -/
theorem hexEncode_ne_empty {bytes : Bytes} (h : bytes ≠ []) : hexEncode bytes ≠ "" := by
  obtain ⟨byte, rest, rfl⟩ := List.exists_cons_of_ne_nil h
  intro hempty
  have hlist := congrArg String.toList hempty
  rw [hexEncode, String.toList_ofList] at hlist
  exact absurd hlist (by simp)

/-- With digests of 32 bytes the root tells the hashes of two trees apart, and from no tree. -/
theorem getD_hashOf_inj (hdigest : ∀ bytes, (crypto.sha256 bytes).length = 32) {tree tree' : Tree} :
    (hashOf crypto tree).getD "" = (hashOf crypto tree').getD "" ↔
      hashOf crypto tree = hashOf crypto tree' := by
  have hne : ∀ node : Node, node.hash crypto ≠ "" := by
    intro node
    apply hexEncode_ne_empty
    rw [← List.length_pos_iff, hdigest]
    decide
  refine ⟨fun h => ?_, fun h => by rw [h]⟩
  rw [hashOf, hashOf] at h ⊢
  cases hnode : nodeOf crypto tree with
  | none =>
    cases hnode' : nodeOf crypto tree' with
    | none => rfl
    | some node' =>
      rw [hnode, hnode'] at h
      exact absurd h.symm (hne node')
  | some node =>
    cases hnode' : nodeOf crypto tree' with
    | none =>
      rw [hnode, hnode'] at h
      exact absurd h (hne node)
    | some node' =>
      rw [hnode, hnode'] at h
      exact congrArg some h

/-- Trees after insertions are equal when they hold the same. -/
theorem Standing.eq_of_get {tree tree' : Tree} (h : Standing entries tree) (h' : Standing entries' tree')
    (hsame : ∀ q, tree.get q = tree'.get q) : tree = tree' := by
  cases h.forked with
  | inl hempty =>
    rw [hempty.2] at hsame ⊢
    cases h'.forked with
    | inl hempty' => exact hempty'.2.symm
    | inr hforked' =>
      obtain ⟨path, hpath⟩ := hforked'.canonical.holds
      exact absurd (hsame path).symm hpath
  | inr hforked =>
    cases h'.forked with
    | inl hempty' =>
      rw [hempty'.2] at hsame
      obtain ⟨path, hpath⟩ := hforked.canonical.holds
      exact absurd (hsame path) hpath
    | inr hforked' => exact hforked.canonical.eq_of_get hforked'.canonical hsame

/-- For keys of which none starts another the roots after two sequences are equal exactly when the last
writes to all sites are. -/
theorem rootHash_eq_iff_sited (hdigest : ∀ bytes, (crypto.sha256 bytes).length = 32)
    (hkeys : PrefixFree entries) (hkeys' : PrefixFree entries')
    (hfree : CollisionFree crypto (nodesOfRun crypto entries ++ nodesOfRun crypto entries')) :
    ∃ trie trie', insertAll crypto new entries = some trie ∧
      insertAll crypto new entries' = some trie' ∧
      (trie.rootHash = trie'.rootHash ↔
        ∀ path, lastWrite (sited entries) path = lastWrite (sited entries') path) := by
  obtain ⟨trie, tree, hall, hholds, hstanding⟩ := insertAll_standing hfree hkeys
    fun node hnode => List.mem_append_left _ hnode
  obtain ⟨trie', tree', hall', hholds', hstanding'⟩ := insertAll_standing hfree hkeys'
    fun node hnode => List.mem_append_right _ hnode
  refine ⟨trie, trie', hall, hall', ?_⟩
  rw [rootHash, rootHash, hholds.root, hholds'.root, getD_hashOf_inj hdigest]
  constructor
  · intro hroot path
    have htree : tree = tree' := hholds.proper.eq_of_hashOf hfree hholds'.proper
      (fun node hnode => List.mem_append_left _
        (mem_nodesOfRun (List.prefix_refl _) hstanding.result hnode))
      (fun node hnode => List.mem_append_right _
        (mem_nodesOfRun (List.prefix_refl _) hstanding'.result hnode)) hroot
    rw [← hstanding.get, ← hstanding'.get, htree]
  · intro hsame
    rw [hstanding.eq_of_get hstanding' fun q => by rw [hstanding.get, hstanding'.get, hsame]]

/-- The roots after two sequences are equal exactly when the last writes to all places are. -/
theorem rootHash_eq_iff (hdigest : ∀ bytes, (crypto.sha256 bytes).length = 32)
    (hlength : ∀ entry ∈ entries, entry.1.length = n)
    (hlength' : ∀ entry ∈ entries', entry.1.length = n)
    (hfree : CollisionFree crypto (nodesOfRun crypto entries ++ nodesOfRun crypto entries')) :
    ∃ trie trie', insertAll crypto new entries = some trie ∧
      insertAll crypto new entries' = some trie' ∧
      (trie.rootHash = trie'.rootHash ↔
        ∀ place, lastWrite (placed entries) place = lastWrite (placed entries') place) := by
  rw [← sited_eq_placed (length_toNibbles_of_mem hlength),
    ← sited_eq_placed (length_toNibbles_of_mem hlength')]
  exact rootHash_eq_iff_sited hdigest (prefixFree_of_length hlength) (prefixFree_of_length hlength') hfree

/-- The root commits to the last values of the keys exactly when two sequences have the same last write
to every place just as they have the same last value under every key. -/
theorem rootHash_commits_iff (crypto : Crypto) (hdigest : ∀ bytes, (crypto.sha256 bytes).length = 32)
    {n : ℕ} {entries entries' : List (Bytes × Bytes)}
    (hlength : ∀ entry ∈ entries, entry.1.length = n)
    (hlength' : ∀ entry ∈ entries', entry.1.length = n)
    (hfree : CollisionFree crypto (nodesOfRun crypto entries ++ nodesOfRun crypto entries')) :
    ∃ trie trie', insertAll crypto new entries = some trie ∧
      insertAll crypto new entries' = some trie' ∧
      ((trie.rootHash = trie'.rootHash ↔
          ∀ key, lastWrite entries key = lastWrite entries' key) ↔
        ((∀ key, lastWrite entries key = lastWrite entries' key) ↔
          ∀ place, lastWrite (placed entries) place = lastWrite (placed entries') place)) := by
  obtain ⟨trie, trie', hall, hall', hroot⟩ := rootHash_eq_iff hdigest hlength hlength' hfree
  refine ⟨trie, trie', hall, hall', ?_⟩
  rw [hroot]
  exact ⟨fun h => h.symm, fun h => h.symm⟩

/-- For three addresses that differ in the last nibble, in one order and in the other. -/
theorem rootHash_commits_of_siblings :
    ∃ trie trie', insertAll Crypto.plain new siblingEntries = some trie ∧
      insertAll Crypto.plain new siblingEntries.reverse = some trie' ∧
      ((trie.rootHash = trie'.rootHash ↔
          ∀ key, lastWrite siblingEntries key = lastWrite siblingEntries.reverse key) ↔
        ((∀ key, lastWrite siblingEntries key = lastWrite siblingEntries.reverse key) ↔
          ∀ place, lastWrite (placed siblingEntries) place =
            lastWrite (placed siblingEntries.reverse) place)) :=
  rootHash_commits_iff Crypto.plain (fun _ => rfl) (n := 1) (by decide) (by decide)
    (by decide +kernel)

/-- The two orders leave the same last values and different roots. -/
theorem root_depends_on_order :
    CollisionFree Crypto.plain
        (nodesOfRun Crypto.plain siblingEntries ++ nodesOfRun Crypto.plain siblingEntries.reverse) ∧
      (∀ key, lastWrite siblingEntries key = lastWrite siblingEntries.reverse key) ∧
      (insertAll Crypto.plain new siblingEntries).map rootHash ≠
        (insertAll Crypto.plain new siblingEntries.reverse).map rootHash := by
  refine ⟨by decide +kernel, fun key => ?_, by decide +kernel⟩
  by_cases hfirst : key = [0x10]
  · rw [hfirst]
    rfl
  by_cases hsecond : key = [0x11]
  · rw [hsecond]
    rfl
  by_cases hthird : key = [0x12]
  · rw [hthird]
    rfl
  simp only [siblingEntries, lastWrite, List.reverse_cons, List.reverse_nil, List.nil_append,
    List.cons_append, List.foldl_cons, List.foldl_nil, Function.update_apply, if_neg hfirst,
    if_neg hsecond, if_neg hthird]

/-- No insertion of the sequence is that of a crowded key. -/
def Uncrowded (entries : List (Bytes × Bytes)) : Prop :=
  ∀ before key value after, entries = before ++ (key, value) :: after → ¬ Crowded before key

/-- Then every write goes to the path of its key. -/
theorem Uncrowded.placed_eq (h : Uncrowded entries) :
    placed entries = entries.map fun entry => (toNibbles entry.1, entry.2) := by
  induction entries using List.reverseRecOn with
  | nil => rfl
  | append_singleton before entry ih =>
    obtain ⟨key, value⟩ := entry
    have hbefore : Uncrowded before := by
      intro earlier key' value' after hsplit
      apply h earlier key' value' (after ++ [(key, value)])
      rw [hsplit, List.append_assoc, List.cons_append]
    rw [placed_append, ih hbefore, place, if_neg (h before key value [] rfl), List.map_append,
      List.map_singleton]

/-- Writes under injective names. -/
theorem lastWrite_map {name : Bytes → Bytes} (hname : Function.Injective name)
    (writes : List (Bytes × Bytes)) (key : Bytes) :
    lastWrite (writes.map fun write => (name write.1, write.2)) (name key) = lastWrite writes key := by
  induction writes using List.reverseRecOn with
  | nil => rfl
  | append_singleton before write ih =>
    obtain ⟨key', value⟩ := write
    rw [List.map_append, List.map_singleton, lastWrite_append, lastWrite_append, ih]
    simp only [hname.eq_iff]

/-- Nothing is written under other names. -/
theorem lastWrite_map_of_notMem {name : Bytes → Bytes} {place : Bytes} (hplace : ∀ key, place ≠ name key)
    (writes : List (Bytes × Bytes)) :
    lastWrite (writes.map fun write => (name write.1, write.2)) place = none := by
  induction writes using List.reverseRecOn with
  | nil => rfl
  | append_singleton before write ih =>
    obtain ⟨key, value⟩ := write
    rw [List.map_append, List.map_singleton, lastWrite_append, if_neg (hplace key), ih]

/-- Writes under injective names leave the same exactly when the writes do. -/
theorem lastWrite_map_iff {name : Bytes → Bytes} (hname : Function.Injective name)
    (writes writes' : List (Bytes × Bytes)) :
    (∀ place, lastWrite (writes.map fun write => (name write.1, write.2)) place =
        lastWrite (writes'.map fun write => (name write.1, write.2)) place) ↔
      ∀ key, lastWrite writes key = lastWrite writes' key := by
  constructor
  · intro hsame key
    rw [← lastWrite_map hname writes, hsame, lastWrite_map hname]
  · intro hsame place
    by_cases hplace : ∃ key, place = name key
    · obtain ⟨key, rfl⟩ := hplace
      rw [lastWrite_map hname, lastWrite_map hname, hsame]
    · rw [not_exists] at hplace
      rw [lastWrite_map_of_notMem hplace, lastWrite_map_of_notMem hplace]

/-- Without insertions of crowded keys the root commits to the map and to nothing else. -/
theorem rootHash_eq_iff_of_uncrowded (hdigest : ∀ bytes, (crypto.sha256 bytes).length = 32)
    (hlength : ∀ entry ∈ entries, entry.1.length = n)
    (hlength' : ∀ entry ∈ entries', entry.1.length = n)
    (hfree : CollisionFree crypto (nodesOfRun crypto entries ++ nodesOfRun crypto entries'))
    (h : Uncrowded entries) (h' : Uncrowded entries') :
    ∃ trie trie', insertAll crypto new entries = some trie ∧
      insertAll crypto new entries' = some trie' ∧
      (trie.rootHash = trie'.rootHash ↔
        ∀ key, lastWrite entries key = lastWrite entries' key) := by
  obtain ⟨trie, trie', hall, hall', hroot⟩ := rootHash_eq_iff hdigest hlength hlength' hfree
  refine ⟨trie, trie', hall, hall', hroot.trans ?_⟩
  rw [h.placed_eq, h'.placed_eq]
  exact lastWrite_map_iff toNibbles_injective entries entries'

/-- Every insertion of the sequence writes under its own key. -/
def OwnSites (entries : List (Bytes × Bytes)) : Prop :=
  sited entries = entries.map fun entry => (toNibbles entry.1, entry.2)

instance (entries : List (Bytes × Bytes)) : Decidable (OwnSites entries) :=
  inferInstanceAs (Decidable (_ = _))

/-- Two such sequences leave the same at every site exactly when they leave the same under every key. -/
theorem lastWrite_sited_iff (h : OwnSites entries) (h' : OwnSites entries') :
    (∀ path, lastWrite (sited entries) path = lastWrite (sited entries') path) ↔
      ∀ key, lastWrite entries key = lastWrite entries' key := by
  rw [h, h']
  exact lastWrite_map_iff toNibbles_injective entries entries'

end MerklePatriciaTrie

end Nocostcoin
