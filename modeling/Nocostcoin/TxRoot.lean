import Nocostcoin.Library.PairwiseReduction
import Nocostcoin.Node

/-!
# What the transaction root commits to

The Merkle loop repeats an odd last hash at every level. So the root commits to the transaction hashes as
they are once all these repetitions are written out.
-/

namespace Nocostcoin

open PairwiseReduction

namespace Block

variable {crypto : Crypto} {txs txs' : List Transaction}

/-- Two hashes hashed together. -/
def merkleNode (crypto : Crypto) (left right : Bytes) : Bytes := crypto.sha256 (left ++ right)

/-- The leaves of the Merkle tree. -/
def merkleLeaves (crypto : Crypto) (txs : List Transaction) : List Bytes := txs.map (Transaction.hash crypto)

/-- What the Merkle loop feeds to SHA-256. -/
def merkleInputs (crypto : Crypto) (txs : List Transaction) : List Bytes :=
  (pairs (merkleNode crypto) txs.length (merkleLeaves crypto txs)).map fun pair => pair.1 ++ pair.2

/-- A round of the loop is a level of the reduction. -/
theorem merkleLevel_eq (crypto : Crypto) (hashes : List Bytes) :
    merkleLevel crypto hashes = level (merkleNode crypto) hashes := by
  induction hashes using merkleLevel.induct with
  | case1 left right rest ih => rw [merkleLevel, level, ih, merkleNode]
  | case2 last => rfl
  | case3 => rfl

/-- The loop is the reduction. -/
theorem merkleLoop_eq (crypto : Crypto) (rounds : ℕ) (hashes : List Bytes) :
    merkleLoop crypto rounds hashes = reduce (merkleNode crypto) rounds hashes := by
  induction rounds generalizing hashes with
  | zero => rfl
  | succ rounds ih => rw [merkleLoop, reduce, ih, merkleLevel_eq]

/-- The root of a nonempty list is what the reduction leaves, in hexadecimal. -/
theorem calculateMerkleRoot_eq (crypto : Crypto) (hne : txs ≠ []) :
    ∃ root, reduce (merkleNode crypto) txs.length (merkleLeaves crypto txs) = [root] ∧
      calculateMerkleRoot crypto txs = hexEncode root := by
  have hleaves : merkleLeaves crypto txs ≠ [] := by simpa [merkleLeaves] using hne
  have hlength : (reduce (merkleNode crypto) txs.length (merkleLeaves crypto txs)).length = 1 :=
    length_reduce (by simp [merkleLeaves]) hleaves
  obtain ⟨root, hroot⟩ := List.length_eq_one_iff.mp hlength
  refine ⟨root, hroot, ?_⟩
  unfold calculateMerkleRoot
  rw [if_neg (by simpa using hne)]
  dsimp only
  rw [List.length_map, merkleLoop_eq]
  unfold merkleLeaves at hroot
  rw [hroot]

/-- No two inputs of SHA-256 among some have one digest. -/
def CollisionFree (crypto : Crypto) (inputs : List Bytes) : Prop :=
  ∀ a ∈ inputs, ∀ b ∈ inputs, crypto.sha256 a = crypto.sha256 b → a = b

instance (crypto : Crypto) (inputs : List Bytes) : Decidable (CollisionFree crypto inputs) :=
  inferInstanceAs (Decidable (∀ a ∈ inputs, ∀ b ∈ inputs, _ → _))

/-- No transaction has the hash of some inputs. -/
def LeavesApart (crypto : Crypto) (txs : List Transaction) (inputs : List Bytes) : Prop :=
  ∀ tx ∈ txs, ∀ input ∈ inputs, tx.hash crypto ≠ crypto.sha256 input

instance (crypto : Crypto) (txs : List Transaction) (inputs : List Bytes) :
    Decidable (LeavesApart crypto txs inputs) :=
  inferInstanceAs (Decidable (∀ tx ∈ txs, ∀ input ∈ inputs, _ ≠ _))

/-- The hashes that the loop combines are digests. -/
theorem length_of_mem_pairs (hdigest : ∀ bytes, (crypto.sha256 bytes).length = 32) {pair : Bytes × Bytes}
    (h : pair ∈ pairs (merkleNode crypto) txs.length (merkleLeaves crypto txs)) :
    pair.1.length = 32 ∧ pair.2.length = 32 := by
  refine forall_pairs (P := fun hash => hash.length = 32) (fun _ _ _ _ => hdigest _) ?_ pair h
  intro hash hhash
  obtain ⟨tx, -, rfl⟩ := List.mem_map.mp hhash
  exact hdigest _

/-- The root of a nonempty list is not empty. -/
theorem calculateMerkleRoot_ne_empty (hdigest : ∀ bytes, (crypto.sha256 bytes).length = 32)
    (hne : txs ≠ []) : calculateMerkleRoot crypto txs ≠ "" := by
  obtain ⟨root, hreduce, hroot⟩ := calculateMerkleRoot_eq crypto hne
  have hlength : root.length = 32 := by
    have hmem : root ∈ reduce (merkleNode crypto) txs.length (merkleLeaves crypto txs) := by
      rw [hreduce]
      exact List.mem_singleton_self root
    refine forall_reduce (P := fun hash => hash.length = 32) (fun _ _ _ _ => hdigest _) ?_ root hmem
    intro hash hhash
    obtain ⟨tx, -, rfl⟩ := List.mem_map.mp hhash
    exact hdigest _
  rw [hroot]
  intro hempty
  obtain rfl : root = [] := hexEncode_injective hempty
  contradiction

/-- No transactions are told apart from some, by the root and by the completed hashes. -/
theorem calculateMerkleRoot_nil_iff (hdigest : ∀ bytes, (crypto.sha256 bytes).length = 32)
    (hne : txs ≠ []) :
    ¬ calculateMerkleRoot crypto txs = calculateMerkleRoot crypto [] ∧
      ¬ completed (merkleLeaves crypto txs) = completed (merkleLeaves crypto []) := by
  refine ⟨calculateMerkleRoot_ne_empty hdigest hne, fun hsame => ?_⟩
  have hfront := prefix_completed (merkleLeaves crypto txs)
  rw [hsame] at hfront
  have hleaves : merkleLeaves crypto txs = [] := List.prefix_nil.mp hfront
  exact hne (List.map_eq_nil_iff.mp hleaves)

/-- The roots of two lists are equal exactly when their hashes are completed to the same. -/
theorem calculateMerkleRoot_eq_iff (hdigest : ∀ bytes, (crypto.sha256 bytes).length = 32)
    (hfree : CollisionFree crypto (merkleInputs crypto txs ++ merkleInputs crypto txs'))
    (hleaf : LeavesApart crypto (txs ++ txs') (merkleInputs crypto txs ++ merkleInputs crypto txs')) :
    calculateMerkleRoot crypto txs = calculateMerkleRoot crypto txs' ↔
      completed (merkleLeaves crypto txs) = completed (merkleLeaves crypto txs') := by
  by_cases hne : txs = []
  · by_cases hne' : txs' = []
    · rw [hne, hne']
      exact iff_of_true rfl rfl
    · obtain ⟨hroot, hcompleted⟩ := calculateMerkleRoot_nil_iff hdigest hne'
      rw [hne]
      exact iff_of_false (Ne.symm hroot) (Ne.symm hcompleted)
  · by_cases hne' : txs' = []
    · obtain ⟨hroot, hcompleted⟩ := calculateMerkleRoot_nil_iff hdigest hne
      rw [hne']
      exact iff_of_false hroot hcompleted
    · obtain ⟨root, hreduce, hroot⟩ := calculateMerkleRoot_eq crypto hne
      obtain ⟨root', hreduce', hroot'⟩ := calculateMerkleRoot_eq crypto hne'
      have hlength : txs.length = (merkleLeaves crypto txs).length := (List.length_map _).symm
      have hlength' : txs'.length = (merkleLeaves crypto txs').length := (List.length_map _).symm
      -- an input tells its two halves
      have hinput : ∀ pair ∈ pairs (merkleNode crypto) txs.length (merkleLeaves crypto txs) ++
          pairs (merkleNode crypto) txs'.length (merkleLeaves crypto txs'),
          pair.1.length = 32 ∧ pair.1 ++ pair.2 ∈ merkleInputs crypto txs ++ merkleInputs crypto txs' := by
        intro pair hpair
        rcases List.mem_append.mp hpair with h | h
        · exact ⟨(length_of_mem_pairs hdigest h).1, List.mem_append_left _ (List.mem_map_of_mem h)⟩
        · exact ⟨(length_of_mem_pairs hdigest h).1, List.mem_append_right _ (List.mem_map_of_mem h)⟩
      rw [hroot, hroot', hexEncode_injective.eq_iff, ← List.singleton_inj, ← hreduce, ← hreduce']
      rw [hlength, hlength'] at hinput ⊢
      apply reduce_eq_iff
      · simpa [merkleLeaves] using hne
      · simpa [merkleLeaves] using hne'
      · intro pair hpair pair' hpair' hcombine
        obtain ⟨hfirst, hmem⟩ := hinput pair hpair
        obtain ⟨hfirst', hmem'⟩ := hinput pair' hpair'
        obtain ⟨hleft, hright⟩ := List.append_inj (hfree _ hmem _ hmem' hcombine)
          (hfirst.trans hfirst'.symm)
        exact Prod.ext hleft hright
      · intro hash hhash pair hpair
        rw [merkleLeaves, merkleLeaves, ← List.map_append] at hhash
        obtain ⟨tx, htx, rfl⟩ := List.mem_map.mp hhash
        exact hleaf tx htx _ (hinput pair hpair).2

/-- How far the root binds two lists of transactions. -/
structure RootBinds (crypto : Crypto) (txs txs' : List Transaction) : Prop where
  completed : calculateMerkleRoot crypto txs = calculateMerkleRoot crypto txs' ↔
    completed (merkleLeaves crypto txs) = completed (merkleLeaves crypto txs')
  length : calculateMerkleRoot crypto txs = calculateMerkleRoot crypto txs' →
    txs.length = txs'.length → merkleLeaves crypto txs = merkleLeaves crypto txs'
  distinct : calculateMerkleRoot crypto txs = calculateMerkleRoot crypto txs' →
    (merkleLeaves crypto txs).Nodup → (merkleLeaves crypto txs').Nodup →
      merkleLeaves crypto txs = merkleLeaves crypto txs'

/-- Without collisions among what is hashed the root binds the completed hashes: for lists of one length,
and for lists without a repeated hash, the hashes themselves. -/
theorem rootBinds_of_collisionFree (crypto : Crypto)
    (hdigest : ∀ bytes, (crypto.sha256 bytes).length = 32) (txs txs' : List Transaction)
    (hfree : CollisionFree crypto (merkleInputs crypto txs ++ merkleInputs crypto txs'))
    (hleaf : LeavesApart crypto (txs ++ txs') (merkleInputs crypto txs ++ merkleInputs crypto txs')) :
    RootBinds crypto txs txs' := by
  have hiff := calculateMerkleRoot_eq_iff hdigest hfree hleaf
  refine ⟨hiff, fun hroot hlength => ?_, fun hroot hnodup hnodup' => ?_⟩
  · exact eq_of_completed_of_length (hiff.mp hroot) (by simpa [merkleLeaves] using hlength)
  · exact eq_of_completed_of_nodup (hiff.mp hroot) hnodup hnodup'

/-- Three transfers of Alice. -/
def threeTransfers : List Transaction := [Sample.transfer 1 0, Sample.transfer 1 1, Sample.transfer 1 2]

/-- The same with the last one twice. -/
def lastTwice : List Transaction := threeTransfers ++ [Sample.transfer 1 2]

/-- Both have one root, without any collision. -/
theorem root_of_lastTwice :
    CollisionFree Crypto.plain
        (merkleInputs Crypto.plain threeTransfers ++ merkleInputs Crypto.plain lastTwice) ∧
      LeavesApart Crypto.plain (threeTransfers ++ lastTwice)
        (merkleInputs Crypto.plain threeTransfers ++ merkleInputs Crypto.plain lastTwice) ∧
      calculateMerkleRoot Crypto.plain threeTransfers = calculateMerkleRoot Crypto.plain lastTwice ∧
      threeTransfers.length ≠ lastTwice.length := by
  decide +kernel

/-- The three transfers in another order have another root. -/
theorem rootBinds_of_collisionFree_reverse :
    RootBinds Crypto.plain threeTransfers threeTransfers.reverse :=
  rootBinds_of_collisionFree Crypto.plain (fun _ => rfl) _ _ (by decide +kernel) (by decide +kernel)

end Block

end Nocostcoin
