import Nocostcoin.Trie.Insertion

/-!
# Insertion for keys of one length

With keys of one length the tree stays uniform, and an insertion never fails.
-/

namespace Nocostcoin

namespace MerklePatriciaTrie

/-- The tree is uniform after an insertion, and what it holds changes under the target alone. -/
structure Sets (n : ℕ) (tree : Tree) (path value : Bytes) (tree' : Tree) : Prop where
  result : insertTree tree path value = some tree'
  uniform : RadixTree.Uniform n tree'
  get : ∀ q, tree'.get q = if q = target tree path then some value else tree.get q

/-- The first insertion makes a leaf. -/
theorem sets_empty (path value : Bytes) : Sets path.length .empty path value (.leaf path value) where
  result := rfl
  uniform := .leaf rfl
  get := get_insertTree (.inl rfl) rfl

/-- In a uniform tree every key of its depth is clear. -/
theorem clear_of_uniform {n : ℕ} {tree : Tree} {path : Bytes} (h : RadixTree.Uniform n tree)
    (hlength : path.length = n) : Clear tree path where
  leaves q hget hleaf hle := by
    apply hle.eq_of_length
    rw [hlength, (h.length_of_get hget).2 hleaf]
  held q hget hle := by
    apply Eq.symm
    apply hle.eq_of_length_le
    rw [hlength]
    exact (h.length_of_get hget).1

/-- An insertion into a uniform tree. -/
theorem sets_uniform {n : ℕ} {tree : Tree} {path : Bytes} (h : RadixTree.Uniform n tree)
    (hlength : path.length = n) (value : Bytes) : ∃ tree', Sets n tree path value tree' := by
  obtain ⟨tree', hresult⟩ := exists_insertTree (.inr h.forked) (clear_of_uniform h hlength) value
  have hforked := forked_insertTree (.inr h.forked) hresult
  have hget := get_insertTree (.inr h.forked) hresult
  have hmore : ∀ q, tree.get q ≠ none → tree'.get q ≠ none := by
    intro q hq
    rw [hget]
    split
    · exact Option.some_ne_none value
    · exact hq
  have hleaf : ∀ q, tree'.branchAt q = false → tree.branchAt q ≠ true := by
    intro q hno hbranch
    rw [h.forked.branchAt_mono hforked hmore hbranch] at hno
    exact Bool.false_ne_true hno.symm
  refine ⟨tree', hresult, hforked.uniform ?_, hget⟩
  intro q hq hno
  by_cases htarget : q = target tree path
  · unfold target at htarget
    split at htarget
    · rename_i hbranch
      exact absurd (htarget ▸ hbranch) (hleaf q hno)
    · rw [htarget, hlength]
  · rw [hget, if_neg htarget] at hq
    exact (h.length_of_get hq).2 (Bool.eq_false_of_not_eq_true (hleaf q hno))

end MerklePatriciaTrie

end Nocostcoin
