import Mathlib.Data.Finmap
import Mathlib.Data.List.Sort
import Mathlib.Algebra.BigOperators.Group.Finset.Basic

/-!
# Finite maps, sums over their values, and listings of their keys

`FiniteMap κ ν` is Mathlib's `Finmap` at a constant family: extensional, computable and
without an order of its own. The sum of a weight over all values is exact (in `ℕ`), and
one insertion changes it by the new weight minus the replaced one.
-/

/-- A finite map whose values all have one type. -/
abbrev FiniteMap (κ ν : Type) := Finmap fun _ : κ => ν

namespace FiniteMap

variable {κ ν : Type} [DecidableEq κ]

/-- Reading after one write: the written key has the new value, the others keep theirs. -/
theorem lookup_insert_ite (m : FiniteMap κ ν) (k k' : κ) (v : ν) :
    (m.insert k v).lookup k' = if k' = k then some v else m.lookup k' := by
  by_cases h : k' = k
  · subst h
    simp
  · simp [h, Finmap.lookup_insert_of_ne]

/-- Reading an overlay: the upper map answers first. -/
theorem lookup_union_or (upper lower : FiniteMap κ ν) (k : κ) :
    (upper ∪ lower).lookup k = (upper.lookup k).or (lower.lookup k) := by
  by_cases h : k ∈ upper
  · obtain ⟨v, hv⟩ := Finmap.mem_iff.mp h
    rw [Finmap.lookup_union_left h, hv, Option.some_or]
  · rw [Finmap.lookup_union_right h, Finmap.lookup_eq_none.mpr h, Option.none_or]

/-- The exact sum of a weight over all values. -/
def sumOf (weight : ν → ℕ) (m : FiniteMap κ ν) : ℕ :=
  (m.entries.map fun entry => weight entry.2).sum

/-- The weight found under a key, zero when the key is absent. -/
def weightAt (weight : ν → ℕ) (m : FiniteMap κ ν) (k : κ) : ℕ :=
  (m.lookup k).elim 0 weight

omit [DecidableEq κ] in
/-- The empty map sums to zero. -/
@[simp] theorem sumOf_empty (weight : ν → ℕ) : sumOf weight (∅ : FiniteMap κ ν) = 0 := rfl

/-- A write at a fresh key adds the weight of its value. -/
theorem sumOf_insert_of_notMem (weight : ν → ℕ) (m : FiniteMap κ ν) {k : κ} (v : ν)
    (h : k ∉ m) : sumOf weight (m.insert k v) = weight v + sumOf weight m := by
  rw [sumOf, sumOf, Finmap.entries_insert_of_notMem h, Multiset.map_cons, Multiset.sum_cons]

/-- A map is the insertion of any of its entries into what is left without that key. -/
theorem insert_erase_of_lookup {m : FiniteMap κ ν} {k : κ} {v : ν} (h : m.lookup k = some v) :
    (m.erase k).insert k v = m := by
  apply Finmap.ext_lookup
  intro k'
  rw [lookup_insert_ite]
  by_cases hk : k' = k
  · rw [if_pos hk, hk, h]
  · rw [if_neg hk, Finmap.lookup_erase_ne hk]

/-- Overwriting a key forgets what was there. -/
theorem insert_erase_self (m : FiniteMap κ ν) (k : κ) (v : ν) :
    (m.erase k).insert k v = m.insert k v := by
  apply Finmap.ext_lookup
  intro k'
  rw [lookup_insert_ite, lookup_insert_ite]
  by_cases hk : k' = k
  · rw [if_pos hk, if_pos hk]
  · rw [if_neg hk, if_neg hk, Finmap.lookup_erase_ne hk]

/-- Removing a key removes exactly the weight held there. -/
theorem sumOf_erase (weight : ν → ℕ) (m : FiniteMap κ ν) (k : κ) :
    sumOf weight (m.erase k) + weightAt weight m k = sumOf weight m := by
  have hfresh : k ∉ m.erase k := Finmap.notMem_erase_self
  cases hk : m.lookup k with
  | none =>
    have herase : m.erase k = m := Finmap.ext_lookup fun k' => by
      by_cases h : k' = k
      · rw [h, Finmap.lookup_erase, hk]
      · rw [Finmap.lookup_erase_ne h]
    simp [weightAt, hk, herase]
  | some v =>
    have hins := sumOf_insert_of_notMem weight (m.erase k) v hfresh
    rw [insert_erase_of_lookup hk] at hins
    simp [weightAt, hk, hins, Nat.add_comm]

/-- One write changes the sum by the new weight minus the replaced one. -/
theorem sumOf_insert (weight : ν → ℕ) (m : FiniteMap κ ν) (k : κ) (v : ν) :
    sumOf weight (m.insert k v) + weightAt weight m k = sumOf weight m + weight v := by
  have hins := sumOf_insert_of_notMem weight (m.erase k) v Finmap.notMem_erase_self
  rw [insert_erase_self] at hins
  have herase := sumOf_erase weight m k
  omega

/-- A write to a fresh key adds the new weight. -/
theorem sumOf_insert_fresh (weight : ν → ℕ) {m : FiniteMap κ ν} {k : κ} (v : ν)
    (hfresh : m.lookup k = none) : sumOf weight (m.insert k v) = sumOf weight m + weight v := by
  have h := sumOf_insert weight m k v
  rwa [weightAt, hfresh, Option.elim_none, Nat.add_zero] at h

/-- A write over a value replaces its weight. -/
theorem sumOf_insert_over (weight : ν → ℕ) {m : FiniteMap κ ν} {k : κ} {old : ν} (v : ν)
    (hold : m.lookup k = some old) :
    sumOf weight (m.insert k v) + weight old = sumOf weight m + weight v := by
  have h := sumOf_insert weight m k v
  rwa [weightAt, hold, Option.elim_some] at h

/-- One value weighs at most the whole sum. -/
theorem weightAt_le_sumOf (weight : ν → ℕ) (m : FiniteMap κ ν) (k : κ) :
    weightAt weight m k ≤ sumOf weight m := by
  have h := sumOf_erase weight m k
  omega

/-- Two different keys together weigh at most the whole sum. -/
theorem weightAt_add_le_sumOf (weight : ν → ℕ) (m : FiniteMap κ ν) {k k' : κ} (hne : k' ≠ k) :
    weightAt weight m k + weightAt weight m k' ≤ sumOf weight m := by
  have h := sumOf_erase weight m k
  have h' := weightAt_le_sumOf weight (m.erase k) k'
  unfold weightAt at h' ⊢
  rw [Finmap.lookup_erase_ne hne] at h'
  unfold weightAt at h
  omega

/-- The weights at any keys together are at most the whole sum. -/
theorem sum_weightAt_le_sumOf (weight : ν → ℕ) (m : FiniteMap κ ν) (keys : Finset κ) :
    ∑ k ∈ keys, weightAt weight m k ≤ sumOf weight m := by
  induction keys using Finset.induction_on generalizing m with
  | empty => exact Nat.zero_le _
  | insert k keys hfresh ih =>
    have hrest : ∑ k' ∈ keys, weightAt weight m k' = ∑ k' ∈ keys, weightAt weight (m.erase k) k' := by
      apply Finset.sum_congr rfl
      intro k' hk'
      rw [weightAt, weightAt, Finmap.lookup_erase_ne]
      rintro rfl
      exact hfresh hk'
    have hsum := sumOf_erase weight m k
    have hbound := ih (m.erase k)
    rw [Finset.sum_insert hfresh, hrest]
    omega

/-- Rewrite what is under a key, which may be nothing before or after. -/
def alter (m : FiniteMap κ ν) (k : κ) (f : Option ν → Option ν) : FiniteMap κ ν :=
  match f (m.lookup k) with
  | none => m.erase k
  | some v => m.insert k v

/-- Reading after a rewrite. -/
theorem lookup_alter (m : FiniteMap κ ν) (k k' : κ) (f : Option ν → Option ν) :
    (m.alter k f).lookup k' = if k' = k then f (m.lookup k) else m.lookup k' := by
  unfold alter
  split
  · rename_i hnone
    split
    · rename_i heq
      rw [heq, Finmap.lookup_erase, hnone]
    · rename_i hne
      rw [Finmap.lookup_erase_ne hne]
  · rename_i v hsome
    rw [lookup_insert_ite, hsome]

/-- Rewrites under different keys commute. -/
theorem alter_comm {k k' : κ} (hne : k ≠ k') (f g : Option ν → Option ν) (m : FiniteMap κ ν) :
    (m.alter k f).alter k' g = (m.alter k' g).alter k f := by
  apply Finmap.ext_lookup
  intro other
  simp only [lookup_alter, if_neg hne, if_neg hne.symm]
  by_cases hfirst : other = k'
  · rw [if_pos hfirst, if_neg (hfirst ▸ hne.symm), if_pos hfirst]
  · rw [if_neg hfirst, if_neg hfirst]

/-- Two rewrites under one key are one. -/
theorem alter_alter (m : FiniteMap κ ν) (k : κ) (f g : Option ν → Option ν) :
    (m.alter k f).alter k g = m.alter k (g ∘ f) := by
  apply Finmap.ext_lookup
  intro other
  simp only [lookup_alter, if_true, Function.comp_apply]
  split <;> rfl

/-- Writes under different keys commute. -/
theorem insert_comm {k k' : κ} (hne : k ≠ k') (v v' : ν) (m : FiniteMap κ ν) :
    (m.insert k v).insert k' v' = (m.insert k' v').insert k v :=
  alter_comm hne (fun _ => some v) (fun _ => some v') m

end FiniteMap

namespace FiniteSet

variable {κ : Type} (r : κ → κ → Prop) [DecidableRel r] [Std.Total r] [IsTrans κ r] [Std.Antisymm r]

/-- The elements of a finite set in increasing order, by insertion so that it computes. -/
def sorted (s : Finset κ) : List κ :=
  Quot.liftOn s.val (List.insertionSort r) fun _ _ h =>
    List.Perm.eq_of_pairwise (fun _ _ _ _ hab hba => Std.Antisymm.antisymm _ _ hab hba)
      (List.pairwise_insertionSort r _) (List.pairwise_insertionSort r _)
      ((List.perm_insertionSort r _).trans (h.trans (List.perm_insertionSort r _).symm))

/-- The listing has exactly the elements of the set. -/
theorem mem_sorted (s : Finset κ) (k : κ) : k ∈ sorted r s ↔ k ∈ s := by
  obtain ⟨⟨l⟩, hl⟩ := s
  exact List.mem_insertionSort r

/-- No element is listed twice. -/
theorem nodup_sorted (s : Finset κ) : (sorted r s).Nodup := by
  obtain ⟨⟨l⟩, hl⟩ := s
  exact (List.perm_insertionSort r l).nodup_iff.mpr hl

/-- The listing is ordered. -/
theorem pairwise_sorted (s : Finset κ) : (sorted r s).Pairwise r := by
  obtain ⟨⟨l⟩, hl⟩ := s
  exact List.pairwise_insertionSort r l

end FiniteSet
