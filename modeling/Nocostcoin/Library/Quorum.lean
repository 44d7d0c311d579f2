import Mathlib.Algebra.BigOperators.Group.Finset.Basic
import Mathlib.Algebra.Order.BigOperators.Group.Finset
import Mathlib.Tactic.Linarith

/-!
# Weighted quorums

Voters carry natural weights. Two sets of voters that each hold more than two thirds of the total
weight share voters with more than a third of it.
-/

namespace Quorum

open Finset

variable {ι : Type} (weight : ι → ℕ)

/-- The weight that a set of voters holds. -/
def held (voters : Finset ι) : ℕ := ∑ i ∈ voters, weight i

/-- Adding up stakes as 64-bit words gives their sum modulo `2 ^ 64`. -/
theorem toNat_wordSum (stake : ι → UInt64) (voters : List ι) (tally : UInt64) :
    (voters.foldl (fun total voter => total + stake voter) tally).toNat =
      (tally.toNat + (voters.map fun voter => (stake voter).toNat).sum) % 2 ^ 64 := by
  induction voters generalizing tally with
  | nil =>
    have h := tally.toNat_lt
    simp only [List.foldl_nil, List.map_nil, List.sum_nil, Nat.add_zero]
    omega
  | cons voter rest ih =>
    rw [List.foldl_cons, ih, UInt64.toNat_add, List.map_cons, List.sum_cons]
    omega

variable [DecidableEq ι]

/-- What two sets of voters hold is what their union and their intersection hold. -/
theorem held_union_add_inter (first second : Finset ι) :
    held weight (first ∪ second) + held weight (first ∩ second) =
      held weight first + held weight second :=
  sum_union_inter

/-- Two sets of voters with more than two thirds of the total each share more than one third. -/
theorem third_lt_held_inter {total : ℕ} {first second : Finset ι}
    (hunion : held weight (first ∪ second) ≤ total) (hfirst : 2 * total < 3 * held weight first)
    (hsecond : 2 * total < 3 * held weight second) :
    total < 3 * held weight (first ∩ second) := by
  have hsum := held_union_add_inter weight first second
  omega

/-- For pairwise different voters whose weights fit, the tally in machine words is exact. -/
theorem toNat_tally (stake : ι → UInt64) {voters : List ι} (hnodup : voters.Nodup)
    (hfits : held (fun voter => (stake voter).toNat) voters.toFinset < 2 ^ 64) :
    (voters.foldl (fun total voter => total + stake voter) 0).toNat =
      held (fun voter => (stake voter).toNat) voters.toFinset := by
  have hsum : (voters.map fun voter => (stake voter).toNat).sum =
      held (fun voter => (stake voter).toNat) voters.toFinset :=
    (List.sum_toFinset _ hnodup).symm
  rw [toNat_wordSum, hsum, UInt64.toNat_zero, Nat.zero_add]
  exact Nat.mod_eq_of_lt hfits

end Quorum
