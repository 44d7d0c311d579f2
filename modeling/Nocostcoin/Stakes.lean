import Nocostcoin.Library.Quorum
import Nocostcoin.Library.Execution
import Nocostcoin.Validator

/-!
# The stakes of a validator set

The cached total against the sum over the map, through every order of registrations,
unregistrations and slashes.
-/

namespace Nocostcoin

open Execution

namespace ValidatorSet

/-- The stake of a key, zero for a key that is not registered. -/
def stakeOf (set : ValidatorSet) (pubkey : Bytes) : ℕ :=
  FiniteMap.weightAt (fun validator => validator.stake.toNat) set.validators pubkey

/-- The stake that the tally adds for a key. -/
def stakeWord (set : ValidatorSet) (pubkey : Bytes) : UInt64 :=
  ((set.getValidator pubkey).map ValidatorInfo.stake).getD 0

/-- The tally adds the stake of the key. -/
theorem toNat_stakeWord (set : ValidatorSet) (pubkey : Bytes) :
    (set.stakeWord pubkey).toNat = set.stakeOf pubkey := by
  unfold stakeWord getValidator stakeOf FiniteMap.weightAt
  cases set.validators.lookup pubkey with
  | none => rfl
  | some validator => rfl

/-- The exact sum of the stakes. -/
def exactTotal (set : ValidatorSet) : ℕ :=
  FiniteMap.sumOf (fun validator => validator.stake.toNat) set.validators

/-- The sets that the methods build. -/
inductive Built : ValidatorSet → Prop
  | new : Built .new
  | register {set : ValidatorSet} (pubkey : Bytes) (stake epoch : UInt64) :
      Built set → Built (set.registerValidator pubkey stake epoch).2
  | unregister {set : ValidatorSet} (pubkey : Bytes) :
      Built set → Built (set.unregisterValidator pubkey).2
  | slash {set : ValidatorSet} (pubkey : Bytes) : Built set → Built (set.slashValidator pubkey).2

/-- Registering validators one after the other builds a set. -/
theorem Built.foldl_register {set : ValidatorSet} (h : Built set) (stakes : List (Bytes × UInt64)) :
    Built (stakes.foldl (fun set entry => (set.registerValidator entry.1 entry.2 0).2) set) := by
  induction stakes generalizing set with
  | nil => exact h
  | cons entry stakes ih => exact ih (h.register entry.1 entry.2 0)

/-- The cached total is the sum of the stakes, as a 64-bit word. -/
theorem Built.totalStake {set : ValidatorSet} (h : Built set) :
    set.totalStake.toNat = set.exactTotal % 2 ^ 64 := by
  induction h with
  | new => rfl
  | @register set pubkey stake epoch _ ih =>
    unfold registerValidator exactTotal at *
    split_ifs
    · exact ih
    · exact ih
    · rename_i hfresh
      dsimp only
      rw [FiniteMap.sumOf_insert_fresh _ _ (Option.not_isSome_iff_eq_none.mp hfresh),
        UInt64.toNat_add, ih, ValidatorInfo.new]
      dsimp only
      omega
  | @unregister set pubkey _ ih =>
    unfold unregisterValidator exactTotal at *
    cases hfound : set.validators.lookup pubkey with
    | none => exact ih
    | some validator =>
      have hsum := FiniteMap.sumOf_erase (fun validator => validator.stake.toNat) set.validators pubkey
      rw [FiniteMap.weightAt, hfound, Option.elim_some] at hsum
      have hstake := validator.stake.toNat_lt
      dsimp only
      rw [UInt64.toNat_sub, ih]
      omega
  | @slash set pubkey _ ih =>
    unfold slashValidator exactTotal at *
    cases hfound : set.validators.lookup pubkey with
    | none => exact ih
    | some validator =>
      have hsum := FiniteMap.sumOf_insert_over (fun validator => validator.stake.toNat)
        { validator with slashed := true, stake := 0 } hfound
      have hstake := validator.stake.toNat_lt
      rw [UInt64.toNat_zero, Nat.add_zero] at hsum
      dsimp only
      split_ifs
      · exact ih
      · dsimp only
        rw [UInt64.toNat_sub, ih]
        omega

/-- No set of voters holds more than the total. -/
theorem held_le_exactTotal (set : ValidatorSet) (voters : Finset Bytes) :
    Quorum.held set.stakeOf voters ≤ set.exactTotal :=
  FiniteMap.sum_weightAt_le_sumOf _ set.validators voters

/-- A registered validator that was slashed. -/
def isSlashed (set : ValidatorSet) (pubkey : Bytes) : Bool :=
  (set.validators.lookup pubkey).any fun validator => validator.slashed

/-- Slashing a validator slashes no other. -/
theorem isSlashed_slashValidator {set : ValidatorSet} {pubkey other : Bytes}
    (h : (set.slashValidator pubkey).2.isSlashed other = true) :
    other = pubkey ∨ set.isSlashed other = true := by
  unfold slashValidator at h
  split at h
  · exact .inr h
  · split at h
    · exact .inr h
    · unfold isSlashed at h ⊢
      dsimp only at h
      rw [FiniteMap.lookup_insert_ite] at h
      split at h
      · rename_i heq
        exact .inl heq
      · exact .inr h

/-- A slash marks the entry of its key and takes its stake, unless it was slashed already. -/
theorem lookup_slashValidator (set : ValidatorSet) (pubkey other : Bytes) :
    (set.slashValidator pubkey).2.validators.lookup other =
      if other = pubkey then
        (set.validators.lookup pubkey).map fun validator =>
          if validator.slashed then validator else { validator with slashed := true, stake := 0 }
      else set.validators.lookup other := by
  unfold slashValidator
  cases hfound : set.validators.lookup pubkey with
  | none =>
    dsimp only
    by_cases heq : other = pubkey
    · rw [if_pos heq, heq, hfound]
      rfl
    · rw [if_neg heq]
  | some validator =>
    dsimp only
    by_cases hslashed : validator.slashed = true
    · rw [if_pos hslashed, Option.map_some, if_pos hslashed]
      by_cases heq : other = pubkey
      · rw [if_pos heq, heq, hfound]
      · rw [if_neg heq]
    · rw [if_neg hslashed, Option.map_some, if_neg hslashed]
      exact FiniteMap.lookup_insert_ite _ _ _ _

/-- The stakes of the entries: none for a slashed one, at least the minimum for any other. -/
def StakesKept (set : ValidatorSet) : Prop :=
  ∀ pubkey validator, set.getValidator pubkey = some validator →
    if validator.slashed then validator.stake = 0 else minStake ≤ validator.stake

/-- The methods build sets whose entries have such stakes. -/
theorem Built.stakesKept {set : ValidatorSet} (h : Built set) : set.StakesKept := by
  induction h with
  | new => exact fun pubkey validator hfound => nomatch hfound
  | @register set pubkey stake epoch _ ih =>
    intro other validator hfound
    unfold getValidator at hfound
    rw [lookup_registerValidator] at hfound
    split at hfound
    · rename_i hentered
      obtain rfl := Option.some.inj hfound
      exact hentered.2.1
    · exact ih other validator hfound
  | @unregister set pubkey _ ih =>
    intro other validator hfound
    unfold getValidator at hfound
    rw [lookup_unregisterValidator] at hfound
    split at hfound
    · contradiction
    · exact ih other validator hfound
  | @slash set pubkey _ ih =>
    intro other validator hfound
    unfold getValidator at hfound
    rw [lookup_slashValidator] at hfound
    split at hfound
    · obtain ⟨old, hold, rfl⟩ := Option.map_eq_some_iff.mp hfound
      by_cases hslashed : old.slashed = true
      · rw [if_pos hslashed]
        exact ih pubkey old hold
      · rw [if_neg hslashed]
        rfl
    · exact ih other validator hfound

/-- The total is exact, and covers what an unregistration or a slash subtracts from it. -/
structure Balanced (set : ValidatorSet) : Prop where
  total : set.totalStake.toNat = set.exactTotal
  covered : ∀ pubkey validator, set.getValidator pubkey = some validator →
    validator.stake ≤ set.totalStake

/-- A total that fits in 64 bits is exact. -/
theorem Built.balanced {set : ValidatorSet} (h : Built set) (hfits : set.exactTotal < 2 ^ 64) :
    set.Balanced := by
  have htotal : set.totalStake.toNat = set.exactTotal := by
    rw [h.totalStake, Nat.mod_eq_of_lt hfits]
  refine ⟨htotal, fun pubkey validator hfound => ?_⟩
  have hweight := FiniteMap.weightAt_le_sumOf (fun validator => validator.stake.toNat)
    set.validators pubkey
  unfold getValidator at hfound
  rw [FiniteMap.weightAt, hfound, Option.elim_some] at hweight
  rw [UInt64.le_iff_toNat_le, htotal]
  exact hweight

/-- The calls that change a set. -/
inductive Operation where
  | register (pubkey : Bytes) (stake epoch : UInt64)
  | unregister (pubkey : Bytes)
  | slash (pubkey : Bytes)

/-- Perform a call; an unregistration and a slash answer with a stake. -/
def operate (set : ValidatorSet) : Operation → Option (Except String (Option UInt64) × ValidatorSet)
  | .register pubkey stake epoch =>
    let call := set.registerValidator pubkey stake epoch
    some (call.1.map fun () => none, call.2)
  | .unregister pubkey =>
    let call := set.unregisterValidator pubkey
    some (call.1.map some, call.2)
  | .slash pubkey =>
    let call := set.slashValidator pubkey
    some (call.1.map some, call.2)

/-- Whether a set is built stays through every call. -/
theorem Built.operate {set set' : ValidatorSet} {operation : Operation}
    {result : Except String (Option UInt64)} (h : Built set)
    (hcall : set.operate operation = some (result, set')) : Built set' := by
  cases operation with
  | register pubkey stake epoch =>
    obtain ⟨-, rfl⟩ := Prod.mk.inj (Option.some.inj hcall)
    exact h.register pubkey stake epoch
  | unregister pubkey =>
    obtain ⟨-, rfl⟩ := Prod.mk.inj (Option.some.inj hcall)
    exact h.unregister pubkey
  | slash pubkey =>
    obtain ⟨-, rfl⟩ := Prod.mk.inj (Option.some.inj hcall)
    exact h.slash pubkey

/-- A failing call leaves the set alone. -/
theorem unchanged_of_operate_error {set set' : ValidatorSet} {operation : Operation} {error : String}
    (hcall : set.operate operation = some (.error error, set')) : set' = set := by
  cases operation with
  | register pubkey stake epoch =>
    obtain ⟨hresult, rfl⟩ := Prod.mk.inj (Option.some.inj hcall)
    unfold registerValidator at hresult ⊢
    split_ifs at hresult ⊢
    · rfl
    · rfl
    · contradiction
  | unregister pubkey =>
    obtain ⟨hresult, rfl⟩ := Prod.mk.inj (Option.some.inj hcall)
    unfold unregisterValidator at hresult ⊢
    cases hfound : set.validators.lookup pubkey with
    | none => rfl
    | some validator =>
      rw [hfound] at hresult
      contradiction
  | slash pubkey =>
    obtain ⟨hresult, rfl⟩ := Prod.mk.inj (Option.some.inj hcall)
    unfold slashValidator at hresult ⊢
    cases hfound : set.validators.lookup pubkey with
    | none => rfl
    | some validator =>
      rw [hfound] at hresult
      dsimp only at hresult ⊢
      split_ifs at hresult ⊢
      · rfl
      · contradiction

/-- A slash that succeeds marks its key. -/
theorem isSlashed_of_operate_slash {set set' : ValidatorSet} {pubkey : Bytes} {stake : Option UInt64}
    (hcall : set.operate (.slash pubkey) = some (.ok stake, set')) : set'.isSlashed pubkey = true := by
  obtain ⟨hresult, rfl⟩ := Prod.mk.inj (Option.some.inj hcall)
  unfold isSlashed
  rw [lookup_slashValidator, if_pos rfl]
  unfold slashValidator at hresult
  cases hfound : set.validators.lookup pubkey with
  | none =>
    rw [hfound] at hresult
    contradiction
  | some validator =>
    by_cases hslashed : validator.slashed = true
    · simp [hslashed]
    · simp [hslashed]

/-- No call but its unregistration ends the slashing of a key. -/
theorem isSlashed_operate {set set' : ValidatorSet} {pubkey : Bytes} {operation : Operation}
    {result : Except String (Option UInt64)} (hslashed : set.isSlashed pubkey = true)
    (hstays : operation ≠ .unregister pubkey)
    (hcall : set.operate operation = some (result, set')) : set'.isSlashed pubkey = true := by
  unfold isSlashed at hslashed ⊢
  cases operation with
  | register other stake epoch =>
    obtain ⟨-, rfl⟩ := Prod.mk.inj (Option.some.inj hcall)
    rw [lookup_registerValidator]
    split
    · rename_i hentered
      obtain ⟨rfl, -, hnone⟩ := hentered
      rw [hnone] at hslashed
      contradiction
    · exact hslashed
  | unregister other =>
    obtain ⟨-, rfl⟩ := Prod.mk.inj (Option.some.inj hcall)
    rw [lookup_unregisterValidator, if_neg fun heq => hstays (by rw [heq])]
    exact hslashed
  | slash other =>
    obtain ⟨-, rfl⟩ := Prod.mk.inj (Option.some.inj hcall)
    rw [lookup_slashValidator]
    split
    · rename_i heq
      subst heq
      obtain ⟨validator, hfound, hmarked⟩ := (Option.any_eq_true _ _).mp hslashed
      rw [hfound, Option.map_some, if_pos hmarked]
      exact hmarked
    · exact hslashed

/-- A slashed validator: registered without stake, and the leader of no slot. -/
structure Retired (set : ValidatorSet) (pubkey : Bytes) : Prop where
  stake : (set.getValidator pubkey).map ValidatorInfo.stake = some 0
  leader : ∀ vrfOutput, set.isSlotLeader pubkey vrfOutput = false

/-- The lottery number is not negative. -/
theorem vrfToProbability_nonneg (vrfOutput : Bytes) : 0 ≤ vrfToProbability vrfOutput := by
  unfold vrfToProbability
  split
  · exact zero_le_one
  · exact div_nonneg (Nat.cast_nonneg _) (by norm_num)

/-- A validator without stake leads no slot. -/
theorem isSlotLeader_of_stake_eq_zero {set : ValidatorSet} {pubkey : Bytes}
    (h : (set.getValidator pubkey).map ValidatorInfo.stake = some 0) (vrfOutput : Bytes) :
    set.isSlotLeader pubkey vrfOutput = false := by
  obtain ⟨validator, hfound, hstake⟩ := Option.map_eq_some_iff.mp h
  unfold isSlotLeader
  rw [hfound]
  dsimp only
  split
  · rfl
  · rw [hstake, UInt64.toNat_zero, Nat.cast_zero, zero_div]
    exact decide_eq_false (not_lt.mpr (vrfToProbability_nonneg vrfOutput))

/-- Slashed validators of a built set are retired. -/
theorem Built.retired {set : ValidatorSet} (h : Built set) {pubkey : Bytes}
    (hslashed : set.isSlashed pubkey = true) : set.Retired pubkey := by
  obtain ⟨validator, hfound, hmarked⟩ := (Option.any_eq_true _ _).mp hslashed
  have hstake := h.stakesKept pubkey validator hfound
  rw [if_pos hmarked] at hstake
  have hzero : (set.getValidator pubkey).map ValidatorInfo.stake = some 0 := by
    rw [getValidator, hfound, Option.map_some, hstake]
  exact ⟨hzero, isSlotLeader_of_stake_eq_zero hzero⟩

variable {operations : List (Call ValidatorSet Operation (Except String (Option UInt64)))}
  {set : ValidatorSet}

/-- A slash that succeeds, and the calls of a run after it. -/
theorem isSlashed_of_run {before after : List (Call ValidatorSet Operation (Except String (Option UInt64)))}
    {slash : Call ValidatorSet Operation (Except String (Option UInt64))} {pubkey : Bytes}
    {stake : Option UInt64} (hrun : Run operate .new (before ++ slash :: after) set)
    (hlabel : slash.label = .slash pubkey) (hok : slash.output = .ok stake)
    (hstays : ∀ call ∈ after, call.label ≠ .unregister pubkey) : set.isSlashed pubkey = true := by
  have hslash := hrun.next_of_mem (List.mem_append_right before List.mem_cons_self)
  rw [hlabel, hok] at hslash
  exact Run.invariant (fun set => set.isSlashed pubkey = true)
    (fun _ operation => operation ≠ .unregister pubkey) (isSlashed_of_operate_slash hslash)
    (fun _ _ _ _ hslashed hne hcall => isSlashed_operate hslashed hne hcall) hrun.around.2 hstays

/-- A set on which calls are made stays built. -/
theorem built_of_run (hrun : Run operate .new operations set) : Built set :=
  Run.invariant Built (fun _ _ => True) .new (fun _ _ _ _ h _ hcall => h.operate hcall) hrun
    fun _ _ => trivial

/-- Totals that fit after every call fit at the end of the run. -/
theorem exactTotal_lt_of_run (hrun : Run operate .new operations set)
    (hfits : ∀ call ∈ operations, call.post.exactTotal < 2 ^ 64) : set.exactTotal < 2 ^ 64 := by
  cases hrun with
  | nil => exact Nat.two_pow_pos 64
  | snoc => exact hfits _ (List.mem_append_right _ (List.mem_singleton_self _))

/-- The books of a set after a run of calls, and what each call did to them. -/
structure Accounted (operations : List (Call ValidatorSet Operation (Except String (Option UInt64))))
    (set : ValidatorSet) : Prop where
  balanced : set.Balanced
  stakes : set.StakesKept
  earlier : ∀ call ∈ operations, call.pre.Balanced
  failed : ∀ call ∈ operations, ∀ error, call.output = .error error → call.post = call.pre
  retired : ∀ before slash after pubkey stake, operations = before ++ slash :: after →
    slash.label = .slash pubkey → slash.output = .ok stake →
      (∀ call ∈ after, call.label ≠ .unregister pubkey) → set.Retired pubkey

/-- In every run of calls on a new set, with totals that fit in 64 bits, the books are kept. -/
theorem accounted_of_run (hrun : Run operate .new operations set)
    (hfits : ∀ call ∈ operations, call.post.exactTotal < 2 ^ 64) : Accounted operations set := by
  have hbuilt := built_of_run hrun
  constructor
  · exact hbuilt.balanced (exactTotal_lt_of_run hrun hfits)
  · exact hbuilt.stakesKept
  · intro call hcall
    obtain ⟨before, after, rfl⟩ := List.append_of_mem hcall
    have hbefore := hrun.around.1
    exact (built_of_run hbefore).balanced (exactTotal_lt_of_run hbefore fun earlier hearlier =>
      hfits earlier (List.mem_append_left _ hearlier))
  · intro call hcall error herror
    have hnext := hrun.next_of_mem hcall
    rw [herror] at hnext
    exact unchanged_of_operate_error hnext
  · rintro before slash after pubkey stake rfl hlabel hok hstays
    exact hbuilt.retired (isSlashed_of_run hrun hlabel hok hstays)

/-- A validator is slashed, cannot return before it is unregistered, and returns with another stake. -/
def slashAndReturn : List Operation :=
  [.register [1] 2000 0, .register [2] 1000 0, .slash [1], .register [1] 1500 1, .slash [1],
    .unregister [1], .register [1] 1500 2]

/-- The books are kept through a slash and a return. -/
theorem accounted_of_run_slashAndReturn : ∃ operations set, Run operate .new operations set ∧
    operations.map Call.label = slashAndReturn ∧ set.totalStake = 2500 ∧ Accounted operations set := by
  obtain ⟨operations, set, hrun, hlabels, hcheck⟩ := Run.exists_of_trace operate .new slashAndReturn
    (fun operations set => decide (set.totalStake = 2500 ∧
      ∀ call ∈ operations, call.post.exactTotal < 2 ^ 64)) (by decide +kernel)
  obtain ⟨htotal, hfits⟩ := of_decide_eq_true hcheck
  exact ⟨operations, set, hrun, hlabels, htotal, accounted_of_run hrun hfits⟩

end ValidatorSet

end Nocostcoin
