import Mathlib.Data.Rat.Defs
import Mathlib.Algebra.Order.Field.Rat
import Nocostcoin.Records

/-!
# The validator set

`validator.rs`: registered stakes, their cached total and the leader lottery. The lottery's
`f64` quotients are read as exact rationals.
-/

namespace Nocostcoin

/-- `MIN_STAKE`. -/
def minStake : UInt64 := 1000

/-- A registered validator. -/
structure ValidatorInfo where
  pubkey : Bytes
  stake : UInt64
  registeredEpoch : UInt64
  slashed : Bool
  deriving DecidableEq

/-- `ValidatorInfo::new`. -/
def ValidatorInfo.new (pubkey : Bytes) (stake epoch : UInt64) : ValidatorInfo :=
  { pubkey, stake, registeredEpoch := epoch, slashed := false }

/-- The set by public key, and the total of its stakes. -/
structure ValidatorSet where
  validators : FiniteMap Bytes ValidatorInfo
  totalStake : UInt64
  deriving DecidableEq

namespace ValidatorSet

/-- `ValidatorSet::new`. -/
def new : ValidatorSet := { validators := ∅, totalStake := 0 }

/-- `register_validator`. -/
def registerValidator (set : ValidatorSet) (pubkey : Bytes) (stake epoch : UInt64) :
    Except String Unit × ValidatorSet :=
  if stake < minStake then (.error s!"Stake must be at least {minStake}", set)
  else if (set.validators.lookup pubkey).isSome then (.error "Validator already registered", set)
  else
    (.ok (), { validators := set.validators.insert pubkey (.new pubkey stake epoch),
               totalStake := set.totalStake + stake })

/-- `unregister_validator`: the stake comes back as the result. -/
def unregisterValidator (set : ValidatorSet) (pubkey : Bytes) : Except String UInt64 × ValidatorSet :=
  match set.validators.lookup pubkey with
  | none => (.error "Validator not found", set)
  | some validator =>
      (.ok validator.stake, { validators := set.validators.erase pubkey,
                              totalStake := set.totalStake - validator.stake })

/-- A registration is entered for a stake of at least `MIN_STAKE` of an unknown key. -/
theorem lookup_registerValidator (set : ValidatorSet) (pubkey other : Bytes) (stake epoch : UInt64) :
    (set.registerValidator pubkey stake epoch).2.validators.lookup other =
      if other = pubkey ∧ minStake ≤ stake ∧ set.validators.lookup pubkey = none then
        some (.new pubkey stake epoch)
      else set.validators.lookup other := by
  unfold registerValidator
  by_cases hsmall : stake < minStake
  · rw [if_pos hsmall, if_neg fun h => UInt64.not_le.mpr hsmall h.2.1]
  · rw [if_neg hsmall]
    cases hpubkey : set.validators.lookup pubkey with
    | some validator => simp
    | none =>
      rw [if_neg (by simp), FiniteMap.lookup_insert_ite]
      simp [UInt64.not_lt.mp hsmall]

/-- An unregistration removes the entry of its key. -/
theorem lookup_unregisterValidator (set : ValidatorSet) (pubkey other : Bytes) :
    (set.unregisterValidator pubkey).2.validators.lookup other =
      if other = pubkey then none else set.validators.lookup other := by
  unfold unregisterValidator
  split
  · rename_i hnone
    split
    · rename_i heq
      rw [heq, hnone]
    · rfl
  · split
    · rename_i heq
      rw [heq]
      exact Finmap.lookup_erase pubkey set.validators
    · rename_i hne
      exact Finmap.lookup_erase_ne hne

/-- `slash_validator`: the entry stays, with stake zero. -/
def slashValidator (set : ValidatorSet) (pubkey : Bytes) : Except String UInt64 × ValidatorSet :=
  match set.validators.lookup pubkey with
  | none => (.error "Validator not found", set)
  | some validator =>
    if validator.slashed then (.error "Validator already slashed", set)
    else
      (.ok validator.stake,
        { validators := set.validators.insert pubkey { validator with slashed := true, stake := 0 },
          totalStake := set.totalStake - validator.stake })

/-- `get_validator`. -/
def getValidator (set : ValidatorSet) (pubkey : Bytes) : Option ValidatorInfo :=
  set.validators.lookup pubkey

/-- `is_validator`. -/
def isValidator (set : ValidatorSet) (pubkey : Bytes) : Bool :=
  (set.validators.lookup pubkey).isSome

/-- `get_total_stake`. -/
def getTotalStake (set : ValidatorSet) : UInt64 := set.totalStake

/-- `vrf_to_probability`: the first eight bytes as a little-endian number over `u64::MAX`. -/
def vrfToProbability (vrfOutput : Bytes) : ℚ :=
  if vrfOutput.isEmpty then 1 else (leValue (vrfOutput.take 8) : ℚ) / (2 ^ 64 - 1)

/-- `is_slot_leader`: the lottery number is below the validator's share of the stake. -/
def isSlotLeader (set : ValidatorSet) (pubkey vrfOutput : Bytes) : Bool :=
  match set.getValidator pubkey with
  | none => false
  | some validator =>
    if set.totalStake = 0 then false
    else decide (vrfToProbability vrfOutput < (validator.stake.toNat : ℚ) / set.totalStake.toNat)

end ValidatorSet

end Nocostcoin
