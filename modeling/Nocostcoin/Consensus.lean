import Nocostcoin.Validator

/-!
# Consensus rules

Fork choice and block validation from `consensus.rs`. Validation checks a block against its
parent, its VRF proof, the leader lottery and its transaction root; the block's own hash is
not among the checks.
-/

namespace Nocostcoin

namespace Consensus

/-- `is_better_block`: a higher slot wins, at equal slots a lower VRF output. -/
def isBetterBlock (newBlock currentHead : Block) : Bool :=
  if currentHead.header.slot < newBlock.header.slot then true
  else if newBlock.header.slot = currentHead.header.slot then
    decide (newBlock.header.vrfOutput < currentHead.header.vrfOutput)
  else false

/-- `compute_vrf_seed`. -/
def computeVrfSeed (crypto : Crypto) (parentVrfOutput : Bytes) (slot : UInt64) : Bytes :=
  crypto.sha256 (parentVrfOutput ++ u64ToLeBytes slot)

/-- The VRF part of validation: all three byte strings decode and the proof verifies for the
slot and the parent. -/
def validateVrf (crypto : Crypto) (block parent : Block) : Except String Unit :=
  if ¬ crypto.isPublicKey block.header.validatorPubkey then .error "Invalid validator pubkey"
  else if ¬ crypto.isVrfPreOut block.header.vrfOutput then .error "Invalid VRF output"
  else if ¬ crypto.isVrfProof block.header.vrfProof then .error "Invalid VRF proof"
  else if ¬ crypto.vrfVerify block.header.validatorPubkey
      (computeVrfSeed crypto parent.header.vrfOutput block.header.slot)
      block.header.vrfOutput block.header.vrfProof then
    .error "Invalid VRF signature/proof"
  else .ok ()

/-- `validate_block`. -/
def validateBlock (crypto : Crypto) (block parent : Block) (validators : ValidatorSet) :
    Except String Unit :=
  if block.header.parentHash ≠ parent.hash then .error "Parent hash mismatch"
  else if block.header.slot ≤ parent.header.slot then
    .error s!"Slot must be greater than parent slot. Block: {block.header.slot}, Parent: {parent.header.slot}"
  else do
    validateVrf crypto block parent
    if ¬ validators.isSlotLeader block.header.validatorPubkey block.header.vrfOutput then
      .error "Validator VRF output did not meets the stake-weighted threshold (Not a leader)"
    else if block.header.txRoot ≠ Block.calculateMerkleRoot crypto block.transactions then
      .error s!"Invalid tx_root. Header: {block.header.txRoot}, Calculated: {Block.calculateMerkleRoot crypto block.transactions}"
    else .ok ()

end Consensus

end Nocostcoin
