import Nocostcoin.Library.Execution
import Nocostcoin.Chain

/-!
# What a node makes

The genesis block, the blocks and the votes that `node.rs` builds with the keys it holds.
-/

namespace Nocostcoin

/-- `SLOTS_PER_EPOCH`. -/
def slotsPerEpoch : UInt64 := 1800

/-- `Consensus::get_epoch`. -/
def Consensus.getEpoch (slot : UInt64) : UInt64 := slot / slotsPerEpoch

namespace Node

/-- The genesis block: slot zero, a zero VRF output, no transactions. -/
def genesisBlock (crypto : Crypto) (genesisKey : Bytes) (genesisTime : Int64) : Block :=
  Block.new crypto
    { parentHash := "0", slot := 0, epoch := 0, vrfOutput := List.replicate 32 0,
      vrfProof := List.replicate 64 0, validatorPubkey := genesisKey, producerSignature := [],
      stateRoot := "", txRoot := "", extraWitnesses := [], timestamp := genesisTime } []

/-- Step 3 of a slot: the block that a validator builds on its head. -/
def produceBlock (crypto : Crypto) (parent : Block) (slot : UInt64) (validatorKey : Bytes)
    (transactions : List Transaction) (timestamp : Int64) : Block :=
  let seed := Consensus.computeVrfSeed crypto parent.header.vrfOutput slot
  let (vrfOutput, vrfProof) := crypto.vrfSign validatorKey seed
  Block.new crypto
    { parentHash := parent.hash, slot, epoch := Consensus.getEpoch slot, vrfOutput, vrfProof,
      validatorPubkey := validatorKey, producerSignature := [], stateRoot := "", txRoot := "",
      extraWitnesses := [], timestamp } transactions

/-- The vote that a validator casts for a block. -/
def castVote (crypto : Crypto) (validatorKey : Bytes) (block : Block) : Vote :=
  { blockHash := block.hash, slot := block.header.slot, validatorPubkey := validatorKey,
    signature := crypto.voteSign validatorKey (asBytes block.hash) }

end Node

namespace Sample

/-- Three keys of a small network. -/
def alice : Bytes := List.replicate 32 1

def bob : Bytes := List.replicate 32 2

def validator : Bytes := List.replicate 32 3

/-- The genesis block of the network. -/
def genesis : Block := Node.genesisBlock Crypto.plain (List.replicate 32 0) 0

/-- A block of the validator at a slot. -/
def block (parent : Block) (slot : UInt64) (transactions : List Transaction) : Block :=
  Node.produceBlock Crypto.plain parent slot validator transactions 0

/-- A made block holds the transactions it was made of. -/
theorem transactions_block (parent : Block) (slot : UInt64) (transactions : List Transaction) :
    (block parent slot transactions).transactions = transactions := rfl

/-- A made block names its parent. -/
theorem parentHash_block (parent : Block) (slot : UInt64) (transactions : List Transaction) :
    (block parent slot transactions).parentHash = parent.hash := rfl

/-- A signed transfer from Alice to Bob. -/
def transfer (amount nonce : UInt64) : Transaction :=
  Transaction.new Crypto.plain alice bob (.nativeTransfer amount) nonce alice

theorem data_transfer (amount nonce : UInt64) :
    (transfer amount nonce).data = .nativeTransfer amount := rfl

/-- The network's first state: Alice holds a hundred coins, the validator all stake. -/
def start : Option Chain :=
  Chain.start Crypto.plain Host.plain .empty genesis [(alice, 100)] [(validator, 1000)]

/-- A check that an accepted delivery passes when it is computed, it passes. -/
theorem exists_accepted (start : Option Chain) (block : Block) (check : Chain → Chain → Bool)
    (h : start.any (fun opened => (Chain.addBlock Crypto.plain Host.plain opened block).any
      fun answer => answer.1 && check opened answer.2) = true) :
    ∃ opened chain', start = some opened ∧
      Chain.addBlock Crypto.plain Host.plain opened block = some (true, chain') ∧
      check opened chain' = true := by
  obtain ⟨opened, hstart, hanswer⟩ := (Option.any_eq_true _ _).mp h
  obtain ⟨⟨output, chain'⟩, hadd, hcheck⟩ := (Option.any_eq_true _ _).mp hanswer
  obtain ⟨rfl, hcheck⟩ := Bool.and_eq_true_iff.mp hcheck
  exact ⟨opened, chain', hstart, hadd, hcheck⟩

/-- Calls whose requests all meet the plain host meet reliable ones. -/
theorem reliable_of_labels {calls : List (Execution.Call Chain Chain.Request Bool)}
    {requests : List Chain.Request} (hlabels : calls.map Execution.Call.label = requests)
    (hplain : ∀ request ∈ requests, request.host = Host.plain) :
    ∀ call ∈ calls, call.label.host.Reliable := by
  intro call hcall
  have hmem : call.label ∈ requests := hlabels ▸ List.mem_map_of_mem hcall
  rw [hplain _ hmem]
  exact Host.plain_reliable

end Sample

end Nocostcoin
