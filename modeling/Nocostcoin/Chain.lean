import Nocostcoin.State
import Nocostcoin.Consensus

/-!
# The chain

`chain.rs`: block acceptance, votes and finality. `Chain` and its `State` share one database,
which is the state's here. A call returns `none` where the Rust code panics: the head block is
missing, or the trie is indexed out of bounds.
-/

namespace Nocostcoin

/-- `Chain`. -/
structure Chain where
  head : String
  state : State
  validators : ValidatorSet
  /-- The block hash first seen for a slot and validator. -/
  seenHeaders : FiniteMap (UInt64 × Bytes) String
  votes : FiniteMap String (List Vote)
  finalizedHead : String

namespace Chain

/-- The database shared with the state. -/
def storage (chain : Chain) : Storage := chain.state.storage

/-- Replace the database. -/
def withStorage (chain : Chain) (storage : Storage) : Chain :=
  { chain with state := { chain.state with storage } }

/-- A write whose failure is only logged. -/
def logged (chain : Chain) (result : Except String Unit × Storage) : Chain :=
  chain.withStorage result.2

/-- The head of `Chain::new`: the stored one, or the genesis block after it was stored; a failing
write panics. -/
def openHead (host : Host) (storage : Storage) (genesisBlock : Block) : Option (String × Storage) :=
  match storage.head with
  | some head => some (head, storage)
  | none =>
    match storage.storeBlock host.disk genesisBlock with
    | (.error _, _) => none
    | (.ok (), storage) =>
      match storage.storeHead host.disk genesisBlock.hash with
      | (.error _, _) => none
      | (.ok (), storage) => some (genesisBlock.hash, storage)

/-- `Chain::new`. -/
def new (crypto : Crypto) (host : Host) (storage : Storage) (genesisBlock : Block) : Option Chain := do
  let (head, storage) ← openHead host storage genesisBlock
  let state ← State.new crypto host storage
  some { head, state, validators := .new, seenHeaders := ∅, votes := ∅, finalizedHead := head }

/-- The set-up of a node, in `node.rs` and in the tests: open the database, set and store some
balances, register some validators. -/
def start (crypto : Crypto) (host : Host) (storage : Storage) (genesisBlock : Block)
    (balances stakes : List (Bytes × UInt64)) : Option Chain := do
  let chain ← new crypto host storage genesisBlock
  let state := balances.foldl (fun state entry => state.setBalance entry.1 entry.2) chain.state
  let (_, state) ← state.applyChanges crypto host
  let validators := stakes.foldl
    (fun set entry => (set.registerValidator entry.1 entry.2 0).2) chain.validators
  some { chain with state, validators }

/-- `get_head`: panics when the head block is not stored. -/
def getHead (chain : Chain) : Option Block := chain.storage.getBlock chain.head

/-- `get_height`. -/
def getHeight (chain : Chain) : Option UInt64 := chain.getHead.map fun block => block.header.slot

/-- `get_block`. -/
def getBlock (chain : Chain) (hash : String) : Option Block := chain.storage.getBlock hash

/-- The loop of `get_blocks_range` from a height on: it ends at the first height without a block. -/
def blocksFrom (chain : Chain) : ℕ → UInt64 → List Block
  | 0, _ => []
  | limit + 1, height =>
    match chain.storage.getBlockByHeight height with
    | none => []
    | some hash =>
      match chain.getBlock hash with
      | none => []
      | some block => block :: chain.blocksFrom limit (height + 1)

/-- `get_blocks_range`: by consecutive heights, from that of the start block on. -/
def getBlocksRange (chain : Chain) (startHash : String) (limit : ℕ) : List Block :=
  match chain.getBlock startHash with
  | none => []
  | some startBlock => chain.blocksFrom limit startBlock.header.slot

/-- The hash on record for a slot and validator: memory first, then the disk. -/
def existingHash (chain : Chain) (slot : UInt64) (validatorPubkey : Bytes) : Option String :=
  (chain.seenHeaders.lookup (slot, validatorPubkey)).or
    (chain.storage.getSeenHeader slot validatorPubkey)

/-- Equivocation detection: a different hash on record slashes the validator and rejects the
block, no hash on record enters this one in memory and on disk. -/
def detectEquivocation (host : Host) (chain : Chain) (block : Block) : Bool × Chain :=
  let slot := block.header.slot
  let validatorPubkey := block.header.validatorPubkey
  match chain.existingHash slot validatorPubkey with
  | some existing =>
    if existing ≠ block.hash then
      (true, { chain with validators := (chain.validators.slashValidator validatorPubkey).2 })
    else (false, chain)
  | none =>
    let chain := { chain with
      seenHeaders := chain.seenHeaders.insert (slot, validatorPubkey) block.hash }
    (false, chain.logged (chain.storage.storeSeenHeader host.disk slot validatorPubkey block.hash))

/-- `process_transaction`: validate, then apply. -/
def processTransaction (crypto : Crypto) (state : State) (tx : Transaction) : Outcome State :=
  match tx.validate crypto with
  | .error error => (.error error, state)
  | .ok () => state.applyTransaction crypto tx

/-- The transaction loop of `add_block`: stop at the first error. -/
def processTransactions (crypto : Crypto) (state : State) : List Transaction → Outcome State
  | [] => (.ok (), state)
  | tx :: rest =>
    match processTransaction crypto state tx with
    | (.error error, state) => (.error error, state)
    | (.ok (), state) => processTransactions crypto state rest

/-- Fork choice: a better block becomes the head, in memory and on disk. -/
def chooseHead (host : Host) (chain : Chain) (block currentHead : Block) : Chain :=
  if Consensus.isBetterBlock block currentHead then
    let chain := { chain with head := block.hash }
    chain.logged (chain.storage.storeHead host.disk chain.head)
  else chain

/-- The validator management of one committed transaction. A failed registration is only
logged; a refund goes to the pending overlay, after the block's own changes were stored. -/
def manageValidators (chain : Chain) (block : Block) (tx : Transaction) : Chain :=
  match tx.data with
  | .registerValidator stake =>
      { chain with
        validators := (chain.validators.registerValidator tx.sender stake block.header.epoch).2 }
  | .unregisterValidator =>
    match chain.validators.unregisterValidator tx.sender with
    | (.error _, validators) => { chain with validators }
    | (.ok stake, validators) =>
      let account := chain.state.accountOrNew tx.sender
      let state := chain.state.insertPending tx.sender
        { account with balance := account.balance + stake }
      { chain with validators, state }
  | _ => chain

/-- Validator management and indexing of one committed transaction. -/
def indexTransaction (crypto : Crypto) (host : Host) (block : Block) (chain : Chain)
    (tx : Transaction) : Chain :=
  let chain := chain.manageValidators block tx
  let txHash := hexEncode (tx.hash crypto)
  let chain := chain.logged (chain.storage.storeTransactionIndex host.disk txHash block.hash)
  let chain := chain.logged
    (chain.storage.addTransactionToAddress host.disk (hexEncode tx.sender) txHash)
  chain.logged (chain.storage.addTransactionToAddress host.disk (hexEncode tx.receiver) txHash)

/-- Sections 4 and 5 of `add_block` for a block whose transactions succeeded: fork choice, the
block itself, the pending accounts, the height index, then the transaction indices. -/
def commitBlock (crypto : Crypto) (host : Host) (chain : Chain) (block : Block) :
    Option (Bool × Chain) := do
  let currentHead ← chain.getHead
  let chain := chain.chooseHead host block currentHead
  match chain.storage.storeBlock host.disk block with
  | (.error _, _) => some (false, { chain with state := chain.state.discardChanges })
  | (.ok (), storage) =>
    let chain := chain.withStorage storage
    match ← chain.state.applyChanges crypto host with
    | (.error _, state) => some (false, { chain with state })
    | (.ok (), state) =>
      let chain := { chain with state }
      let chain := chain.logged
        (chain.storage.storeBlockByHeight host.disk block.header.slot block.hash)
      some (true, block.transactions.foldl (indexTransaction crypto host block) chain)

/-- `add_block`: whether the block was accepted, and the chain after the call. -/
def addBlock (crypto : Crypto) (host : Host) (chain : Chain) (block : Block) :
    Option (Bool × Chain) :=
  match chain.getBlock block.header.parentHash with
  | none => some (false, chain)
  | some parentBlock =>
    match chain.detectEquivocation host block with
    | (true, chain) => some (false, chain)
    | (false, chain) =>
      match Consensus.validateBlock crypto block parentBlock chain.validators with
      | .error _ => some (false, chain)
      | .ok () =>
        match processTransactions crypto chain.state.discardChanges block.transactions with
        | (.error _, state) => some (false, { chain with state := state.discardChanges })
        | (.ok (), state) =>
          if block.header.stateRoot ≠ "" ∧ block.header.stateRoot ≠ state.getRootHash then
            some (false, { chain with state := state.discardChanges })
          else commitBlock crypto host { chain with state } block

/-- The votes recorded for a block. -/
def votesFor (chain : Chain) (blockHash : String) : List Vote :=
  (chain.votes.lookup blockHash).getD []

/-- The tally of `check_finality`: the current stakes of the recorded voters, added in `u64`. -/
def voteStake (chain : Chain) (blockHash : String) : UInt64 :=
  (chain.votesFor blockHash).foldl
    (fun total vote =>
      match chain.validators.getValidator vote.validatorPubkey with
      | some validator => total + validator.stake
      | none => total) 0

/-- The test of `check_finality` against `total * 0.6666`. -/
def meetsThreshold (voteStake totalStake : UInt64) : Prop :=
  0 < totalStake ∧ 6666 * totalStake.toNat < 10000 * voteStake.toNat

instance (voteStake totalStake : UInt64) : Decidable (meetsThreshold voteStake totalStake) :=
  inferInstanceAs (Decidable (_ ∧ _))

/-- `check_finality`. -/
def checkFinality (chain : Chain) (blockHash : String) : Chain :=
  if meetsThreshold (chain.voteStake blockHash) chain.validators.getTotalStake then
    { chain with finalizedHead := blockHash }
  else chain

/-- The signature part of `add_vote`. -/
def verifyVote (crypto : Crypto) (vote : Vote) : Bool :=
  crypto.isPublicKey vote.validatorPubkey && crypto.isSignature vote.signature &&
    crypto.voteVerify vote.validatorPubkey (asBytes vote.blockHash) vote.signature

/-- `add_vote`: registered voter, signature, no earlier vote of the same key for the block. -/
def addVote (crypto : Crypto) (host : Host) (chain : Chain) (vote : Vote) : Bool × Chain :=
  if ¬ chain.validators.isValidator vote.validatorPubkey then (false, chain)
  else if ¬ verifyVote crypto vote then (false, chain)
  else
    let votes := chain.votesFor vote.blockHash
    if votes.any fun v => v.validatorPubkey = vote.validatorPubkey then
      (false, { chain with votes := chain.votes.insert vote.blockHash votes })
    else
      let chain := { chain with votes := chain.votes.insert vote.blockHash (votes ++ [vote]) }
      let chain := chain.logged (chain.storage.storeVote host.disk vote)
      (true, chain.checkFinality vote.blockHash)

/-- What is asked of a chain: a delivered block, a delivered vote, or a restart of the node on the
same database. Each request meets a host of its own. -/
inductive Request where
  | deliver (host : Host) (block : Block)
  | vote (host : Host) (vote : Vote)
  | reopen (host : Host) (genesisBlock : Block) (balances stakes : List (Bytes × UInt64))

/-- The host that a request meets. -/
def Request.host : Request → Host
  | .deliver host _ | .vote host _ | .reopen host _ _ _ => host

/-- The block that a request delivers. -/
def Request.delivered : Request → Option Block
  | .deliver _ block => some block
  | _ => none

/-- Answer a request; a restart keeps nothing but the database. -/
def serve (crypto : Crypto) (chain : Chain) : Request → Option (Bool × Chain)
  | .deliver host block => addBlock crypto host chain block
  | .vote host vote => some (addVote crypto host chain vote)
  | .reopen host genesisBlock balances stakes =>
      (start crypto host chain.storage genesisBlock balances stakes).map fun chain => (true, chain)

end Chain

end Nocostcoin
