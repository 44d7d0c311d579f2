import Nocostcoin.Mempool
import Nocostcoin.Node
import Nocostcoin.Sync

/-!
# The loop of a node

The blockchain task of `node.rs`: one loop drains the channels for votes, peers, commands, blocks and
transactions in turn, and produces a block in the slots it leads. A turn of the loop takes any number
of messages from each channel, so the order of messages and slots is free: an event is one message or
one new slot. A handler answers with what it sends, or with nothing where it panics.
-/

namespace Nocostcoin

/-- `SyncRequest`. -/
inductive SyncRequest where
  | getBlocks (startHash : String) (limit : ℕ)
  | getChainInfo

/-- `SyncResponse`. -/
inductive SyncResponse where
  | blocks (blocks : List Block)
  | chainInfo (headHash : String) (height : UInt64)

/-- What the loop hands to the network task, and what it answers a caller who submits a
transaction. -/
inductive NetworkCommand where
  | broadcastBlock (block : Block)
  | broadcastTransaction (tx : Transaction)
  | broadcastVote (vote : Vote)
  | requestBlocks (peerId : Bytes) (startHash : String) (limit : ℕ)
  | requestChainInfo (peerId : Bytes)
  | sendResponse (channel : ℕ) (response : SyncResponse)
  | reply (result : Except String String)

/-- The variables of the loop. -/
structure Node where
  chain : Chain
  mempool : Mempool
  syncManager : SyncManager
  lastSlot : UInt64
  simulationEnabled : Bool
  /-- The public key of the validator. -/
  validatorKey : Bytes
  /-- The public key of the wallet, which is the node's own address. -/
  myAddress : Bytes
  /-- The faucet claims of the database: the last one of each address. -/
  claims : FiniteMap Bytes Int64

/-- A new slot: its number, the clock, the receiver of a generated transfer when the draw asks for
one, and how the database answers deletions. -/
structure Tick where
  currentSlot : UInt64
  timestamp : Int64
  generated : Option Bytes
  eraser : Storage.Eraser

/-- What the loop takes from its channels. Commands that only read the node are left out, and a hex
text arrives decoded. -/
inductive Event where
  | vote (host : Host) (vote : Vote)
  | chainInfo (host : Host) (peerId : Bytes) (height : UInt64) (headHash : String)
  | blocks (peerId : Bytes) (blocks : List (Host × Block))
  | peerConnected (peerId : Bytes)
  | peerDisconnected (peerId : Bytes)
  | peerIdentified (peerId : Bytes) (protocol address : String)
  | incomingRequest (peerId : Bytes) (request : SyncRequest) (channel : ℕ)
  | toggleSim
  | send (host : Host) (receiver : Option Bytes) (amount : UInt64)
  | slot (host : Host) (tick : Tick)
  | block (host : Host) (block : Block)
  | transaction (tx : Transaction)
  | submitTransaction (tx : Transaction)
  | createTransaction (host : Host) (receiver : Option Bytes) (amount : UInt64)
  | setWallet (address : Bytes)
  | faucet (host : Host) (receiver : Option Bytes) (currentTime : Int64) (recorded : Option String)
  | registerValidator (stake : UInt64)

namespace Node

/-- The node before its first event. -/
def start (crypto : Crypto) (host : Host) (storage : Storage) (genesisBlock : Block)
    (balances stakes : List (Bytes × UInt64)) (claims : FiniteMap Bytes Int64)
    (validatorKey myAddress : Bytes) : Option Node := do
  let chain ← Chain.start crypto host storage genesisBlock balances stakes
  some { chain, mempool := .new 1000, syncManager := .new, lastSlot := 0, simulationEnabled := false,
         validatorKey, myAddress, claims }

/-- `ChainInfo`: note the height, and start to sync when a peer is ahead. -/
def handleChainInfo (host : Host) (node : Node) (peerId : Bytes) (height : UInt64) :
    Option (List NetworkCommand × Node) := do
  let syncManager := node.syncManager.updatePeerInfo peerId height
  let ourHeight ← node.chain.getHeight
  match syncManager.shouldSync host ourHeight with
  | none => some ([], { node with syncManager })
  | some (syncPeer, targetHeight) =>
      some ([.requestBlocks syncPeer node.chain.head 100],
        { node with syncManager := syncManager.startSync syncPeer targetHeight })

/-- The part of `Blocks` after the blocks were processed: below the target more blocks are asked for,
or the sync fails because none came. At the target nothing is done. -/
def continueSync (node : Node) (blocksReceived : Bool) : Option (List NetworkCommand × Node) :=
  match node.syncManager.state with
  | .syncing peer targetHeight => do
    let currentHeight ← node.chain.getHeight
    if currentHeight < targetHeight then
      if blocksReceived then some ([.requestBlocks peer node.chain.head 100], node)
      else some ([], { node with
        syncManager := node.syncManager.failSync "Stalled: Received 0 blocks" })
    else some ([], node)
  | _ => some ([], node)

/-- `Blocks`. -/
def handleBlocks (crypto : Crypto) (node : Node) (blocks : List (Host × Block)) :
    Option (List NetworkCommand × Node) := do
  match ← node.syncManager.processBlocks crypto blocks node.chain with
  | (.error error, syncManager, chain) =>
      some ([], { node with chain, syncManager := syncManager.failSync error })
  | (.ok (), syncManager, chain) => continueSync { node with chain, syncManager } !blocks.isEmpty

/-- `IncomingRequest`. -/
def handleRequest (node : Node) (request : SyncRequest) (channel : ℕ) :
    Option (List NetworkCommand × Node) :=
  match request with
  | .getChainInfo => do
    let height ← node.chain.getHeight
    some ([.sendResponse channel (.chainInfo node.chain.head height)], node)
  | .getBlocks startHash limit =>
      some ([.sendResponse channel (.blocks (node.chain.getBlocksRange startHash limit))], node)

/-- How many of the pending transactions are the node's own. -/
def pendingNonceOffset (host : Host) (node : Node) : UInt64 :=
  UInt64.ofNat ((node.mempool.getTransactionsForBlock host 1000).filter
    fun tx => tx.sender = node.myAddress).length

/-- A native transfer from the wallet, with the next nonce after the pending ones. -/
def newTransfer (crypto : Crypto) (host : Host) (node : Node) (receiver : Bytes) (amount : UInt64) :
    Transaction :=
  let nonce := node.chain.state.getNonce node.myAddress
  .new crypto node.myAddress receiver (.nativeTransfer amount) (nonce + node.pendingNonceOffset host)
    node.myAddress

/-- `mempool.add_transaction` on the current state. -/
def addTransaction (crypto : Crypto) (node : Node) (tx : Transaction) : Except String Unit × Node :=
  let (result, mempool) := node.mempool.addTransaction crypto tx node.chain.state
  (result, { node with mempool })

/-- Add a transaction of the node's own making and broadcast it if it was taken. -/
def publish (crypto : Crypto) (node : Node) (tx : Transaction) : List NetworkCommand × Node :=
  match node.addTransaction crypto tx with
  | (.error _, node) => ([], node)
  | (.ok (), node) => ([.broadcastTransaction tx], node)

/-- The same for a caller who gets an answer: the hash of the transaction, or an error text. -/
def submit (crypto : Crypto) (node : Node) (tx : Transaction) (onError : String → String) :
    List NetworkCommand × Node :=
  match node.addTransaction crypto tx with
  | (.error error, node) => ([.reply (.error (onError error))], node)
  | (.ok (), node) => ([.broadcastTransaction tx, .reply (.ok (hexEncode (tx.hash crypto)))], node)

/-- `CliCommand::Send`. -/
def handleSend (crypto : Crypto) (host : Host) (node : Node) (receiver : Option Bytes)
    (amount : UInt64) : List NetworkCommand × Node :=
  match receiver with
  | none => ([], node)
  | some receiver => node.publish crypto (node.newTransfer crypto host receiver amount)

/-- `CreateTransaction`. -/
def handleCreate (crypto : Crypto) (host : Host) (node : Node) (receiver : Option Bytes)
    (amount : UInt64) : List NetworkCommand × Node :=
  match receiver with
  | none => ([.reply (.error "Invalid receiver hex")], node)
  | some receiver =>
      node.submit crypto (node.newTransfer crypto host receiver amount) fun _ =>
        "Failed to add transaction to mempool (balance insufficient?)"

/-- `RegisterValidator`: the nonce does not count the pending transactions. -/
def handleRegister (crypto : Crypto) (node : Node) (stake : UInt64) : List NetworkCommand × Node :=
  if node.chain.state.getBalance node.myAddress < stake then
    ([.reply (.error "Insufficient balance")], node)
  else
    node.submit crypto (.new crypto node.myAddress [] (.registerValidator stake)
      (node.chain.state.getNonce node.myAddress) node.myAddress) id

/-- `can_claim` on the claims of the database. -/
def canClaim (node : Node) (address : Bytes) (currentTime : Int64) : Bool :=
  Storage.canClaim (node.claims.lookup address) currentTime

/-- `get_claim_cooldown_remaining` on them. -/
def claimCooldownRemaining (node : Node) (address : Bytes) (currentTime : Int64) : Option Int64 :=
  Storage.claimCooldownRemaining (node.claims.lookup address) currentTime

/-- The refusal of a claim during the cooldown. -/
def cooldownError (node : Node) (receiver : Bytes) (currentTime : Int64) : String :=
  match node.claimCooldownRemaining receiver currentTime with
  | some remainingMs =>
      let remainingHours := remainingMs / (60 * 60 * 1000)
      s!"Faucet cooldown active. Please wait {remainingHours} hours before claiming again."
  | none => "Faucet cooldown active. Please wait 24 hours between claims."

/-- `Faucet`: a thousand coins from the node's own account; a claim whose record fails stands. -/
def handleFaucet (crypto : Crypto) (host : Host) (node : Node) (receiver : Option Bytes)
    (currentTime : Int64) (recorded : Option String) : List NetworkCommand × Node :=
  match receiver with
  | none => ([.reply (.error "Invalid address: must be valid hex")], node)
  | some receiver =>
    if receiver.length ≠ 32 then
      ([.reply (.error "Invalid address: must be 32 bytes (64 hex characters)")], node)
    else if ¬ node.canClaim receiver currentTime then
      ([.reply (.error (node.cooldownError receiver currentTime))], node)
    else
      let currentBalance := node.chain.state.getBalance node.myAddress
      if currentBalance < 1000 then
        ([.reply (.error s!"Faucet temporarily unavailable: Node balance too low ({currentBalance} tokens). Please try another node or wait for the node to receive more tokens.")], node)
      else
        let tx := node.newTransfer crypto host receiver 1000
        match node.addTransaction crypto tx with
        | (.error _, node) =>
            ([.reply (.error "Faucet failed: insufficient balance or invalid transaction")], node)
        | (.ok (), node) =>
            ([.broadcastTransaction tx, .reply (.ok (hexEncode (tx.hash crypto)))],
              { node with claims := match recorded with
                | none => node.claims.insert receiver currentTime
                | some _ => node.claims })

/-- Step 1 of a slot: a generated transfer while the simulation runs. -/
def simulate (crypto : Crypto) (host : Host) (node : Node) (tick : Tick) :
    List NetworkCommand × Node :=
  match tick.generated with
  | none => ([], node)
  | some receiver =>
    if node.simulationEnabled then node.publish crypto (node.newTransfer crypto host receiver 10)
    else ([], node)

/-- Step 2 of a slot: whether the validator's VRF output wins on the given parent. -/
def isLeader (crypto : Crypto) (node : Node) (parent : Block) (currentSlot : UInt64) : Bool :=
  let seed := Consensus.computeVrfSeed crypto parent.header.vrfOutput currentSlot
  node.chain.validators.isSlotLeader node.validatorKey (crypto.vrfSign node.validatorKey seed).1

/-- `u64::saturating_sub`. -/
def saturatingSub (x y : UInt64) : UInt64 := if x < y then 0 else x - y

/-- Step 4 of a slot: every hundredth slot prunes all but the last thousand heights. -/
def prune (node : Node) (tick : Tick) : Option Node :=
  if 0 < tick.currentSlot ∧ tick.currentSlot % 100 = 0 then do
    let height ← node.chain.getHeight
    let pruneTarget := saturatingSub height 1000
    if 0 < pruneTarget then
      let (_, storage) := node.chain.storage.pruneBlocksBefore tick.eraser pruneTarget node.chain.head
      some { node with chain := node.chain.withStorage storage }
    else some node
  else some node

/-- Steps 3 to 4 of a slot: build a block of selected transactions on the head, add it, and on success
drop the transactions from the mempool, broadcast the block and vote for it. -/
def produce (crypto : Crypto) (host : Host) (node : Node) (tick : Tick) (parent : Block) :
    Option (List NetworkCommand × Node) := do
  let transactions := node.mempool.getTransactionsForBlock host 100
  let newBlock := produceBlock crypto parent tick.currentSlot node.validatorKey transactions
    tick.timestamp
  let node ← node.prune tick
  match ← node.chain.addBlock crypto host newBlock with
  | (false, chain) => some ([], { node with chain })
  | (true, chain) =>
    let vote := castVote crypto node.validatorKey newBlock
    let (_, chain) := chain.addVote crypto host vote
    some ([.broadcastBlock newBlock, .broadcastVote vote],
      { node with chain, mempool := node.mempool.removeTransactions transactions })

/-- A new slot: nothing is done while syncing or in a slot that was processed. -/
def handleSlot (crypto : Crypto) (host : Host) (node : Node) (tick : Tick) :
    Option (List NetworkCommand × Node) :=
  if ¬ node.syncManager.isSyncing ∧ node.lastSlot < tick.currentSlot then do
    let (generated, node) := { node with lastSlot := tick.currentSlot }.simulate crypto host tick
    let parent ← node.chain.getHead
    if node.isLeader crypto parent tick.currentSlot then
      let (produced, node) ← node.produce crypto host tick parent
      some (generated ++ produced, node)
    else some (generated, node)
  else some ([], node)

/-- A block from the network: an accepted one drops its transactions from the mempool, and gets a vote
when it is the head. -/
def handleBlock (crypto : Crypto) (host : Host) (node : Node) (block : Block) :
    Option (List NetworkCommand × Node) := do
  match ← node.chain.addBlock crypto host block with
  | (false, chain) => some ([], { node with chain })
  | (true, chain) =>
    let node := { node with chain, mempool := node.mempool.removeTransactions block.transactions }
    let head ← chain.getHead
    if head.hash = block.hash then
      let vote := castVote crypto node.validatorKey head
      let (_, chain) := chain.addVote crypto host vote
      some ([.broadcastVote vote], { node with chain })
    else some ([], node)

/-- One event of the loop. -/
def handle (crypto : Crypto) (node : Node) : Event → Option (List NetworkCommand × Node)
  | .vote host vote => some ([], { node with chain := (node.chain.addVote crypto host vote).2 })
  | .chainInfo host peerId height _ => node.handleChainInfo host peerId height
  | .blocks _ blocks => node.handleBlocks crypto blocks
  | .peerConnected peerId => some ([.requestChainInfo peerId], node)
  | .peerDisconnected _ => some ([], node)
  | .peerIdentified peerId protocol address =>
      some ([], { node with
        syncManager := node.syncManager.updatePeerMetadata peerId (some address) (some protocol) })
  | .incomingRequest _ request channel => node.handleRequest request channel
  | .toggleSim => some ([], { node with simulationEnabled := !node.simulationEnabled })
  | .send host receiver amount => some (node.handleSend crypto host receiver amount)
  | .slot host tick => node.handleSlot crypto host tick
  | .block host block => node.handleBlock crypto host block
  | .transaction tx => some ([], (node.addTransaction crypto tx).2)
  | .submitTransaction tx =>
      some (node.submit crypto tx fun _ => "Failed to add transaction to mempool")
  | .createTransaction host receiver amount => some (node.handleCreate crypto host receiver amount)
  | .setWallet address => some ([], { node with myAddress := address })
  | .faucet host receiver currentTime recorded =>
      some (node.handleFaucet crypto host receiver currentTime recorded)
  | .registerValidator stake => some (node.handleRegister crypto stake)

end Node

namespace Sample

/-- A node with the validator's key and Alice's wallet. -/
def node : Option Node :=
  Node.start Crypto.plain Host.plain .empty genesis [(alice, 100)] [(validator, 1000)] ∅ validator alice

/-- A slot of the node without a generated transfer. -/
def tick (currentSlot : UInt64) : Tick :=
  { currentSlot, timestamp := 0, generated := none, eraser := fun _ => none }

end Sample

end Nocostcoin
