import Mathlib.Data.List.MinMax
import Nocostcoin.Chain

/-!
# Synchronisation with a peer

`sync.rs`: which peer is followed up to which height, and what a batch of blocks from it does. The
manager adds the blocks and may complete; asking for the next batch is left to the node's loop.
-/

namespace Nocostcoin

/-- `SyncState`. -/
inductive SyncState where
  | idle
  | syncing (peer : Bytes) (targetHeight : UInt64)
  | synced
  deriving DecidableEq

/-- `SyncEvent`. -/
inductive SyncEvent where
  | syncStarted (peer : Bytes) (targetHeight : UInt64)
  | syncProgress (currentHeight targetHeight : UInt64)
  | syncCompleted
  | syncFailed (reason : String)
  deriving DecidableEq

/-- `PeerState`. -/
structure PeerState where
  height : UInt64
  address : Option String
  protocol : Option String
  deriving DecidableEq

/-- `SyncManager`. -/
structure SyncManager where
  state : SyncState
  peers : FiniteMap Bytes PeerState
  /-- Everything sent to the event channel, oldest first. -/
  eventTx : List SyncEvent

namespace SyncManager

/-- `SyncManager::new`. -/
def new : SyncManager := { state := .idle, peers := ∅, eventTx := [] }

/-- `event_tx.send`. -/
def send (manager : SyncManager) (event : SyncEvent) : SyncManager :=
  { manager with eventTx := manager.eventTx ++ [event] }

/-- `update_peer_info`. -/
def updatePeerInfo (manager : SyncManager) (peer : Bytes) (height : UInt64) : SyncManager :=
  let entry := (manager.peers.lookup peer).getD { height, address := none, protocol := none }
  { manager with peers := manager.peers.insert peer { entry with height } }

/-- `update_peer_metadata`: a new peer starts at height zero, `None` keeps what is known. -/
def updatePeerMetadata (manager : SyncManager) (peer : Bytes) (address protocol : Option String) :
    SyncManager :=
  let entry := (manager.peers.lookup peer).getD { height := 0, address := none, protocol := none }
  { manager with
    peers := manager.peers.insert peer
      { entry with address := address.or entry.address, protocol := protocol.or entry.protocol } }

/-- `Iterator::max_by_key` on the height: of several greatest entries the last. -/
def maxByHeight (entries : List (Bytes × PeerState)) : Option (Bytes × PeerState) :=
  entries.reverse.argmax fun entry => entry.2.height.toNat

/-- `should_sync`: while idle, the highest peer above the node's own height. -/
def shouldSync (host : Host) (manager : SyncManager) (ourHeight : UInt64) : Option (Bytes × UInt64) :=
  if manager.state ≠ .idle then none
  else
    (maxByHeight ((host.walk manager.peers).filter fun entry => ourHeight < entry.2.height)).map
      fun entry => (entry.1, entry.2.height)

/-- `start_sync`. -/
def startSync (manager : SyncManager) (peer : Bytes) (targetHeight : UInt64) : SyncManager :=
  { manager with state := .syncing peer targetHeight }.send (.syncStarted peer targetHeight)

/-- `complete_sync`. -/
def completeSync (manager : SyncManager) : SyncManager :=
  { manager with state := .synced }.send .syncCompleted

/-- `fail_sync`. -/
def failSync (manager : SyncManager) (reason : String) : SyncManager :=
  { manager with state := .idle }.send (.syncFailed reason)

/-- `is_syncing`. -/
def isSyncing (manager : SyncManager) : Bool :=
  match manager.state with
  | .syncing _ _ => true
  | _ => false

/-- The loop of `process_blocks`: how many blocks were added. A block that is refused although it is
stored is skipped, another refused block ends the loop. Each block meets a host of its own. -/
def addBlocks (crypto : Crypto) : ℕ → Chain → List (Host × Block) → Option (Except String ℕ × Chain)
  | addedCount, chain, [] => some (.ok addedCount, chain)
  | addedCount, chain, (host, block) :: rest =>
    match chain.addBlock crypto host block with
    | none => none
    | some (true, chain) => addBlocks crypto (addedCount + 1) chain rest
    | some (false, chain) =>
      if (chain.getBlock block.hash).isSome then addBlocks crypto addedCount chain rest
      else some (.error ("Failed to add block during sync: " ++ block.hash), chain)

/-- The end of `process_blocks`: the target is looked at when a block was added. -/
def checkTarget (manager : SyncManager) (addedCount : ℕ) (chain : Chain) : Option SyncManager :=
  if 0 < addedCount then
    match manager.state with
    | .syncing _ targetHeight => do
      let currentHeight ← chain.getHeight
      let manager := manager.send (.syncProgress currentHeight targetHeight)
      some (if targetHeight ≤ currentHeight then manager.completeSync else manager)
    | _ => some manager
  else some manager

/-- With an added block the sync completes at the target and stays as it is below. -/
theorem checkTarget_of_pos {manager manager' : SyncManager} {chain : Chain} {count : ℕ} {peer : Bytes}
    {target : UInt64} (hstate : manager.state = .syncing peer target) (hcount : 0 < count)
    (h : manager.checkTarget count chain = some manager') :
    ∃ height, chain.getHeight = some height ∧
      manager'.state = if target ≤ height then .synced else .syncing peer target := by
  rw [checkTarget, if_pos hcount, hstate] at h
  obtain ⟨height, hheight, hmanager⟩ := Option.bind_eq_some_iff.mp h
  refine ⟨height, hheight, ?_⟩
  rw [← Option.some.inj hmanager]
  split
  · rfl
  · exact hstate

/-- `process_blocks`. -/
def processBlocks (crypto : Crypto) (manager : SyncManager) (blocks : List (Host × Block))
    (chain : Chain) : Option (Except String Unit × SyncManager × Chain) :=
  match addBlocks crypto 0 chain blocks with
  | none => none
  | some (.error error, chain) => some (.error error, manager, chain)
  | some (.ok addedCount, chain) =>
      (manager.checkTarget addedCount chain).map fun manager => (.ok (), manager, chain)

end SyncManager

end Nocostcoin
