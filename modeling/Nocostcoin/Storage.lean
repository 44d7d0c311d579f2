import Nocostcoin.Trie

/-!
# Storage

The record families that `storage.rs` keeps in RocksDB, each as a finite map of its own. A
write goes through a `Disk`, which may refuse it with an error text; reads do not fail.
-/

namespace Nocostcoin

/-- The database, one map for each family of keys. -/
structure Storage where
  blocks : FiniteMap String Block
  heights : FiniteMap UInt64 String
  head : Option String
  accounts : FiniteMap Bytes Account
  headers : FiniteMap (UInt64 × Bytes) String
  votes : FiniteMap (String × Bytes) Vote
  txIndex : FiniteMap String String
  historyCount : FiniteMap String UInt64
  history : FiniteMap (String × UInt64) String

/-- One `put` of the database. -/
inductive Write where
  | block (block : Block)
  | height (height : UInt64) (hash : String)
  | head (hash : String)
  | account (address : Bytes) (account : Account)
  | header (slot : UInt64) (pubkey : Bytes) (hash : String)
  | vote (vote : Vote)
  | txIndex (txHash blockHash : String)
  | historyItem (address : String) (index : UInt64) (txHash : String)
  | historyCount (address : String) (count : UInt64)

/-- How the database answers each write: `none` when it succeeds, else the error text. -/
abbrev Disk := Write → Option String

namespace Storage

/-- A database without records. -/
def empty : Storage where
  blocks := ∅
  heights := ∅
  head := none
  accounts := ∅
  headers := ∅
  votes := ∅
  txIndex := ∅
  historyCount := ∅
  history := ∅

/-- The content after a successful write. -/
def put (storage : Storage) : Write → Storage
  | .block block => { storage with blocks := storage.blocks.insert block.hash block }
  | .height height hash => { storage with heights := storage.heights.insert height hash }
  | .head hash => { storage with head := some hash }
  | .account address account => { storage with accounts := storage.accounts.insert address account }
  | .header slot pubkey hash => { storage with headers := storage.headers.insert (slot, pubkey) hash }
  | .vote vote => { storage with votes := storage.votes.insert (vote.blockHash, vote.validatorPubkey) vote }
  | .txIndex txHash blockHash => { storage with txIndex := storage.txIndex.insert txHash blockHash }
  | .historyItem address index txHash =>
      { storage with history := storage.history.insert (address, index) txHash }
  | .historyCount address count =>
      { storage with historyCount := storage.historyCount.insert address count }

/-- `db.put` with the error context of its caller. -/
def write (disk : Disk) (context : String) (storage : Storage) (record : Write) :
    Except String Unit × Storage :=
  match disk record with
  | none => (.ok (), storage.put record)
  | some error => (.error (context ++ ": " ++ error), storage)

/-- A write that succeeds puts its record. -/
theorem write_ok {disk : Disk} {context : String} {storage storage' : Storage} {record : Write}
    (h : storage.write disk context record = (.ok (), storage')) : storage' = storage.put record := by
  unfold write at h
  split at h
  · exact (Prod.mk.inj h).2.symm
  · simp at h

/-- A refused write changes nothing. -/
theorem write_error {disk : Disk} {context error : String} {storage storage' : Storage}
    {record : Write} (h : storage.write disk context record = (.error error, storage')) :
    storage' = storage := by
  unfold write at h
  split at h
  · simp at h
  · exact (Prod.mk.inj h).2.symm

/-- `store_block`: the key is the hash that the block carries. -/
def storeBlock (disk : Disk) (storage : Storage) (block : Block) : Except String Unit × Storage :=
  storage.write disk "Failed to store block" (.block block)

/-- `get_block`. -/
def getBlock (storage : Storage) (hash : String) : Option Block := storage.blocks.lookup hash

/-- `store_block_by_height`. -/
def storeBlockByHeight (disk : Disk) (storage : Storage) (height : UInt64) (hash : String) :
    Except String Unit × Storage :=
  storage.write disk "Failed to store block by height" (.height height hash)

/-- `get_block_by_height`. -/
def getBlockByHeight (storage : Storage) (height : UInt64) : Option String :=
  storage.heights.lookup height

/-- `store_head`. -/
def storeHead (disk : Disk) (storage : Storage) (hash : String) : Except String Unit × Storage :=
  storage.write disk "Failed to store head" (.head hash)

/-- `store_account`. -/
def storeAccount (disk : Disk) (storage : Storage) (address : Bytes) (account : Account) :
    Except String Unit × Storage :=
  storage.write disk "Failed to store account" (.account address account)

/-- `get_account`. -/
def getAccount (storage : Storage) (address : Bytes) : Option Account :=
  storage.accounts.lookup address

/-- `get_all_accounts`: a scan in key order. -/
def getAllAccounts (storage : Storage) : List (Bytes × Account) :=
  (keysInOrder storage.accounts.keys).filterMap fun address =>
    (storage.accounts.lookup address).map fun account => (address, account)

/-- `COOLDOWN_MS`. -/
def cooldownMs : Int64 := 24 * 60 * 60 * 1000

/-- `can_claim`, by what `get_last_claim` found. -/
def canClaim (lastClaim : Option Int64) (currentTime : Int64) : Bool :=
  match lastClaim with
  | some lastClaim => decide (cooldownMs ≤ currentTime - lastClaim)
  | none => true

/-- `get_claim_cooldown_remaining`, by what `get_last_claim` found. -/
def claimCooldownRemaining (lastClaim : Option Int64) (currentTime : Int64) : Option Int64 :=
  match lastClaim with
  | some lastClaim =>
    let elapsed := currentTime - lastClaim
    if elapsed < cooldownMs then some (cooldownMs - elapsed) else none
  | none => none

/-- `store_seen_header`. -/
def storeSeenHeader (disk : Disk) (storage : Storage) (slot : UInt64) (pubkey : Bytes)
    (blockHash : String) : Except String Unit × Storage :=
  storage.write disk "Failed to store seen header" (.header slot pubkey blockHash)

/-- `get_seen_header`. -/
def getSeenHeader (storage : Storage) (slot : UInt64) (pubkey : Bytes) : Option String :=
  storage.headers.lookup (slot, pubkey)

/-- `store_vote`. -/
def storeVote (disk : Disk) (storage : Storage) (vote : Vote) : Except String Unit × Storage :=
  storage.write disk "Failed to store vote" (.vote vote)

/-- `store_transaction_index`. -/
def storeTransactionIndex (disk : Disk) (storage : Storage) (txHash blockHash : String) :
    Except String Unit × Storage :=
  storage.write disk "Failed to store transaction index" (.txIndex txHash blockHash)

/-- `add_transaction_to_address`: the item first, then the count, each write on its own. -/
def addTransactionToAddress (disk : Disk) (storage : Storage) (address txHash : String) :
    Except String Unit × Storage :=
  let count := (storage.historyCount.lookup address).getD 0
  match storage.write disk "Failed to store history item" (.historyItem address count txHash) with
  | (.error error, storage) => (.error error, storage)
  | (.ok (), storage) =>
      storage.write disk "Failed to update history count" (.historyCount address (count + 1))

/-- `get_transaction_block`. -/
def getTransactionBlock (storage : Storage) (txHash : String) : Option String :=
  storage.txIndex.lookup txHash

/-- The loop of `get_address_history` over so many items, from an index down. An item that is missing is
passed over. -/
def historyDown (storage : Storage) (address : String) : ℕ → UInt64 → List String
  | 0, _ => []
  | remaining + 1, index =>
    match storage.history.lookup (address, index) with
    | none => storage.historyDown address remaining (index - 1)
    | some txHash => txHash :: storage.historyDown address remaining (index - 1)

/-- `get_address_history`: the items from the last one down to the one that the limit allows. -/
def getAddressHistory (storage : Storage) (address : String) (limit : UInt64) : List String :=
  match storage.historyCount.lookup address with
  | none => []
  | some count =>
    if 0 < count then
      let startIndex := count - 1
      let endIndex := if limit < count then count - limit else 0
      storage.historyDown address (startIndex.toNat + 1 - endIndex.toNat) startIndex
    else []

/-- One `delete` of the database. -/
inductive Deletion where
  | height (height : UInt64)
  | block (hash : String)

/-- How the database answers each deletion: `none` when it succeeds, else the error text. -/
abbrev Eraser := Deletion → Option String

/-- The content after a successful deletion. -/
def erase (storage : Storage) : Deletion → Storage
  | .height height => { storage with heights := storage.heights.erase height }
  | .block hash => { storage with blocks := storage.blocks.erase hash }

/-- `delete_block`. -/
def deleteBlock (eraser : Eraser) (storage : Storage) (hash : String) : Except String Unit × Storage :=
  match eraser (.block hash) with
  | none => (.ok (), storage.erase (.block hash))
  | some error => (.error ("Failed to delete block: " ++ error), storage)

/-- The loop of `prune_blocks_before` over so many heights from one on. A height entry goes before its
block does, and the entry of the head's slot goes without its block. -/
def pruneHeights (eraser : Eraser) (chainHeadHash : String) :
    ℕ → UInt64 → UInt64 → Storage → Except String UInt64 × Storage
  | 0, _, deletedCount, storage => (.ok deletedCount, storage)
  | remaining + 1, height, deletedCount, storage =>
    match storage.getBlockByHeight height with
    | none => pruneHeights eraser chainHeadHash remaining (height + 1) deletedCount storage
    | some hash =>
      match eraser (.height height) with
      | some error => (.error error, storage)
      | none =>
        let storage := storage.erase (.height height)
        if hash = chainHeadHash then
          pruneHeights eraser chainHeadHash remaining (height + 1) deletedCount storage
        else
          match storage.deleteBlock eraser hash with
          | (.error error, storage) => (.error error, storage)
          | (.ok (), storage) =>
              pruneHeights eraser chainHeadHash remaining (height + 1) (deletedCount + 1) storage

/-- `prune_blocks_before`: the heights from one up to the target; genesis is kept. -/
def pruneBlocksBefore (eraser : Eraser) (storage : Storage) (targetHeight : UInt64)
    (chainHeadHash : String) : Except String UInt64 × Storage :=
  pruneHeights eraser chainHeadHash (targetHeight.toNat - 1) 1 0 storage

end Storage

/-- What one call of the node meets from outside its own data: the database's answers, and
the order in which this process's hash maps are walked. -/
structure Host where
  disk : Disk
  /-- The walk over a map, given its keys. -/
  order : Finset Bytes → List Bytes
  mem_order : ∀ keys address, address ∈ order keys ↔ address ∈ keys
  nodup_order : ∀ keys, (order keys).Nodup
  /-- `bincode::serialize` of an account, which walks the three maps inside it. -/
  encode : Account → Bytes

/-- No write fails. -/
def Host.Reliable (host : Host) : Prop := ∀ record, host.disk record = none

/-- On a reliable database every write takes effect. -/
theorem Host.Reliable.write {host : Host} (hreliable : host.Reliable) (context : String)
    (storage : Storage) (record : Write) :
    storage.write host.disk context record = (.ok (), storage.put record) := by
  rw [Storage.write, hreliable record]

/-- A walk over a map: its entries, in the order in which this process meets the keys. -/
def Host.walk {ν : Type} (host : Host) (map : FiniteMap Bytes ν) : List (Bytes × ν) :=
  (host.order map.keys).filterMap fun key => (map.lookup key).map fun value => (key, value)

/-- A walk meets exactly the entries of the map. -/
theorem Host.mem_walk {ν : Type} {host : Host} {map : FiniteMap Bytes ν} {key : Bytes} {value : ν} :
    (key, value) ∈ host.walk map ↔ map.lookup key = some value := by
  unfold Host.walk
  rw [List.mem_filterMap]
  constructor
  · rintro ⟨found, -, hfound⟩
    obtain ⟨stored, hstored, heq⟩ := Option.map_eq_some_iff.mp hfound
    obtain ⟨rfl, rfl⟩ := Prod.mk.inj heq
    exact hstored
  · intro hlookup
    have hkey : key ∈ map.keys := Finmap.mem_keys.mpr (Finmap.mem_of_lookup_eq_some hlookup)
    exact ⟨key, (host.mem_order _ _).mpr hkey, by rw [hlookup]; rfl⟩

/-- A walk meets no key twice. -/
theorem Host.nodup_walk {ν : Type} (host : Host) (map : FiniteMap Bytes ν) :
    ((host.walk map).map Prod.fst).Nodup := by
  unfold Host.walk
  rw [List.map_filterMap]
  apply List.Nodup.filterMap _ (host.nodup_order map.keys)
  intro a b key ha hb
  obtain ⟨value, -, hfirst⟩ := Option.map_eq_some_iff.mp ((Option.map_map _ _ _).symm.trans ha)
  obtain ⟨value', -, hsecond⟩ := Option.map_eq_some_iff.mp ((Option.map_map _ _ _).symm.trans hb)
  exact hfirst.trans hsecond.symm

/-- A walk is as long as the map. -/
theorem Host.length_walk {ν : Type} (host : Host) (map : FiniteMap Bytes ν) :
    (host.walk map).length = map.keys.card := by
  have hkeys : ((host.walk map).map Prod.fst).toFinset = map.keys := by
    ext key
    rw [List.mem_toFinset, List.mem_map, Finmap.mem_keys, Finmap.mem_iff]
    constructor
    · rintro ⟨⟨found, value⟩, hwalk, rfl⟩
      exact ⟨value, Host.mem_walk.mp hwalk⟩
    · rintro ⟨value, hlookup⟩
      exact ⟨(key, value), Host.mem_walk.mpr hlookup, rfl⟩
  rw [← hkeys, List.toFinset_card_of_nodup (host.nodup_walk map), List.length_map]

/-- A reliable database and maps that are walked in key order. -/
def Host.plain : Host where
  disk _ := none
  order := keysInOrder
  mem_order := FiniteSet.mem_sorted _
  nodup_order := FiniteSet.nodup_sorted _
  encode := Account.serialize keysInOrder

theorem Host.plain_reliable : Host.plain.Reliable := fun _ => rfl

end Nocostcoin
