import Nocostcoin.Storage
import Nocostcoin.Text

/-!
# The database

`storage.rs` on RocksDB, a map from byte strings to byte strings in the order of the keys that does not
refuse anything here. Ten families of records share it, told apart by the texts in front of their keys.
-/

namespace Nocostcoin

/-- The place of a record: its family and the arguments that its key is built from. -/
inductive Place where
  | block (hash : String)
  | height (height : UInt64)
  | head
  | account (address : Bytes)
  | header (slot : UInt64) (pubkey : Bytes)
  | vote (blockHash : String) (pubkey : Bytes)
  | faucet (address : Bytes)
  | txIndex (txHash : String)
  | historyCount (address : String)
  | historyItem (address : String) (index : UInt64)
  deriving DecidableEq

/-- The key of a record. -/
def Place.key : Place → Bytes
  | .block hash => asBytes ("block:" ++ hash)
  | .height number => asBytes ("height:" ++ toString number)
  | .head => asBytes "head"
  | .account address => asBytes "account:" ++ address
  | .header slot pubkey => asBytes ("header:" ++ (toString slot ++ ":" ++ hexEncode pubkey))
  | .vote blockHash pubkey => asBytes ("vote:" ++ (blockHash ++ ":" ++ hexEncode pubkey))
  | .faucet address => asBytes "faucet:" ++ address
  | .txIndex txHash => asBytes ("tx_index:" ++ txHash)
  | .historyCount address => asBytes ("history_count:" ++ address)
  | .historyItem address index => asBytes ("history:" ++ (address ++ ":" ++ toString index))

namespace Place

/-- The text in front of a key. -/
def family : Place → String
  | .block _ => "block"
  | .height _ => "height"
  | .head => "head"
  | .account _ => "account"
  | .header _ _ => "header"
  | .vote _ _ => "vote"
  | .faucet _ => "faucet"
  | .txIndex _ => "tx_index"
  | .historyCount _ => "history_count"
  | .historyItem _ _ => "history"

/-- What follows it, from the colon on. -/
def rest : Place → Bytes
  | .block hash => asBytes ":" ++ asBytes hash
  | .height number => asBytes ":" ++ asBytes (toString number)
  | .head => []
  | .account address => asBytes ":" ++ address
  | .header slot pubkey => asBytes ":" ++ asBytes (toString slot ++ ":" ++ hexEncode pubkey)
  | .vote blockHash pubkey => asBytes ":" ++ asBytes (blockHash ++ ":" ++ hexEncode pubkey)
  | .faucet address => asBytes ":" ++ address
  | .txIndex txHash => asBytes ":" ++ asBytes txHash
  | .historyCount address => asBytes ":" ++ asBytes address
  | .historyItem address index => asBytes ":" ++ asBytes (address ++ ":" ++ toString index)

/-- A key is the text of its family and the rest. -/
theorem key_eq (place : Place) : place.key = asBytes place.family ++ place.rest := by
  have hsplit : ∀ (text : String) (bytes : Bytes),
      asBytes (text ++ ":") ++ bytes = asBytes text ++ (asBytes ":" ++ bytes) := by
    intro text bytes
    rw [asBytes_append, List.append_assoc]
  cases place with
  | head => exact (List.append_nil _).symm
  | account | faucet =>
    refine .trans ?_ (hsplit _ _)
    simp [family, key]
  | block | height | header | vote | txIndex | historyCount | historyItem =>
    refine .trans ?_ (hsplit _ _)
    rw [key, asBytes_append]
    simp [family]

/-- The rest is empty or begins with the colon. -/
theorem takeWhile_rest (place : Place) : place.rest.takeWhile (· ≠ 58) = [] := by
  have hcolon : asBytes ":" = [58] := by decide +kernel
  cases place <;> simp [rest, hcolon]

/-- The text of a family has no colon. -/
theorem takeWhile_family (place : Place) :
    (asBytes place.family).takeWhile (· ≠ 58) = asBytes place.family := by
  cases place <;> (dsimp only [family]; decide +kernel)

/-- A key tells its family. -/
theorem takeWhile_key (place : Place) : place.key.takeWhile (· ≠ 58) = asBytes place.family := by
  rw [key_eq, List.takeWhile_append, takeWhile_family, if_pos rfl, takeWhile_rest, List.append_nil]

/-- Equal keys agree on the family and on the rest. -/
theorem family_of_key {place place' : Place} (h : place.key = place'.key) :
    place.family = place'.family ∧ place.rest = place'.rest := by
  have hsame : place.family = place'.family := asBytes_injective (by rw [← takeWhile_key, h, takeWhile_key])
  rw [key_eq, key_eq, hsame] at h
  exact ⟨hsame, List.append_cancel_left h⟩

/-- The keys of different families and those of different arguments differ. -/
theorem key_injective : Function.Injective key := by
  intro place place' h
  obtain ⟨hfamily, hrest⟩ := family_of_key h
  cases place <;> cases place' <;> try (simp [family] at hfamily; done)
  case head.head => rfl
  case block.block | txIndex.txIndex | historyCount.historyCount =>
    rw [asBytes_injective (List.append_cancel_left hrest)]
  case account.account | faucet.faucet => rw [List.append_cancel_left hrest]
  case height.height => rw [decimal_injective (asBytes_injective (List.append_cancel_left hrest))]
  case header.header slot pubkey slot' pubkey' =>
    have hchars := congrArg String.toList (asBytes_injective (List.append_cancel_left hrest))
    rw [toList_colon, toList_colon] at hchars
    obtain ⟨hslot, hpubkey⟩ := eq_of_first_separator (colon_notMem_decimal _) (colon_notMem_decimal _) hchars
    rw [decimal_injective (String.toList_injective hslot),
      hexEncode_injective (String.toList_injective hpubkey)]
  case vote.vote =>
    have hchars := congrArg String.toList (asBytes_injective (List.append_cancel_left hrest))
    rw [toList_colon, toList_colon] at hchars
    obtain ⟨hhash, hpubkey⟩ := eq_of_last_separator (colon_notMem_hex _) (colon_notMem_hex _) hchars
    rw [String.toList_injective hhash, hexEncode_injective (String.toList_injective hpubkey)]
  case historyItem.historyItem =>
    have hchars := congrArg String.toList (asBytes_injective (List.append_cancel_left hrest))
    rw [toList_colon, toList_colon] at hchars
    obtain ⟨haddress, hindex⟩ :=
      eq_of_last_separator (colon_notMem_decimal _) (colon_notMem_decimal _) hchars
    rw [String.toList_injective haddress, decimal_injective (String.toList_injective hindex)]

end Place

/-- `bincode` on the records that are stored with it. An account's maps are walked anew at every write, so
what it becomes is given with the write. -/
structure Codec where
  serializeBlock : Block → Bytes
  serializeVote : Vote → Bytes
  deserializeBlock : Bytes → Except String Block
  deserializeAccount : Bytes → Except String Account
  deserializeVote : Bytes → Except String Vote

/-- The content of the database. -/
abbrev Database := FiniteMap Bytes Bytes

namespace Database

/-- `db.put`. -/
def put (db : Database) (place : Place) (value : Bytes) : Database := db.insert place.key value

/-- `db.get`, and what is made of the value that is found. -/
def get {α : Type} (db : Database) (place : Place) (decode : Bytes → Except String α) :
    Except String (Option α) :=
  match db.lookup place.key with
  | some bytes => (decode bytes).map some
  | none => .ok none

/-- Reading after one write: what was written at the same place, and else what was there. -/
theorem lookup_put (db : Database) (place other : Place) (value : Bytes) :
    (db.put place value).lookup other.key = if other = place then some value else db.lookup other.key := by
  unfold put
  rw [FiniteMap.lookup_insert_ite]
  simp only [Place.key_injective.eq_iff]

/-- `store_block`. -/
def storeBlock (codec : Codec) (db : Database) (block : Block) : Database :=
  db.put (.block block.hash) (codec.serializeBlock block)

/-- `get_block`. -/
def getBlock (codec : Codec) (db : Database) (hash : String) : Except String (Option Block) :=
  db.get (.block hash) fun bytes =>
    (codec.deserializeBlock bytes).mapError ("Failed to deserialize block: " ++ ·)

/-- `store_block_by_height`. -/
def storeBlockByHeight (db : Database) (height : UInt64) (hash : String) : Database :=
  db.put (.height height) (asBytes hash)

/-- `get_block_by_height`. -/
def getBlockByHeight (db : Database) (height : UInt64) : Except String (Option String) :=
  db.get (.height height) fun bytes => (fromUtf8 bytes).mapError ("Failed to decode block hash: " ++ ·)

/-- `store_head`. -/
def storeHead (db : Database) (hash : String) : Database := db.put .head (asBytes hash)

/-- `get_head`. -/
def getHead (db : Database) : Except String (Option String) :=
  db.get .head fun bytes => (fromUtf8 bytes).mapError ("Failed to decode head: " ++ ·)

/-- `store_account`, given what the account is serialized to. -/
def storeAccount (db : Database) (address : Bytes) (serialized : Bytes) : Database :=
  db.put (.account address) serialized

/-- How a stored account is read. -/
def decodeAccount (codec : Codec) (bytes : Bytes) : Except String Account :=
  (codec.deserializeAccount bytes).mapError ("Failed to deserialize account: " ++ ·)

/-- `get_account`. -/
def getAccount (codec : Codec) (db : Database) (address : Bytes) : Except String (Option Account) :=
  db.get (.account address) (decodeAccount codec)

/-- `delete_block`. -/
def deleteBlock (db : Database) (hash : String) : Database := db.erase (Place.block hash).key

/-- The loop of `prune_blocks_before` over so many heights from one on: the entry of a height is deleted
before its hash is decoded. -/
def pruneHeights (chainHeadHash : String) :
    ℕ → UInt64 → UInt64 → Database → Except String UInt64 × Database
  | 0, _, deletedCount, db => (.ok deletedCount, db)
  | remaining + 1, height, deletedCount, db =>
    match db.lookup (Place.height height).key with
    | none => pruneHeights chainHeadHash remaining (height + 1) deletedCount db
    | some hashBytes =>
      let db := db.erase (Place.height height).key
      match fromUtf8 hashBytes with
      | .error error => (.error ("Failed to decode hash: " ++ error), db)
      | .ok hash =>
        if hash = chainHeadHash then
          pruneHeights chainHeadHash remaining (height + 1) deletedCount db
        else pruneHeights chainHeadHash remaining (height + 1) (deletedCount + 1) (deleteBlock db hash)

/-- `prune_blocks_before`. -/
def pruneBlocksBefore (db : Database) (targetHeight : UInt64) (chainHeadHash : String) :
    Except String UInt64 × Database :=
  pruneHeights chainHeadHash (targetHeight.toNat - 1) 1 0 db

/-- `store_seen_header`. -/
def storeSeenHeader (db : Database) (slot : UInt64) (pubkey : Bytes) (blockHash : String) : Database :=
  db.put (.header slot pubkey) (asBytes blockHash)

/-- `get_seen_header`. -/
def getSeenHeader (db : Database) (slot : UInt64) (pubkey : Bytes) : Except String (Option String) :=
  db.get (.header slot pubkey) fun bytes => .ok (fromUtf8Lossy bytes)

/-- `store_vote`. -/
def storeVote (codec : Codec) (db : Database) (vote : Vote) : Database :=
  db.put (.vote vote.blockHash vote.validatorPubkey) (codec.serializeVote vote)

/-- How a stored vote is read. -/
def decodeVote (codec : Codec) (bytes : Bytes) : Except String Vote :=
  (codec.deserializeVote bytes).mapError ("Failed to deserialize vote: " ++ ·)

/-- `record_faucet_claim`: the time as little-endian bytes. -/
def recordFaucetClaim (db : Database) (address : Bytes) (timestamp : Int64) : Database :=
  db.put (.faucet address) (u64ToLeBytes timestamp.toUInt64)

/-- `get_last_claim`. -/
def getLastClaim (db : Database) (address : Bytes) : Except String (Option Int64) :=
  db.get (.faucet address) fun bytes =>
    if bytes.length = 8 then .ok (UInt64.ofNat (leValue bytes)).toInt64
    else .error "Invalid timestamp format"

/-- `can_claim`. -/
def canClaim (db : Database) (address : Bytes) (currentTime : Int64) : Except String Bool :=
  (db.getLastClaim address).map (Storage.canClaim · currentTime)

/-- `get_claim_cooldown_remaining`. -/
def getClaimCooldownRemaining (db : Database) (address : Bytes) (currentTime : Int64) :
    Except String (Option Int64) :=
  (db.getLastClaim address).map (Storage.claimCooldownRemaining · currentTime)

/-- `store_transaction_index`. -/
def storeTransactionIndex (db : Database) (txHash blockHash : String) : Database :=
  db.put (.txIndex txHash) (asBytes blockHash)

/-- `get_transaction_block`. -/
def getTransactionBlock (db : Database) (txHash : String) : Except String (Option String) :=
  db.get (.txIndex txHash) fun bytes => .ok (fromUtf8Lossy bytes)

/-- The count on record for an address, if there is one; `copy_from_slice` panics on a record that is not
of eight bytes. -/
def historyCount (db : Database) (address : String) : Option (Option UInt64) :=
  match db.lookup (Place.historyCount address).key with
  | some bytes => if bytes.length = 8 then some (some (UInt64.ofNat (leValue bytes))) else none
  | none => some none

/-- `add_transaction_to_address`: the item at the current count, then the next count. -/
def addTransactionToAddress (db : Database) (address txHash : String) : Option Database := do
  let count := (← db.historyCount address).getD 0
  let db := db.put (.historyItem address count) (asBytes txHash)
  some (db.put (.historyCount address) (u64ToLeBytes (count + 1)))

/-- The loop of `get_address_history` over so many items, from an index down. An item that is missing is
passed over. -/
def historyDown (db : Database) (address : String) : ℕ → UInt64 → Except String (List String)
  | 0, _ => .ok []
  | remaining + 1, index =>
    match db.lookup (Place.historyItem address index).key with
    | none => db.historyDown address remaining (index - 1)
    | some bytes =>
      match fromUtf8 bytes with
      | .error error => .error ("Failed to decode tx hash: " ++ error)
      | .ok txHash => (db.historyDown address remaining (index - 1)).map (txHash :: ·)

/-- `get_address_history`: the items from the last one down to the one that the limit allows. -/
def getAddressHistory (db : Database) (address : String) (limit : UInt64) :
    Option (Except String (List String)) := do
  match ← db.historyCount address with
  | none => some (.ok [])
  | some count =>
    if 0 < count then
      let startIndex := count - 1
      let endIndex := if limit < count then count - limit else 0
      some (db.historyDown address (startIndex.toNat + 1 - endIndex.toNat) startIndex)
    else some (.ok [])

/-- The records in the order of their keys. -/
def inOrder (db : Database) : List (Bytes × Bytes) :=
  (keysInOrder db.keys).filterMap fun key => (db.lookup key).map fun value => (key, value)

/-- `db.iterator` from a key on, forward. -/
def iteratorFrom (db : Database) (start : Bytes) : List (Bytes × Bytes) :=
  db.inOrder.dropWhile fun entry => decide (entry.1 < start)

/-- The loop of a scan: it ends at the first key without the text in front, or at the first record that
cannot be read. -/
def scan {α : Type} (front : Bytes) (read : Bytes → Bytes → Except String α) :
    List (Bytes × Bytes) → Except String (List α)
  | [] => .ok []
  | (key, value) :: rest =>
    if front.isPrefixOf key then
      match read key value with
      | .error error => .error error
      | .ok item => (scan front read rest).map (item :: ·)
    else .ok []

/-- `get_votes`. -/
def getVotes (codec : Codec) (db : Database) (blockHash : String) : Except String (List Vote) :=
  let front := asBytes ("vote:" ++ blockHash)
  scan front (fun _ value => decodeVote codec value) (db.iteratorFrom front)

/-- `get_all_accounts`: the address is what follows the text in front of the key. -/
def getAllAccounts (codec : Codec) (db : Database) : Except String (List (Bytes × Account)) :=
  let front := asBytes "account:"
  scan front (fun key value => (decodeAccount codec value).map fun account => (key.drop front.length, account))
    (db.iteratorFrom front)

end Database

/-- One call of a function that writes to the database. -/
inductive StoreCall where
  | block (block : Block)
  | blockByHeight (height : UInt64) (hash : String)
  | head (hash : String)
  | account (address : Bytes) (account : Account) (serialize : Account → Bytes)
  | seenHeader (slot : UInt64) (pubkey : Bytes) (blockHash : String)
  | vote (vote : Vote)
  | faucetClaim (address : Bytes) (timestamp : Int64)
  | transactionIndex (txHash blockHash : String)
  | transactionToAddress (address txHash : String)

namespace Database

/-- The database after a call, unless it panics. -/
def perform (codec : Codec) (db : Database) : StoreCall → Option Database
  | .block block => some (db.storeBlock codec block)
  | .blockByHeight height hash => some (db.storeBlockByHeight height hash)
  | .head hash => some (db.storeHead hash)
  | .account address account serialize => some (db.storeAccount address (serialize account))
  | .seenHeader slot pubkey blockHash => some (db.storeSeenHeader slot pubkey blockHash)
  | .vote vote => some (db.storeVote codec vote)
  | .faucetClaim address timestamp => some (db.recordFaucetClaim address timestamp)
  | .transactionIndex txHash blockHash => some (db.storeTransactionIndex txHash blockHash)
  | .transactionToAddress address txHash => db.addTransactionToAddress address txHash

/-- The database after a sequence of calls. -/
def performAll (codec : Codec) (db : Database) (calls : List StoreCall) : Option Database :=
  calls.foldlM (perform codec) db

end Database

end Nocostcoin
