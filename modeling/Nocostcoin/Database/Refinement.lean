import Nocostcoin.Database.Families
import Nocostcoin.Database.Scans
import Nocostcoin.Library.Layout
import Nocostcoin.Library.Simulation
import Nocostcoin.Node.Loop

/-!
# The database as maps of its own for each family

`storage.rs` keeps its ten families in one map of bytes. What the node is given for its calls is what it would
be given by a map for each family that holds the records themselves, whatever the order of the calls.
-/

namespace Nocostcoin

/-- A record as the node has it in hand. -/
inductive Record where
  | block (block : Block)
  | text (text : String)
  | account (account : Account)
  | vote (vote : Vote)
  | time (timestamp : Int64)
  | count (count : UInt64)

/-- How the value at a place is read. -/
def Record.read (codec : Codec) : Place → Bytes → Option Record
  | .block _, bytes => (codec.deserializeBlock bytes).toOption.map .block
  | .account _, bytes => (codec.deserializeAccount bytes).toOption.map .account
  | .vote _ _, bytes => (codec.deserializeVote bytes).toOption.map .vote
  | .header _ _, bytes | .txIndex _, bytes => some (.text (fromUtf8Lossy bytes))
  | .height _, bytes | .head, bytes | .historyItem _ _, bytes => (fromUtf8 bytes).toOption.map .text
  | .faucet _, bytes => if bytes.length = 8 then some (.time (UInt64.ofNat (leValue bytes)).toInt64) else none
  | .historyCount _, bytes => if bytes.length = 8 then some (.count (UInt64.ofNat (leValue bytes))) else none

/-- The records in the database. -/
def recordLayout (codec : Codec) : Layout Place Bytes Bytes Record where
  key := Place.key
  read := Record.read codec
  key_injective := Place.key_injective

/-- What a node keeps: the records of its chain and the times of its faucet claims. -/
structure Contents where
  storage : Storage
  claims : FiniteMap Bytes Int64

namespace Write

/-- Where a record is put. -/
def place : Write → Place
  | .block stored => .block stored.hash
  | .height number _ => .height number
  | .head _ => .head
  | .account address _ => .account address
  | .header slot pubkey _ => .header slot pubkey
  | .vote stored => .vote stored.blockHash stored.validatorPubkey
  | .txIndex txHash _ => .txIndex txHash
  | .historyItem address index _ => .historyItem address index
  | .historyCount address _ => .historyCount address

/-- The record that is put there. -/
def record : Write → Record
  | .block stored => .block stored
  | .height _ hash | .head hash | .header _ _ hash | .txIndex _ hash | .historyItem _ _ hash => .text hash
  | .account _ stored => .account stored
  | .vote stored => .vote stored
  | .historyCount _ count => .count count

end Write

/-- The place that a deletion clears. -/
def Storage.Deletion.place : Storage.Deletion → Place
  | .height number => .height number
  | .block hash => .block hash

/-- A disk that refuses nothing. -/
def willing : Disk := fun _ => none

namespace Contents

/-- Nothing. -/
def empty : Contents := ⟨Storage.empty, ∅⟩

/-- The record at a place. -/
def recordAt (contents : Contents) : Place → Option Record
  | .block hash => (contents.storage.blocks.lookup hash).map .block
  | .height height => (contents.storage.heights.lookup height).map .text
  | .head => contents.storage.head.map .text
  | .account address => (contents.storage.accounts.lookup address).map .account
  | .header slot pubkey => (contents.storage.headers.lookup (slot, pubkey)).map .text
  | .vote blockHash pubkey => (contents.storage.votes.lookup (blockHash, pubkey)).map .vote
  | .faucet address => (contents.claims.lookup address).map .time
  | .txIndex txHash => (contents.storage.txIndex.lookup txHash).map .text
  | .historyCount address => (contents.storage.historyCount.lookup address).map .count
  | .historyItem address index => (contents.storage.history.lookup (address, index)).map .text

/-- Putting a record changes what is at its place. -/
theorem recordAt_put (storage : Storage) (claims : FiniteMap Bytes Int64) (written : Write) :
    recordAt ⟨storage.put written, claims⟩ =
      Function.update (recordAt ⟨storage, claims⟩) written.place (some written.record) := by
  funext place
  rw [Function.update_apply]
  split
  · rename_i hplace
    rw [hplace]
    cases written <;> simp [Storage.put, Write.place, Write.record, recordAt]
  · rename_i hplace
    cases written <;> cases place <;> try rfl
    all_goals
      simp only [Write.place, Place.block.injEq, Place.height.injEq, Place.account.injEq, Place.header.injEq,
        Place.vote.injEq, Place.txIndex.injEq, Place.historyCount.injEq, Place.historyItem.injEq,
        not_true_eq_false] at hplace
    all_goals
      simp only [Storage.put, recordAt, FiniteMap.lookup_insert_ite, Prod.mk.injEq, hplace, if_false]

/-- Deleting a record leaves nothing at its place. -/
theorem recordAt_erase (storage : Storage) (claims : FiniteMap Bytes Int64) (deletion : Storage.Deletion) :
    recordAt ⟨storage.erase deletion, claims⟩ =
      Function.update (recordAt ⟨storage, claims⟩) deletion.place none := by
  funext place
  rw [Function.update_apply]
  split
  · rename_i hplace
    rw [hplace]
    cases deletion <;> simp [Storage.erase, Storage.Deletion.place, recordAt]
  · rename_i hplace
    cases deletion <;> cases place <;> try rfl
    all_goals
      simp only [Storage.Deletion.place, Place.block.injEq, Place.height.injEq] at hplace
      simp only [Storage.erase, recordAt, Finmap.lookup_erase_ne hplace]

/-- Entering a claim changes what is at its place. -/
theorem recordAt_claim (storage : Storage) (claims : FiniteMap Bytes Int64) (address : Bytes)
    (timestamp : Int64) :
    recordAt ⟨storage, claims.insert address timestamp⟩ =
      Function.update (recordAt ⟨storage, claims⟩) (.faucet address) (some (.time timestamp)) := by
  funext place
  rw [Function.update_apply]
  split
  · rename_i hplace
    rw [hplace]
    simp [recordAt]
  · rename_i hplace
    cases place <;> try rfl
    simp only [Place.faucet.injEq] at hplace
    simp only [recordAt, FiniteMap.lookup_insert_ite, hplace, if_false]

/-- What is kept after a call that nothing refuses. -/
def perform (contents : Contents) : StoreCall → Contents
  | .block block => { contents with storage := (contents.storage.storeBlock willing block).2 }
  | .blockByHeight height hash =>
      { contents with storage := (contents.storage.storeBlockByHeight willing height hash).2 }
  | .head hash => { contents with storage := (contents.storage.storeHead willing hash).2 }
  | .account address account _ =>
      { contents with storage := (contents.storage.storeAccount willing address account).2 }
  | .seenHeader slot pubkey blockHash =>
      { contents with storage := (contents.storage.storeSeenHeader willing slot pubkey blockHash).2 }
  | .vote vote => { contents with storage := (contents.storage.storeVote willing vote).2 }
  | .faucetClaim address timestamp => { contents with claims := contents.claims.insert address timestamp }
  | .transactionIndex txHash blockHash =>
      { contents with storage := (contents.storage.storeTransactionIndex willing txHash blockHash).2 }
  | .transactionToAddress address txHash =>
      { contents with storage := (contents.storage.addTransactionToAddress willing address txHash).2 }

end Contents

variable {codec : Codec} {contents : Contents} {storage : Storage} {claims : FiniteMap Bytes Int64}
  {db db' : Database} {place : Place}

/-- The database holds the contents. -/
def Represents (codec : Codec) (contents : Contents) (db : Database) : Prop :=
  (recordLayout codec).Holds contents.recordAt db

/-- The empty one holds nothing. -/
theorem represents_empty (codec : Codec) : Represents codec Contents.empty ∅ := by
  have hnothing : Contents.empty.recordAt = fun _ => none := by
    funext place
    cases place <;> rfl
  unfold Represents
  rw [hnothing]
  exact (recordLayout codec).holds_empty

namespace Represents

/-- Where no record is there are no bytes. -/
theorem lookup_none (h : Represents codec contents db) (hnone : contents.recordAt place = none) :
    db.lookup place.key = none := Layout.Holds.lookup_none h hnone

/-- Where a record is there are bytes that are read as it. -/
theorem exists_bytes {record : Record} (h : Represents codec contents db)
    (hrecord : contents.recordAt place = some record) :
    ∃ bytes, db.lookup place.key = some bytes ∧ Record.read codec place bytes = some record :=
  Layout.Holds.exists_value h hrecord

/-- Bytes at a place are read as the record there. -/
theorem exists_record {bytes : Bytes} (h : Represents codec contents db)
    (hbytes : db.lookup place.key = some bytes) :
    ∃ record, contents.recordAt place = some record ∧ Record.read codec place bytes = some record :=
  Layout.Holds.exists_record h hbytes

/-- Every key is the key of a place. -/
theorem keyed (h : Represents codec contents db) : db.Keyed := Layout.Holds.keyed h

/-- A point read finds the record at the place, where what is read there is what the place is decoded to. -/
theorem get {α : Type} {decode : Bytes → Except String α} {stored : Option α} (h : Represents codec contents db)
    (enclose : α → Record) (hstored : contents.recordAt place = stored.map enclose)
    (hread : ∀ bytes item, Record.read codec place bytes = some (enclose item) → decode bytes = .ok item) :
    db.get place decode = .ok stored := by
  unfold Database.get
  cases stored with
  | none => rw [h.lookup_none hstored]
  | some item =>
    obtain ⟨bytes, hbytes, hitem⟩ := h.exists_bytes hstored
    rw [hbytes]
    dsimp only
    rw [hread bytes item hitem]
    rfl

/-- What is read as a record was decoded. -/
theorem ok_of_read {α : Type} {decoded : Except String α} {enclose : α → Record} {item : α}
    (hinjective : Function.Injective enclose) (h : decoded.toOption.map enclose = some (enclose item)) :
    decoded = .ok item := by
  obtain ⟨found, hfound, hsame⟩ := Option.map_eq_some_iff.mp h
  obtain rfl := hinjective hsame
  cases decoded with
  | error => contradiction
  | ok found => rw [Option.some.inj hfound]

theorem getBlock (h : Represents codec contents db) (hash : String) :
    db.getBlock codec hash = .ok (contents.storage.getBlock hash) :=
  h.get .block rfl fun _ _ hread =>
    congrArg (Except.mapError _) (ok_of_read (fun _ _ => Record.block.inj) hread)

theorem getBlockByHeight (h : Represents codec contents db) (height : UInt64) :
    db.getBlockByHeight height = .ok (contents.storage.getBlockByHeight height) :=
  h.get .text rfl fun _ _ hread =>
    congrArg (Except.mapError _) (ok_of_read (fun _ _ => Record.text.inj) hread)

theorem getHead (h : Represents codec contents db) : db.getHead = .ok contents.storage.head :=
  h.get .text rfl fun _ _ hread =>
    congrArg (Except.mapError _) (ok_of_read (fun _ _ => Record.text.inj) hread)

theorem getAccount (h : Represents codec contents db) (address : Bytes) :
    db.getAccount codec address = .ok (contents.storage.getAccount address) :=
  h.get .account rfl fun _ _ hread =>
    congrArg (Except.mapError _) (ok_of_read (fun _ _ => Record.account.inj) hread)

theorem getSeenHeader (h : Represents codec contents db) (slot : UInt64) (pubkey : Bytes) :
    db.getSeenHeader slot pubkey = .ok (contents.storage.getSeenHeader slot pubkey) :=
  h.get .text rfl fun _ _ hread => congrArg Except.ok (Record.text.inj (Option.some.inj hread))

theorem getTransactionBlock (h : Represents codec contents db) (txHash : String) :
    db.getTransactionBlock txHash = .ok (contents.storage.getTransactionBlock txHash) :=
  h.get .text rfl fun _ _ hread => congrArg Except.ok (Record.text.inj (Option.some.inj hread))

theorem getLastClaim (h : Represents codec contents db) (address : Bytes) :
    db.getLastClaim address = .ok (contents.claims.lookup address) := by
  refine h.get .time rfl fun bytes timestamp hread => ?_
  dsimp only [Record.read] at hread
  split at hread
  · rename_i hlength
    rw [if_pos hlength, Record.time.inj (Option.some.inj hread)]
  · contradiction

/-- The count of an address is the one that is kept, and reading it does not panic. -/
theorem historyCount (h : Represents codec contents db) (address : String) :
    db.historyCount address = some (contents.storage.historyCount.lookup address) := by
  unfold Database.historyCount
  cases hcount : contents.storage.historyCount.lookup address with
  | none =>
    have hrecord : contents.recordAt (.historyCount address) = none := by simp [Contents.recordAt, hcount]
    rw [h.lookup_none hrecord]
  | some count =>
    have hrecord : contents.recordAt (.historyCount address) = some (.count count) := by
      simp [Contents.recordAt, hcount]
    obtain ⟨bytes, hbytes, hread⟩ := h.exists_bytes hrecord
    rw [hbytes]
    dsimp only [Record.read] at hread ⊢
    split at hread
    · rename_i hlength
      rw [if_pos hlength, Record.count.inj (Option.some.inj hread)]
    · contradiction

/-- The text at a place, where there is one. -/
theorem lookup_text {stored : Option String} (h : Represents codec contents db)
    (hstored : contents.recordAt place = stored.map .text)
    (hread : ∀ bytes, Record.read codec place bytes = (fromUtf8 bytes).toOption.map .text) :
    (db.lookup place.key).map fromUtf8 = stored.map .ok := by
  cases stored with
  | none => rw [h.lookup_none hstored, Option.map_none, Option.map_none]
  | some text =>
    obtain ⟨bytes, hbytes, htext⟩ := h.exists_bytes hstored
    rw [hread bytes] at htext
    rw [hbytes, Option.map_some, ok_of_read (fun _ _ => Record.text.inj) htext, Option.map_some]

theorem historyItem (h : Represents codec contents db) (address : String) (index : UInt64) :
    (db.lookup (Place.historyItem address index).key).map fromUtf8 =
      (contents.storage.history.lookup (address, index)).map .ok :=
  h.lookup_text rfl fun _ => rfl

theorem heightEntry (h : Represents codec contents db) (height : UInt64) :
    (db.lookup (Place.height height).key).map fromUtf8 = (contents.storage.heights.lookup height).map .ok :=
  h.lookup_text rfl fun _ => rfl

/-- The loop over the items meets the ones that are kept. -/
theorem historyDown (h : Represents codec contents db) (address : String) (remaining : ℕ) (index : UInt64) :
    db.historyDown address remaining index = .ok (contents.storage.historyDown address remaining index) := by
  induction remaining generalizing index with
  | zero => rfl
  | succ remaining ih =>
    have hitem := h.historyItem address index
    rw [Database.historyDown, Storage.historyDown]
    cases hstored : contents.storage.history.lookup (address, index) with
    | none =>
      rw [hstored, Option.map_none, Option.map_eq_none_iff] at hitem
      rw [hitem]
      exact ih (index - 1)
    | some txHash =>
      rw [hstored, Option.map_some] at hitem
      obtain ⟨bytes, hbytes, hdecode⟩ := Option.map_eq_some_iff.mp hitem
      rw [hbytes]
      dsimp only
      rw [hdecode, ih (index - 1)]
      rfl

theorem getAddressHistory (h : Represents codec contents db) (address : String) (limit : UInt64) :
    db.getAddressHistory address limit = some (.ok (contents.storage.getAddressHistory address limit)) := by
  unfold Database.getAddressHistory Storage.getAddressHistory
  rw [h.historyCount, Option.bind_eq_bind, Option.bind_some]
  cases contents.storage.historyCount.lookup address with
  | none => rfl
  | some count =>
    dsimp only
    split
    · rw [h.historyDown]
    · rfl

/-- A put of a value that is read as the record. -/
theorem put (h : Represents codec ⟨storage, claims⟩ db) (written : Write) {value : Bytes}
    (hread : Record.read codec written.place value = some written.record) :
    Represents codec ⟨storage.put written, claims⟩ (db.put written.place value) := by
  unfold Represents
  rw [Contents.recordAt_put]
  exact Layout.Holds.put h hread

/-- A deletion. -/
theorem erase (h : Represents codec ⟨storage, claims⟩ db) (deletion : Storage.Deletion) :
    Represents codec ⟨storage.erase deletion, claims⟩ (db.erase deletion.place.key) := by
  unfold Represents
  rw [Contents.recordAt_erase]
  exact Layout.Holds.erase h deletion.place

/-- Each call that writes puts the records that it puts in the maps, and none panics. -/
theorem perform {call : StoreCall} (h : Represents codec contents db) (hread : call.ReadsBack codec) :
    ∃ db', db.perform codec call = some db' ∧ Represents codec (contents.perform call) db' := by
  have htext : ∀ text, (fromUtf8 (asBytes text)).toOption.map Record.text = some (.text text) := by
    intro text
    rw [fromUtf8_asBytes]
    rfl
  have hcount : ∀ count address, Record.read codec (.historyCount address) (u64ToLeBytes count) =
      some (.count count) := by
    intro count address
    dsimp only [Record.read]
    rw [if_pos (Database.length_u64ToLeBytes _), leValue_u64ToLeBytes, UInt64.ofNat_toNat]
  cases call with
  | block stored =>
    refine ⟨_, rfl, h.put (.block stored) ?_⟩
    dsimp only [Write.place, Record.read, Write.record]
    rw [show codec.deserializeBlock (codec.serializeBlock stored) = .ok stored from hread]
    rfl
  | blockByHeight height hash => exact ⟨_, rfl, h.put (.height height hash) (htext hash)⟩
  | head hash => exact ⟨_, rfl, h.put (.head hash) (htext hash)⟩
  | account address stored serialize =>
    refine ⟨_, rfl, h.put (.account address stored) ?_⟩
    dsimp only [Write.place, Record.read, Write.record]
    rw [show codec.deserializeAccount (serialize stored) = .ok stored from hread]
    rfl
  | seenHeader slot pubkey hash =>
    refine ⟨_, rfl, h.put (.header slot pubkey hash) ?_⟩
    dsimp only [Write.place, Record.read, Write.record]
    rw [fromUtf8Lossy_asBytes]
  | vote stored =>
    refine ⟨_, rfl, h.put (.vote stored) ?_⟩
    dsimp only [Write.place, Record.read, Write.record]
    rw [show codec.deserializeVote (codec.serializeVote stored) = .ok stored from hread]
    rfl
  | faucetClaim address timestamp =>
    refine ⟨_, rfl, ?_⟩
    unfold Represents
    rw [Contents.perform, Contents.recordAt_claim]
    refine Layout.Holds.put h ?_
    dsimp only [recordLayout, Record.read]
    rw [if_pos (Database.length_u64ToLeBytes _), Database.claim_readBack]
  | transactionIndex txHash hash =>
    refine ⟨_, rfl, h.put (.txIndex txHash hash) ?_⟩
    dsimp only [Write.place, Record.read, Write.record]
    rw [fromUtf8Lossy_asBytes]
  | transactionToAddress address txHash =>
    refine ⟨_, Option.bind_eq_some_iff.mpr ⟨_, h.historyCount address, rfl⟩, ?_⟩
    have hitem := h.put
      (.historyItem address ((contents.storage.historyCount.lookup address).getD 0) txHash) (htext txHash)
    exact hitem.put (.historyCount address _) (hcount _ address)

/-- The loop over the heights deletes what it deletes from the maps, counts the same, and meets no height
that it cannot read. -/
theorem pruneHeights (h : Represents codec ⟨storage, claims⟩ db) (head : String) (remaining : ℕ)
    (height deleted : UInt64) :
    (db.pruneHeights head remaining height deleted).1 =
        (storage.pruneHeights (fun _ => none) head remaining height deleted).1 ∧
      Represents codec ⟨(storage.pruneHeights (fun _ => none) head remaining height deleted).2, claims⟩
        (db.pruneHeights head remaining height deleted).2 := by
  induction remaining generalizing storage db height deleted with
  | zero => exact ⟨rfl, h⟩
  | succ remaining ih =>
    have hstored := h.heightEntry height
    rw [Database.pruneHeights, Storage.pruneHeights]
    unfold Storage.getBlockByHeight
    cases hentry : storage.heights.lookup height with
    | none =>
      rw [hentry, Option.map_none, Option.map_eq_none_iff] at hstored
      rw [hstored]
      exact ih h (height + 1) deleted
    | some hash =>
      rw [hentry, Option.map_some] at hstored
      obtain ⟨bytes, hbytes, hdecode⟩ := Option.map_eq_some_iff.mp hstored
      have herased := h.erase (.height height)
      rw [hbytes]
      dsimp only
      rw [hdecode]
      dsimp only
      split
      · exact ih herased (height + 1) deleted
      · exact ih (herased.erase (.block hash)) (height + 1) (deleted + 1)

end Represents

/-- A scan returns its items in the order of what it meets. -/
theorem Database.scan_sublist {α : Type} {front : Bytes} {read : Bytes → Bytes → Except String α}
    {entries : List (Bytes × Bytes)} {items : List α} (placeOf : α → Place)
    (hread : ∀ entry ∈ entries, front <+: entry.1 → ∀ item, read entry.1 entry.2 = .ok item →
      entry.1 = (placeOf item).key)
    (h : scan front read entries = .ok items) :
    (items.map fun item => (placeOf item).key).Sublist (entries.map Prod.fst) := by
  induction entries generalizing items with
  | nil =>
    rw [← Except.ok.inj h]
    exact List.Sublist.slnil
  | cons entry rest ih =>
    obtain ⟨key, value⟩ := entry
    rw [scan] at h
    split at h
    · rename_i hfront
      cases hitem : read key value with
      | error => simp [hitem] at h
      | ok item =>
        cases hrest : scan front read rest with
        | error => simp [hitem, hrest, Except.map] at h
        | ok more =>
          obtain rfl : item :: more = items := by simpa [hitem, hrest, Except.map] using h
          have hkey : key = (placeOf item).key :=
            hread _ List.mem_cons_self (List.isPrefixOf_iff_prefix.mp hfront) item hitem
          have hmore := ih (fun other hother => hread other (List.mem_cons_of_mem _ hother)) hrest
          rw [List.map_cons, List.map_cons, ← hkey]
          exact hmore.cons_cons key
    · rw [← Except.ok.inj h]
      exact List.nil_sublist _

namespace Storage

/-- The listed accounts are the stored ones. -/
theorem mem_getAllAccounts {item : Bytes × Account} :
    item ∈ storage.getAllAccounts ↔ storage.accounts.lookup item.1 = some item.2 :=
  Host.plain.mem_walk

/-- They are listed in the order of their addresses. -/
theorem pairwise_getAllAccounts (storage : Storage) :
    storage.getAllAccounts.Pairwise fun a b => a.1 ≤ b.1 := by
  have hkeys : (keysInOrder storage.accounts.keys).Pairwise (· ≤ ·) := FiniteSet.pairwise_sorted _ _
  refine hkeys.filterMap _ ?_
  intro key key' hle entry hentry entry' hentry'
  obtain ⟨account, -, rfl⟩ := Option.map_eq_some_iff.mp hentry
  obtain ⟨account', -, rfl⟩ := Option.map_eq_some_iff.mp hentry'
  exact hle

/-- A list of the stored accounts, each once and in the order of the addresses, is the listing. -/
theorem eq_getAllAccounts {accounts : List (Bytes × Account)} (hnodup : (accounts.map Prod.fst).Nodup)
    (hordered : accounts.Pairwise fun a b => a.1 ≤ b.1)
    (hmem : ∀ item, item ∈ accounts ↔ storage.accounts.lookup item.1 = some item.2) :
    accounts = storage.getAllAccounts := by
  have hlisted : (storage.getAllAccounts.map Prod.fst).Nodup := Host.plain.nodup_walk storage.accounts
  have hperm : accounts.Perm storage.getAllAccounts :=
    (List.perm_ext_iff_of_nodup hnodup.of_map hlisted.of_map).mpr fun item =>
      (hmem item).trans mem_getAllAccounts.symm
  refine hperm.eq_of_pairwise (fun a b ha hb hle hge => ?_) hordered storage.pairwise_getAllAccounts
  have hsame : a.1 = b.1 := List.le_antisymm hle hge
  have hfirst := (hmem a).mp ha
  rw [hsame, mem_getAllAccounts.mp hb] at hfirst
  exact Prod.ext hsame (Option.some.inj hfirst).symm

end Storage

namespace Represents

/-- What stands in front of a key of an account is followed by the address, and the bytes there are read as
the account. -/
theorem read_account {key value : Bytes} (h : Represents codec contents db) (hvalue : db.lookup key = some value)
    (hfront : asBytes "account:" <+: key) :
    ∃ item : Bytes × Account, (Database.decodeAccount codec value).map
      (fun account => (key.drop (asBytes "account:").length, account)) = .ok item ∧
        key = (Place.account item.1).key ∧ contents.storage.accounts.lookup item.1 = some item.2 := by
  obtain ⟨place, rfl⟩ := h.keyed key value hvalue
  obtain ⟨address, rfl⟩ := Place.isPrefix_account.mp hfront
  obtain ⟨record, hrecord, hread⟩ := h.exists_record hvalue
  obtain ⟨account, haccount, rfl⟩ := Option.map_eq_some_iff.mp hrecord
  have hdecode : Database.decodeAccount codec value = .ok account :=
    congrArg (Except.mapError _) (ok_of_read (fun _ _ => Record.account.inj) hread)
  have haddress : (Place.account address).key.drop (asBytes "account:").length = address := List.drop_left
  exact ⟨(address, account), by rw [hdecode, haddress]; rfl, rfl, haccount⟩

/-- The scan for the accounts returns them in the order in which the map lists them. -/
theorem getAllAccounts (h : Represents codec contents db) :
    db.getAllAccounts codec = .ok contents.storage.getAllAccounts := by
  obtain ⟨accounts, hscan, hnodup, hmem⟩ := Database.scan_iteratorFrom
    (fun item : Bytes × Account => Place.account item.1) fun key value hvalue hfront => by
      obtain ⟨item, hitem, hkey, -⟩ := h.read_account hvalue hfront
      exact ⟨item, hitem, hkey⟩
  have hkeys : (accounts.map fun item => (Place.account item.1).key).Pairwise (· ≤ ·) := by
    refine ((List.pairwise_map.mpr db.pairwise_inOrder).sublist
      ((List.dropWhile_sublist _).map Prod.fst)).sublist (Database.scan_sublist _ ?_ hscan)
    intro entry hentry hfront item hitem
    obtain ⟨found, hfound, hkey, -⟩ :=
      h.read_account (Database.mem_inOrder.mp ((List.dropWhile_sublist _).mem hentry)) hfront
    rw [hkey, Except.ok.inj (hitem.symm.trans hfound)]
  unfold Database.getAllAccounts
  dsimp only
  rw [hscan]
  refine congrArg Except.ok (Storage.eq_getAllAccounts ?_ ?_ fun item => (hmem item).trans ?_)
  · rw [show (fun item : Bytes × Account => Place.account item.1) = Place.account ∘ Prod.fst from rfl,
      ← List.map_map] at hnodup
    exact hnodup.of_map
  · exact (List.pairwise_map.mp hkeys).imp fun hle hlt => hle (List.append_left_lt hlt)
  · constructor
    · rintro ⟨hfront, value, hvalue, hitem⟩
      obtain ⟨found, hfound, -, hlookup⟩ := h.read_account hvalue hfront
      rwa [Except.ok.inj (hfound.symm.trans hitem)] at hlookup
    · intro hlookup
      have hrecord : contents.recordAt (.account item.1) = some (.account item.2) := by
        simp [Contents.recordAt, hlookup]
      obtain ⟨value, hvalue, -⟩ := h.exists_bytes hrecord
      have hfront := Place.isPrefix_account.mpr ⟨item.1, rfl⟩
      obtain ⟨found, hfound, hkey, hstored⟩ := h.read_account hvalue hfront
      have haddress : found.1 = item.1 := (Place.account.inj (Place.key_injective hkey)).symm
      rw [haddress, hlookup] at hstored
      have hsame : found = item := Prod.ext haddress (Option.some.inj hstored).symm
      exact ⟨hfront, value, hvalue, hsame ▸ hfound⟩

end Represents

/-- One call of a storage function. `get_votes` is left to its own theorem: it also returns votes for hashes that
continue the one asked for. -/
inductive StorageRequest where
  | write (call : StoreCall)
  | deleteBlock (hash : String)
  | pruneBlocksBefore (targetHeight : UInt64) (chainHeadHash : String)
  | getBlock (hash : String)
  | getBlockByHeight (height : UInt64)
  | getHead
  | getAccount (address : Bytes)
  | getAllAccounts
  | getSeenHeader (slot : UInt64) (pubkey : Bytes)
  | getTransactionBlock (txHash : String)
  | getAddressHistory (address : String) (limit : UInt64)
  | getLastClaim (address : Bytes)
  | canClaim (address : Bytes) (currentTime : Int64)
  | getClaimCooldownRemaining (address : Bytes) (currentTime : Int64)

/-- What a storage function returns. -/
inductive StorageAnswer where
  | done
  | deleted (count : UInt64)
  | block (found : Option Block)
  | text (found : Option String)
  | account (found : Option Account)
  | accounts (all : List (Bytes × Account))
  | history (txHashes : List String)
  | time (found : Option Int64)
  | verdict (granted : Bool)

/-- What the request writes is read back. -/
def StorageRequest.ReadsBack (codec : Codec) : StorageRequest → Prop
  | .write call => call.ReadsBack codec
  | _ => True

/-- The answer of the database, unless the function panics. -/
def Database.serve (codec : Codec) (db : Database) :
    StorageRequest → Option (Except String StorageAnswer × Database)
  | .write call => (db.perform codec call).map fun db' => (.ok .done, db')
  | .deleteBlock hash => some (.ok .done, deleteBlock db hash)
  | .pruneBlocksBefore targetHeight chainHeadHash =>
      some ((db.pruneBlocksBefore targetHeight chainHeadHash).1.map .deleted,
        (db.pruneBlocksBefore targetHeight chainHeadHash).2)
  | .getBlock hash => some ((db.getBlock codec hash).map .block, db)
  | .getBlockByHeight height => some ((db.getBlockByHeight height).map .text, db)
  | .getHead => some (db.getHead.map .text, db)
  | .getAccount address => some ((db.getAccount codec address).map .account, db)
  | .getAllAccounts => some ((db.getAllAccounts codec).map .accounts, db)
  | .getSeenHeader slot pubkey => some ((db.getSeenHeader slot pubkey).map .text, db)
  | .getTransactionBlock txHash => some ((db.getTransactionBlock txHash).map .text, db)
  | .getAddressHistory address limit =>
      (db.getAddressHistory address limit).map fun found => (found.map .history, db)
  | .getLastClaim address => some ((db.getLastClaim address).map .time, db)
  | .canClaim address currentTime => some ((db.canClaim address currentTime).map .verdict, db)
  | .getClaimCooldownRemaining address currentTime =>
      some ((db.getClaimCooldownRemaining address currentTime).map .time, db)

/-- The answer of the maps. -/
def Contents.serve (contents : Contents) : StorageRequest → Except String StorageAnswer × Contents
  | .write call => (.ok .done, contents.perform call)
  | .deleteBlock hash =>
      (.ok .done, { contents with storage := (contents.storage.deleteBlock (fun _ => none) hash).2 })
  | .pruneBlocksBefore targetHeight chainHeadHash =>
      ((contents.storage.pruneBlocksBefore (fun _ => none) targetHeight chainHeadHash).1.map .deleted,
        { contents with
          storage := (contents.storage.pruneBlocksBefore (fun _ => none) targetHeight chainHeadHash).2 })
  | .getBlock hash => (.ok (.block (contents.storage.getBlock hash)), contents)
  | .getBlockByHeight height => (.ok (.text (contents.storage.getBlockByHeight height)), contents)
  | .getHead => (.ok (.text contents.storage.head), contents)
  | .getAccount address => (.ok (.account (contents.storage.getAccount address)), contents)
  | .getAllAccounts => (.ok (.accounts contents.storage.getAllAccounts), contents)
  | .getSeenHeader slot pubkey => (.ok (.text (contents.storage.getSeenHeader slot pubkey)), contents)
  | .getTransactionBlock txHash => (.ok (.text (contents.storage.getTransactionBlock txHash)), contents)
  | .getAddressHistory address limit =>
      (.ok (.history (contents.storage.getAddressHistory address limit)), contents)
  | .getLastClaim address => (.ok (.time (contents.claims.lookup address)), contents)
  | .canClaim address currentTime =>
      (.ok (.verdict (Storage.canClaim (contents.claims.lookup address) currentTime)), contents)
  | .getClaimCooldownRemaining address currentTime =>
      (.ok (.time (Storage.claimCooldownRemaining (contents.claims.lookup address) currentTime)), contents)

/-- Where nothing refuses a deletion, pruning returns its count. -/
theorem Storage.pruneHeights_ok (head : String) (remaining : ℕ) (height deleted : UInt64) :
    ∃ count, (storage.pruneHeights (fun _ => none) head remaining height deleted).1 = .ok count := by
  induction remaining generalizing storage height deleted with
  | zero => exact ⟨deleted, rfl⟩
  | succ remaining ih =>
    rw [Storage.pruneHeights]
    cases storage.getBlockByHeight height with
    | none => exact ih (height + 1) deleted
    | some hash =>
      dsimp only
      split
      · exact ih (height + 1) deleted
      · exact ih (height + 1) (deleted + 1)

/-- The maps answer without an error. -/
theorem Contents.serve_ok (contents : Contents) (request : StorageRequest) :
    ∃ answer, (contents.serve request).1 = .ok answer := by
  cases request with
  | pruneBlocksBefore targetHeight chainHeadHash =>
    obtain ⟨count, hcount⟩ := contents.storage.pruneHeights_ok chainHeadHash (targetHeight.toNat - 1) 1 0
    exact ⟨.deleted count, congrArg (Except.map StorageAnswer.deleted) hcount⟩
  | _ => exact ⟨_, rfl⟩

namespace Represents

/-- The database that holds the contents answers a request as they do, and holds what they become. -/
theorem serve (h : Represents codec contents db) (request : StorageRequest) (hreads : request.ReadsBack codec) :
    ∃ db', db.serve codec request = some ((contents.serve request).1, db') ∧
      Represents codec (contents.serve request).2 db' := by
  cases request with
  | write call =>
    obtain ⟨db', hperform, hafter⟩ := h.perform hreads
    exact ⟨db', by rw [Database.serve, hperform]; rfl, hafter⟩
  | deleteBlock hash => exact ⟨_, rfl, h.erase (.block hash)⟩
  | pruneBlocksBefore targetHeight chainHeadHash =>
    obtain ⟨hcount, hafter⟩ := h.pruneHeights chainHeadHash (targetHeight.toNat - 1) 1 0
    exact ⟨_, congrArg some (Prod.ext (congrArg (Except.map StorageAnswer.deleted) hcount) rfl), hafter⟩
  | getBlock hash => exact ⟨db, by rw [Database.serve, h.getBlock]; rfl, h⟩
  | getBlockByHeight height => exact ⟨db, by rw [Database.serve, h.getBlockByHeight]; rfl, h⟩
  | getHead => exact ⟨db, by rw [Database.serve, h.getHead]; rfl, h⟩
  | getAccount address => exact ⟨db, by rw [Database.serve, h.getAccount]; rfl, h⟩
  | getAllAccounts => exact ⟨db, by rw [Database.serve, h.getAllAccounts]; rfl, h⟩
  | getSeenHeader slot pubkey => exact ⟨db, by rw [Database.serve, h.getSeenHeader]; rfl, h⟩
  | getTransactionBlock txHash => exact ⟨db, by rw [Database.serve, h.getTransactionBlock]; rfl, h⟩
  | getAddressHistory address limit => exact ⟨db, by rw [Database.serve, h.getAddressHistory]; rfl, h⟩
  | getLastClaim address => exact ⟨db, by rw [Database.serve, h.getLastClaim]; rfl, h⟩
  | canClaim address currentTime => exact ⟨db, by rw [Database.serve, Database.canClaim, h.getLastClaim]; rfl, h⟩
  | getClaimCooldownRemaining address currentTime =>
    exact ⟨db, by rw [Database.serve, Database.getClaimCooldownRemaining, h.getLastClaim]; rfl, h⟩

end Represents

namespace Database

/-- Whatever is asked of the database and in whatever order, where `bincode` reads back what it wrote: no call
panics or returns an error, and each returns what separate maps of the records return, from any database that
holds such maps, the empty one at first. -/
theorem answers_as_contents {requests : List StorageRequest} (h : Represents codec contents db)
    (hreads : ∀ request ∈ requests, request.ReadsBack codec) :
    ∃ calls db', Execution.trace (serve codec) db requests = some (calls, db') ∧
      calls.map Execution.Call.output = (Execution.respond Contents.serve contents requests).1 ∧
      (∀ call ∈ calls, ∃ answer, call.output = .ok answer) ∧
      Represents codec (Execution.respond Contents.serve contents requests).2 db' := by
  have hstands : Execution.StandsFor (serve codec) Contents.serve (Represents codec)
      (StorageRequest.ReadsBack codec) := fun _ _ request hrel hread => hrel.serve request hread
  obtain ⟨calls, db', htrace, houtputs, hend⟩ := hstands.exists_trace h hreads
  refine ⟨calls, db', htrace, houtputs, fun call hcall => ?_, hend⟩
  have hanswer : call.output ∈ (Execution.respond Contents.serve contents requests).1 :=
    houtputs ▸ List.mem_map_of_mem hcall
  obtain ⟨earlier, request, hserved⟩ := Execution.exists_of_mem_respond hanswer
  rw [hserved]
  exact earlier.serve_ok request

/-- Writes to every family, and what is read after them and between. -/
def sampleRequests : List StorageRequest :=
  Sample.storeCalls.map .write ++ [.getHead, .getAllAccounts, .pruneBlocksBefore 12 "abc", .getBlockByHeight 11,
    .getAddressHistory "01" 20, .canClaim [1] 1500, .deleteBlock "ab", .getBlock "ab"]

/-- The head's own height is erased by pruning, the history is read backwards, and a claim half a second ago
bars the next one. -/
theorem answers_as_contents_sample :
    ∃ calls db, Execution.trace (serve Sample.recordCodec) ∅ sampleRequests = some (calls, db) ∧
      (calls.map Execution.Call.output).drop 15 = [.ok (.deleted 1), .ok (.text none), .ok (.history ["t", "t:1"]),
        .ok (.verdict false), .ok .done, .ok (.block none)] := by
  have hreads : ∀ request ∈ sampleRequests, request.ReadsBack Sample.recordCodec := by
    intro request hrequest
    rcases List.mem_append.mp hrequest with hwrite | hother
    · obtain ⟨call, hcall, rfl⟩ := List.mem_map.mp hwrite
      exact Sample.readsBack_storeCalls call hcall
    · simp only [List.mem_cons, List.not_mem_nil, or_false] at hother
      rcases hother with rfl | rfl | rfl | rfl | rfl | rfl | rfl | rfl <;> trivial
  obtain ⟨calls, db, htrace, houtputs, -⟩ := answers_as_contents (represents_empty Sample.recordCodec) hreads
  exact ⟨calls, db, htrace, houtputs ▸ rfl⟩

end Database

end Nocostcoin
