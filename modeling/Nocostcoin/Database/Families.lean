import Nocostcoin.Database

/-!
# The families of records are maps of their own

The keys of different records differ, so a point read finds what was last written in the same family under
the same arguments, whatever else was written before or after it.
-/

namespace Nocostcoin

variable {codec : Codec} {db db' : Database} {call : StoreCall} {calls : List StoreCall} {place : Place}

namespace StoreCall

/-- What a call writes under the one key that it writes to. The history of an address takes two keys, and
the count decides which. -/
def record (codec : Codec) : StoreCall → Option (Place × Bytes)
  | .block stored => some (.block stored.hash, codec.serializeBlock stored)
  | .blockByHeight height hash => some (.height height, asBytes hash)
  | .head hash => some (.head, asBytes hash)
  | .account address stored serialize => some (.account address, serialize stored)
  | .seenHeader slot pubkey blockHash => some (.header slot pubkey, asBytes blockHash)
  | .vote stored => some (.vote stored.blockHash stored.validatorPubkey, codec.serializeVote stored)
  | .faucetClaim address timestamp => some (.faucet address, u64ToLeBytes timestamp.toUInt64)
  | .transactionIndex txHash blockHash => some (.txIndex txHash, asBytes blockHash)
  | .transactionToAddress _ _ => none

/-- What a call writes at a place outside the histories. -/
def valueAt (codec : Codec) (place : Place) (call : StoreCall) : Option Bytes :=
  (call.record codec).bind fun written => if written.1 = place then some written.2 else none

/-- What a call stores is read back. -/
def ReadsBack (codec : Codec) : StoreCall → Prop
  | .block stored => codec.deserializeBlock (codec.serializeBlock stored) = .ok stored
  | .account _ stored serialize => codec.deserializeAccount (serialize stored) = .ok stored
  | .vote stored => codec.deserializeVote (codec.serializeVote stored) = .ok stored
  | _ => True

/-- The block that a call stores under a hash. -/
def blockAt (hash : String) : StoreCall → Option Block
  | .block stored => if stored.hash = hash then some stored else none
  | _ => none

/-- The hash that it enters for a height. -/
def hashAt (height : UInt64) : StoreCall → Option String
  | .blockByHeight height' hash => if height' = height then some hash else none
  | _ => none

/-- The head that it records. -/
def headIn : StoreCall → Option String
  | .head hash => some hash
  | _ => none

/-- The account that it stores under an address. -/
def accountAt (address : Bytes) : StoreCall → Option Account
  | .account address' stored _ => if address' = address then some stored else none
  | _ => none

/-- The header hash that it records for a slot and a key. -/
def headerAt (slot : UInt64) (pubkey : Bytes) : StoreCall → Option String
  | .seenHeader slot' pubkey' blockHash => if (slot', pubkey') = (slot, pubkey) then some blockHash else none
  | _ => none

/-- The vote that it stores for a block hash and a key. -/
def voteAt (blockHash : String) (pubkey : Bytes) : StoreCall → Option Vote
  | .vote stored =>
      if (stored.blockHash, stored.validatorPubkey) = (blockHash, pubkey) then some stored else none
  | _ => none

/-- The time of the claim that it records for an address. -/
def claimAt (address : Bytes) : StoreCall → Option Int64
  | .faucetClaim address' timestamp => if address' = address then some timestamp else none
  | _ => none

/-- The block hash that it enters for a transaction. -/
def blockOfTransaction (txHash : String) : StoreCall → Option String
  | .transactionIndex txHash' blockHash => if txHash' = txHash then some blockHash else none
  | _ => none

end StoreCall

/-- What the last of the calls that write it writes. -/
def lastWritten {α : Type} (written : StoreCall → Option α) (calls : List StoreCall) : Option α :=
  calls.reverse.findSome? written

/-- One more call writes it, or the earlier ones have. -/
theorem lastWritten_snoc {α : Type} (written : StoreCall → Option α) (calls : List StoreCall)
    (call : StoreCall) :
    lastWritten written (calls ++ [call]) = (written call).or (lastWritten written calls) := by
  unfold lastWritten
  rw [List.reverse_append, List.reverse_singleton, List.singleton_append, List.findSome?_cons]
  cases written call <;> rfl

/-- What was written last was written. -/
theorem exists_of_lastWritten {α : Type} {written : StoreCall → Option α} {value : α}
    (h : lastWritten written calls = some value) : ∃ call ∈ calls, written call = some value := by
  obtain ⟨call, hmem, hvalue⟩ := List.exists_of_findSome?_eq_some h
  exact ⟨call, List.mem_reverse.mp hmem, hvalue⟩

namespace Place

/-- The place belongs to the history of an address. -/
def InHistory : Place → Prop
  | .historyCount _ | .historyItem _ _ => True
  | _ => False

end Place

namespace Database

/-- A call that takes one key puts its record there. -/
theorem perform_of_record {value : Bytes} (hrecord : call.record codec = some (place, value)) :
    db.perform codec call = some (db.put place value) := by
  cases call with
  | transactionToAddress => contradiction
  | _ =>
    obtain ⟨rfl, rfl⟩ := Prod.mk.inj (Option.some.inj hrecord)
    rfl

/-- That key is not one of a history. -/
theorem not_inHistory_of_record {value : Bytes} (hrecord : call.record codec = some (place, value)) :
    ¬ place.InHistory := by
  cases call with
  | transactionToAddress => contradiction
  | _ =>
    obtain ⟨rfl, -⟩ := Prod.mk.inj (Option.some.inj hrecord)
    exact id

/-- An address gets an item and a count. -/
theorem addTransactionToAddress_eq {address txHash : String}
    (h : db.addTransactionToAddress address txHash = some db') :
    ∃ count, db.historyCount address = some count ∧
      db' = (db.put (.historyItem address (count.getD 0)) (asBytes txHash)).put (.historyCount address)
        (u64ToLeBytes (count.getD 0 + 1)) := by
  obtain ⟨count, hcount, hput⟩ := Option.bind_eq_some_iff.mp h
  exact ⟨count, hcount, (Option.some.inj hput).symm⟩

/-- After a call, a place outside the histories has what the call writes there, or what it had. -/
theorem lookup_perform (hplace : ¬ place.InHistory) (h : db.perform codec call = some db') :
    db'.lookup place.key = (call.valueAt codec place).or (db.lookup place.key) := by
  unfold StoreCall.valueAt
  cases hrecord : call.record codec with
  | some written =>
    obtain ⟨target, value⟩ := written
    rw [perform_of_record hrecord] at h
    rw [← Option.some.inj h, lookup_put, Option.bind_some]
    by_cases hsame : place = target
    · rw [if_pos hsame, if_pos hsame.symm, Option.some_or]
    · rw [if_neg hsame, if_neg (Ne.symm hsame), Option.none_or]
  | none =>
    cases call with
    | transactionToAddress address txHash =>
      obtain ⟨count, -, rfl⟩ := addTransactionToAddress_eq h
      have hcount : place ≠ .historyCount address := by
        rintro rfl
        exact hplace trivial
      have hitem : place ≠ .historyItem address (count.getD 0) := by
        rintro rfl
        exact hplace trivial
      rw [lookup_put, if_neg hcount, lookup_put, if_neg hitem]
      rfl
    | _ => contradiction

/-- After a sequence of calls it has what was written there last, or what it had. -/
theorem lookup_performAll (hplace : ¬ place.InHistory) (h : db.performAll codec calls = some db') :
    db'.lookup place.key =
      (lastWritten (StoreCall.valueAt codec place) calls).or (db.lookup place.key) := by
  induction calls using List.reverseRecOn generalizing db' with
  | nil =>
    rw [← Option.some.inj h]
    rfl
  | append_singleton calls call ih =>
    rw [performAll, List.foldlM_append] at h
    obtain ⟨mid, hbefore, hlast⟩ := Option.bind_eq_some_iff.mp h
    have hcall : mid.perform codec call = some db' := by simpa using hlast
    rw [lookup_perform hplace hcall, ih hbefore, lastWritten_snoc, Option.or_assoc]

/-- The bytes that were written last, read back, are what was written last. -/
theorem map_lastWritten {α : Type} {decode : Bytes → Except String α} {written : StoreCall → Option α}
    (hwritten : ∀ call ∈ calls, (call.valueAt codec place).map decode = (written call).map .ok) :
    (lastWritten (StoreCall.valueAt codec place) calls).map decode = (lastWritten written calls).map .ok := by
  induction calls using List.reverseRecOn with
  | nil => rfl
  | append_singleton calls call ih =>
    have hcall := hwritten call (List.mem_append_right _ (List.mem_singleton_self call))
    have hearlier := ih fun call hcall => hwritten call (List.mem_append_left _ hcall)
    rw [lastWritten_snoc, lastWritten_snoc]
    cases hvalue : call.valueAt codec place with
    | none =>
      rw [hvalue, Option.map_none, eq_comm, Option.map_eq_none_iff] at hcall
      rw [hcall, Option.none_or, Option.none_or, hearlier]
    | some bytes =>
      rw [hvalue, Option.map_some, eq_comm] at hcall
      obtain ⟨value, hsome, hdecode⟩ := Option.map_eq_some_iff.mp hcall
      rw [hsome, Option.some_or, Option.some_or, Option.map_some, Option.map_some, hdecode]

/-- Reading a place outside the histories: the last of what was written there, read back, or what is read
from the database before. -/
theorem get_performAll {α : Type} {decode : Bytes → Except String α} {written : StoreCall → Option α}
    (hplace : ¬ place.InHistory)
    (hwritten : ∀ call ∈ calls, (call.valueAt codec place).map decode = (written call).map .ok)
    (h : db.performAll codec calls = some db') :
    db'.get place decode =
      (lastWritten written calls).elim (db.get place decode) fun value => .ok (some value) := by
  have hlast := map_lastWritten hwritten
  unfold get
  rw [lookup_performAll hplace h]
  cases hbytes : lastWritten (StoreCall.valueAt codec place) calls with
  | none =>
    rw [hbytes, Option.map_none, eq_comm, Option.map_eq_none_iff] at hlast
    rw [hlast, Option.none_or, Option.elim_none]
  | some bytes =>
    rw [hbytes, Option.map_some, eq_comm] at hlast
    obtain ⟨value, hsome, hdecode⟩ := Option.map_eq_some_iff.mp hlast
    rw [hsome, Option.some_or, Option.elim_some]
    change (decode bytes).map some = _
    rw [← hdecode]
    rfl

/-- Every point read after some calls: what the last of them wrote in the family under the arguments, and
what is read from the database before them where none did. -/
structure ReadsLastWritten (codec : Codec) (calls : List StoreCall) (db db' : Database) : Prop where
  block : ∀ hash, db'.getBlock codec hash =
    (lastWritten (StoreCall.blockAt hash) calls).elim (db.getBlock codec hash) fun block => .ok (some block)
  height : ∀ height, db'.getBlockByHeight height =
    (lastWritten (StoreCall.hashAt height) calls).elim (db.getBlockByHeight height) fun hash => .ok (some hash)
  head : db'.getHead = (lastWritten StoreCall.headIn calls).elim db.getHead fun hash => .ok (some hash)
  account : ∀ address, db'.getAccount codec address =
    (lastWritten (StoreCall.accountAt address) calls).elim (db.getAccount codec address) fun account =>
      .ok (some account)
  header : ∀ slot pubkey, db'.getSeenHeader slot pubkey =
    (lastWritten (StoreCall.headerAt slot pubkey) calls).elim (db.getSeenHeader slot pubkey) fun hash =>
      .ok (some hash)
  claim : ∀ address, db'.getLastClaim address =
    (lastWritten (StoreCall.claimAt address) calls).elim (db.getLastClaim address) fun timestamp =>
      .ok (some timestamp)
  transaction : ∀ txHash, db'.getTransactionBlock txHash =
    (lastWritten (StoreCall.blockOfTransaction txHash) calls).elim (db.getTransactionBlock txHash) fun blockHash =>
      .ok (some blockHash)

/-- A time is read back from its bytes. -/
theorem claim_readBack (timestamp : Int64) :
    (UInt64.ofNat (leValue (u64ToLeBytes timestamp.toUInt64))).toInt64 = timestamp := by
  rw [leValue_u64ToLeBytes, UInt64.ofNat_toNat]
  rfl

theorem length_u64ToLeBytes (x : UInt64) : (u64ToLeBytes x).length = 8 := by
  rw [u64ToLeBytes, List.length_map, List.length_range]

/-- What a call writes under its key is read under the arguments that the key is built from. -/
theorem map_valueAt {α : Type} {decode : Bytes → Except String α} {target : Place} {value : Bytes}
    {result : α} {arguments : Prop} [Decidable arguments]
    (hrecord : call.record codec = some (target, value)) (htarget : target = place ↔ arguments)
    (hdecode : decode value = .ok result) :
    (call.valueAt codec place).map decode = (if arguments then some result else none).map .ok := by
  unfold StoreCall.valueAt
  rw [hrecord, Option.bind_some]
  by_cases hsame : arguments
  · rw [if_pos (htarget.mpr hsame), if_pos hsame, Option.map_some, Option.map_some, hdecode]
  · rw [if_neg (mt htarget.mp hsame), if_neg hsame]
    rfl

/-- A stored account is read back. -/
theorem map_valueAt_account (hread : call.ReadsBack codec) (address : Bytes) :
    (call.valueAt codec (.account address)).map (decodeAccount codec) =
      (call.accountAt address).map .ok := by
  cases call with
  | account => exact map_valueAt rfl (by simp) (congrArg (Except.mapError _) hread)
  | _ => rfl

/-- A stored vote is read back. -/
theorem map_valueAt_vote (hread : call.ReadsBack codec) (blockHash : String) (pubkey : Bytes) :
    (call.valueAt codec (.vote blockHash pubkey)).map (decodeVote codec) =
      (call.voteAt blockHash pubkey).map .ok := by
  cases call with
  | vote => exact map_valueAt rfl (by simp) (congrArg (Except.mapError _) hread)
  | _ => rfl

/-- Calls whose records are read back leave the point reads so. -/
theorem readsLastWritten (hreads : ∀ call ∈ calls, call.ReadsBack codec)
    (h : db.performAll codec calls = some db') : ReadsLastWritten codec calls db db' where
  block hash := by
    refine get_performAll id (fun call hcall => ?_) h
    have hread := hreads call hcall
    cases call with
    | block stored => exact map_valueAt rfl (by simp) (congrArg (Except.mapError _) hread)
    | _ => rfl
  height height := by
    refine get_performAll id (fun call _ => ?_) h
    cases call with
    | blockByHeight => exact map_valueAt rfl (by simp) (by rw [fromUtf8_asBytes]; rfl)
    | _ => rfl
  head := by
    refine get_performAll id (fun call _ => ?_) h
    cases call with
    | head hash =>
      have hvalue : ((StoreCall.head hash).valueAt codec .head).map
          (fun bytes => (fromUtf8 bytes).mapError ("Failed to decode head: " ++ ·)) =
            (if True then some hash else none).map .ok :=
        map_valueAt rfl (by simp) (by rw [fromUtf8_asBytes]; rfl)
      exact hvalue
    | _ => rfl
  account address :=
    get_performAll id (fun call hcall => map_valueAt_account (hreads call hcall) address) h
  header slot pubkey := by
    refine get_performAll id (fun call _ => ?_) h
    cases call with
    | seenHeader => exact map_valueAt rfl (by simp) (by rw [fromUtf8Lossy_asBytes])
    | _ => rfl
  claim address := by
    refine get_performAll id (fun call _ => ?_) h
    cases call with
    | faucetClaim address' timestamp =>
      refine map_valueAt rfl (by simp) ?_
      rw [if_pos (length_u64ToLeBytes _), claim_readBack]
    | _ => rfl
  transaction txHash := by
    refine get_performAll id (fun call _ => ?_) h
    cases call with
    | transactionIndex => exact map_valueAt rfl (by simp) (by rw [fromUtf8Lossy_asBytes])
    | _ => rfl

/-- Every count on record has its eight bytes. -/
def Counted (db : Database) : Prop :=
  ∀ address bytes, db.lookup (Place.historyCount address).key = some bytes → bytes.length = 8

theorem counted_empty : Counted ∅ := by
  intro address bytes hlookup
  contradiction

/-- Writing a count of eight bytes, or anything elsewhere, keeps it so. -/
theorem Counted.put {value : Bytes} (hcounted : db.Counted)
    (hvalue : ∀ address, place = .historyCount address → value.length = 8) : (db.put place value).Counted := by
  intro address bytes hlookup
  rw [lookup_put] at hlookup
  split at hlookup
  · rename_i hsame
    rw [← Option.some.inj hlookup]
    exact hvalue address hsame.symm
  · exact hcounted address bytes hlookup

/-- No call panics then, and it keeps it so. -/
theorem Counted.perform (codec : Codec) (hcounted : db.Counted) (call : StoreCall) :
    ∃ db', db.perform codec call = some db' ∧ db'.Counted := by
  cases call with
  | transactionToAddress address txHash =>
    have hcount : ∃ count, db.historyCount address = some count := by
      unfold historyCount
      split
      · rename_i bytes hbytes
        rw [if_pos (hcounted address bytes hbytes)]
        exact ⟨_, rfl⟩
      · exact ⟨_, rfl⟩
    obtain ⟨count, hcount⟩ := hcount
    refine ⟨_, Option.bind_eq_some_iff.mpr ⟨count, hcount, rfl⟩, ?_⟩
    have hitem : (db.put (.historyItem address (count.getD 0)) (asBytes txHash)).Counted :=
      hcounted.put fun _ hsame => by contradiction
    exact hitem.put fun _ _ => length_u64ToLeBytes _
  | _ => exact ⟨_, rfl, hcounted.put fun _ hsame => by contradiction⟩

/-- So do sequences of calls. -/
theorem Counted.performAll (codec : Codec) (hcounted : db.Counted) (calls : List StoreCall) :
    ∃ db', db.performAll codec calls = some db' ∧ db'.Counted := by
  induction calls generalizing db with
  | nil => exact ⟨db, rfl, hcounted⟩
  | cons call rest ih =>
    obtain ⟨mid, hcall, hmid⟩ := hcounted.perform codec call
    obtain ⟨db', hrest, hafter⟩ := ih hmid
    refine ⟨db', ?_, hafter⟩
    rw [Database.performAll, List.foldlM_cons, hcall]
    exact hrest

/-- The keys of different records differ. No sequence of calls panics on a database whose counts have eight
bytes, such as the empty one, and after it every point read finds what was written last in its family under
its arguments, where `bincode` reads back what it wrote. -/
theorem pointReads_independent (hcounted : db.Counted) (hreads : ∀ call ∈ calls, call.ReadsBack codec) :
    Function.Injective Place.key ∧
      ∃ db', db.performAll codec calls = some db' ∧ ReadsLastWritten codec calls db db' := by
  obtain ⟨db', hperform, -⟩ := hcounted.performAll codec calls
  exact ⟨Place.key_injective, db', hperform, readsLastWritten hreads hperform⟩

end Database

namespace Sample

/-- A block without transactions. -/
def storedBlock : Block where
  header := {
    parentHash := "", slot := 1, epoch := 0, vrfOutput := [], vrfProof := [], validatorPubkey := [1]
    producerSignature := [], stateRoot := "", txRoot := "", extraWitnesses := [], timestamp := 0 }
  transactions := []
  hash := "ab"

/-- A vote for it, and one for a hash that continues its hash. -/
def storedVote (blockHash : String) : Vote := { blockHash, slot := 1, validatorPubkey := [7], signature := [] }

/-- `bincode::serialize` of a block without transactions. -/
def serializeBlock (block : Block) : Bytes :=
  block.header.serialize ++ u64ToLeBytes 0 ++ bincodeString block.hash

/-- `bincode::serialize` of a vote. -/
def serializeVote (vote : Vote) : Bytes :=
  bincodeString vote.blockHash ++ u64ToLeBytes vote.slot ++ bincodeBytes vote.validatorPubkey ++
    bincodeBytes vote.signature

/-- `bincode` on these records. -/
def recordCodec : Codec where
  serializeBlock := serializeBlock
  serializeVote := serializeVote
  deserializeBlock bytes :=
    if bytes = serializeBlock storedBlock then .ok storedBlock else .error "unexpected bytes"
  deserializeAccount bytes :=
    if bytes = (Account.new 5).serialize keysInOrder then .ok (Account.new 5) else .error "unexpected bytes"
  deserializeVote bytes :=
    if bytes = serializeVote (storedVote "ab") then .ok (storedVote "ab")
    else if bytes = serializeVote (storedVote "abc") then .ok (storedVote "abc")
    else .error "unexpected bytes"

/-- They are read back. -/
theorem readsBack_recordCodec :
    recordCodec.deserializeBlock (recordCodec.serializeBlock storedBlock) = .ok storedBlock ∧
      recordCodec.deserializeAccount ((Account.new 5).serialize keysInOrder) = .ok (Account.new 5) ∧
      ∀ hash, hash = "ab" ∨ hash = "abc" →
        recordCodec.deserializeVote (recordCodec.serializeVote (storedVote hash)) = .ok (storedVote hash) := by
  have hdifferent : serializeVote (storedVote "abc") ≠ serializeVote (storedVote "ab") := by decide +kernel
  unfold recordCodec
  dsimp only
  refine ⟨if_pos rfl, if_pos rfl, ?_⟩
  rintro hash (rfl | rfl)
  · rw [if_pos rfl]
  · rw [if_neg hdifferent, if_pos rfl]

/-- A call for each family, some with arguments that contain a colon or continue one another. -/
def storeCalls : List StoreCall :=
  [.block storedBlock, .blockByHeight 1 "ab", .blockByHeight 11 "abc", .head "ab",
    .account [] (Account.new 5) (Account.serialize keysInOrder),
    .account [58] (Account.new 5) (Account.serialize keysInOrder), .seenHeader 1 [1] "ab",
    .vote (storedVote "ab"), .vote (storedVote "abc"), .faucetClaim [1] 1000, .transactionIndex "t:1" "ab",
    .transactionToAddress "01" "t:1", .transactionToAddress "01" "t"]

/-- What they store is read back. -/
theorem readsBack_storeCalls : ∀ call ∈ storeCalls, call.ReadsBack recordCodec := by
  obtain ⟨hblock, haccount, hvote⟩ := readsBack_recordCodec
  simp [storeCalls, StoreCall.ReadsBack, hblock, haccount, hvote]

end Sample

namespace Database

theorem pointReads_independent_sample :
    Function.Injective Place.key ∧ ∃ db', (∅ : Database).performAll Sample.recordCodec Sample.storeCalls = some db' ∧
      ReadsLastWritten Sample.recordCodec Sample.storeCalls ∅ db' := by
  exact pointReads_independent counted_empty Sample.readsBack_storeCalls

end Database

end Nocostcoin
