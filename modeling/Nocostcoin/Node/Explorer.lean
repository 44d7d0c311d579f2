import Nocostcoin.Chain.Indexing
import Nocostcoin.Chain.Range
import Nocostcoin.Node.Loop

/-!
# What the explorer shows

`GetTransaction` looks into the mempool and then follows the transaction index to a stored block, and
`GetAddressHistory` does the same for the last entries of an address. Both only read, so what they answer is a
matter of the blocks that were accepted and of the transactions that wait.
-/

namespace Nocostcoin

open Execution NumberedLog

/-- `TransactionResponse`; the block hash of a pending transaction is empty. -/
structure TransactionResponse where
  hash : String
  transaction : Transaction
  blockHash : String
  status : String
  deriving DecidableEq

namespace Chain

/-- The second step of `GetTransaction`: the block that the index names, and the transaction in it. -/
def confirmed (crypto : Crypto) (chain : Chain) (hash : String) : Option TransactionResponse := do
  let blockHash ← chain.storage.getTransactionBlock hash
  let block ← chain.getBlock blockHash
  let transaction ← block.transactions.find? fun tx => hexEncode (tx.hash crypto) = hash
  some { hash, transaction, blockHash, status := "confirmed" }

end Chain

namespace Node

/-- A transaction of the mempool, as it is returned. -/
def pending (crypto : Crypto) (tx : Transaction) : TransactionResponse :=
  { hash := hexEncode (tx.hash crypto), transaction := tx, blockHash := "", status := "pending" }

/-- `GetAddressHistory`: what the address sent and is pending, then what is confirmed of its last entries. -/
def getAddressHistory (crypto : Crypto) (host : Host) (node : Node) (address : String) (limit : UInt64) :
    List TransactionResponse :=
  ((node.mempool.getAll host).filter fun tx => hexEncode tx.sender = address).map (pending crypto) ++
    (node.chain.storage.getAddressHistory address limit).filterMap (node.chain.confirmed crypto)

end Node

namespace Storage

variable {storage : Storage} {address : String} {hashes : List String}

/-- The loop of `get_address_history` reads the records backwards from an index. -/
theorem historyDown_eq {count : UInt64} (hholds : Holds count (storage.itemOf address) hashes) (remaining : ℕ)
    {index : UInt64} (hindex : index.toNat < hashes.length) (hremaining : remaining ≤ index.toNat + 1) :
    storage.historyDown address remaining index =
      (hashes.take (index.toNat + 1)).reverse.take remaining := by
  induction remaining generalizing index with
  | zero => rfl
  | succ remaining ih =>
    have hitem := hholds.item_of_lt hindex
    unfold itemOf at hitem
    rw [historyDown, hitem, reverse_take_succ hindex]
    cases remaining with
    | zero => rfl
    | succ remaining =>
      have hbelow : (index - 1).toNat = index.toNat - 1 := by
        have hone : (1 : UInt64) ≤ index := by
          rw [UInt64.le_iff_toNat_le, UInt64.toNat_one]
          omega
        rw [UInt64.toNat_sub_of_le _ _ hone, UInt64.toNat_one]
      dsimp only
      rw [ih (by omega) (by omega), hbelow, Nat.sub_add_cancel (by omega)]

/-- Records that fit are read as they are: the last ones, as many as the limit allows, the last one first. -/
theorem Records.getAddressHistory (h : storage.Records address hashes) (hfit : hashes.length < 2 ^ 64)
    (limit : UInt64) : storage.getAddressHistory address limit = hashes.reverse.take limit.toNat := by
  have hholds := h.held hfit
  have hlength := hholds.count
  unfold Storage.getAddressHistory
  unfold countOf at hlength hholds
  cases hcount : storage.historyCount.lookup address with
  | none =>
    rw [hcount] at hlength
    rw [List.length_eq_zero_iff.mp hlength.symm]
    simp
  | some count =>
    rw [hcount, Option.getD_some] at hlength hholds
    dsimp only
    by_cases hpositive : 0 < count
    · rw [if_pos hpositive]
      have hnat : 0 < count.toNat := UInt64.lt_iff_toNat_lt.mp hpositive
      have hone : (1 : UInt64) ≤ count := by
        rw [UInt64.le_iff_toNat_le, UInt64.toNat_one]
        exact hnat
      have hstart : (count - 1).toNat = count.toNat - 1 := by
        rw [UInt64.toNat_sub_of_le _ _ hone, UInt64.toNat_one]
      have hend : (if limit < count then count - limit else 0).toNat = count.toNat - limit.toNat := by
        split
        · rename_i hless
          rw [UInt64.toNat_sub_of_le _ _ (UInt64.le_of_lt hless)]
        · rename_i hless
          rw [UInt64.lt_iff_toNat_lt] at hless
          rw [UInt64.toNat_zero]
          omega
      have hall : hashes.take count.toNat = hashes := List.take_of_length_le (by omega)
      have htake : hashes.reverse.take (count.toNat - (count.toNat - limit.toNat)) =
          hashes.reverse.take limit.toNat := by
        rcases Nat.le_total limit.toNat count.toNat with hle | hle
        · rw [Nat.sub_sub_self hle]
        · rw [Nat.sub_eq_zero_of_le hle, Nat.sub_zero, List.take_of_length_le (by simp [hlength]),
            List.take_of_length_le (by rw [List.length_reverse, ← hlength]; exact hle)]
      rw [historyDown_eq hholds _ (by omega) (by omega), hend, hstart, Nat.sub_add_cancel hnat, hall, htake]
    · have hzero : count.toNat = 0 := by
        rw [UInt64.lt_iff_toNat_lt, UInt64.toNat_zero] at hpositive
        omega
      rw [if_neg hpositive, List.length_eq_zero_iff.mp (hlength.symm.trans hzero)]
      simp

end Storage

namespace Chain

variable {crypto : Crypto} {host : Host} {chain chain' opened : Chain} {block genesisBlock : Block}
  {output : Bool} {calls : List (Call Chain Request Bool)} {accepted : List Block} {storage : Storage}

/-- A block has a transaction of the hash. -/
def carries (crypto : Crypto) (hash : String) (block : Block) : Bool :=
  block.transactions.any fun tx => indexedHash crypto tx = hash

/-- The last of some blocks that passes a test. -/
def lastWhere (blocks : List Block) (test : Block → Bool) : Option Block := blocks.reverse.find? test

theorem lastWhere_snoc (blocks : List Block) (block : Block) (test : Block → Bool) :
    lastWhere (blocks ++ [block]) test = if test block then some block else lastWhere blocks test := by
  rw [lastWhere, List.reverse_append, List.reverse_singleton, List.singleton_append, List.find?_cons]
  cases test block <;> rfl

/-- A head is stored, the index names, for each hash, the last accepted block that carries it, and the last
accepted block of each block hash is the one that is stored. -/
structure Finds (crypto : Crypto) (accepted : List Block) (storage : Storage) : Prop where
  head : storage.head.isSome
  index : ∀ hash, storage.txIndex.lookup hash = (lastWhere accepted (carries crypto hash)).map Block.hash
  named : ∀ hash block, lastWhere accepted (fun other => other.hash = hash) = some block →
    storage.blocks.lookup hash = some block

/-- What leaves head, index and blocks alone keeps them. -/
theorem Finds.congr {storage' : Storage} (h : Finds crypto accepted storage) (hhead : storage'.head = storage.head)
    (hindex : storage'.txIndex = storage.txIndex) (hblocks : storage'.blocks = storage.blocks) :
    Finds crypto accepted storage' where
  head := by rw [hhead]; exact h.head
  index := by rw [hindex]; exact h.index
  named := by rw [hblocks]; exact h.named

/-- Indexing a transaction enters its hash. -/
theorem txIndex_indexTransaction (hreliable : host.Reliable) (block : Block) (chain : Chain) (tx : Transaction) :
    (indexTransaction crypto host block chain tx).storage.txIndex =
      chain.storage.txIndex.insert (indexedHash crypto tx) block.hash := by
  obtain ⟨pending, hmanage, -, -⟩ := manageValidators_frame chain block tx
  have hstorage : (chain.manageValidators block tx).storage = chain.storage := by
    rw [hmanage]
    rfl
  unfold indexTransaction logged Storage.storeTransactionIndex
  dsimp only
  rw [hstorage, hreliable.write]
  rw [Storage.addTransactionToAddress_reliable hreliable, Storage.addTransactionToAddress_reliable hreliable]
  rfl

/-- Indexing the transactions of a block enters all their hashes. -/
theorem lookup_foldl_indexTransaction (hreliable : host.Reliable) (block : Block) (txs : List Transaction)
    (chain : Chain) (hash : String) :
    (txs.foldl (indexTransaction crypto host block) chain).storage.txIndex.lookup hash =
      if txs.any fun tx => indexedHash crypto tx = hash then some block.hash
      else chain.storage.txIndex.lookup hash := by
  induction txs generalizing chain with
  | nil => rfl
  | cons tx rest ih =>
    rw [List.foldl_cons, ih, txIndex_indexTransaction hreliable, FiniteMap.lookup_insert_ite, List.any_cons]
    by_cases hrest : (rest.any fun tx => indexedHash crypto tx = hash) = true
    · simp [hrest]
    · by_cases hfirst : indexedHash crypto tx = hash
      · simp [hfirst]
      · simp [hrest, hfirst, Ne.symm hfirst]

/-- An accepted block is found from then on. -/
theorem Finds.deliver (hreliable : host.Reliable) (h : Finds crypto accepted chain.storage)
    (hdelivery : Delivery crypto host chain block output chain') :
    Finds crypto (accepted ++ if output then [block] else []) chain'.storage := by
  obtain ⟨seenHeaders, headers, hrecord⟩ := recordHeader_frame host chain block
  cases hdelivery with
  | orphan | equivocation => exact (List.append_nil accepted).symm ▸ h.congr rfl rfl rfl
  | invalid =>
    rw [hrecord]
    exact (List.append_nil accepted).symm ▸ h.congr rfl rfl rfl
  | failed _ _ _ hexec | mismatch _ _ _ hexec _ =>
    obtain ⟨headers', hstorage⟩ := storage_of_execution_frame hexec
    refine (List.append_nil accepted).symm ▸ h.congr ?_ ?_ ?_ <;>
      · unfold Chain.storage withState State.discardChanges
        dsimp only
        rw [hstorage]
  | @commit parent executed _ _ hparent hconsistent hvalid hexec hroot hcommit =>
    obtain ⟨rfl, currentHead, trie, -, rfl⟩ := commitBlock_reliable hreliable hcommit
    obtain ⟨headers', hstorage⟩ := storage_of_execution_frame hexec
    generalize hcommitted : ((chain.recordHeader host block).withState executed).committed block currentHead trie =
      stored
    have hindex : stored.storage.txIndex = chain.storage.txIndex := by
      rw [← hcommitted]
      unfold committed Chain.storage withState
      dsimp only
      rw [hstorage]
    have hblocks : stored.storage.blocks = chain.storage.blocks.insert block.hash block := by
      rw [← hcommitted]
      unfold committed Chain.storage withState
      dsimp only
      rw [hstorage]
    have hhead : stored.storage.head.isSome := by
      rw [← hcommitted]
      unfold committed Chain.storage withState
      dsimp only
      split
      · rfl
      · rw [hstorage]
        exact h.head
    obtain ⟨pending, storage', hfold, ⟨txIndex, historyCount, history, hindices⟩, -, -⟩ :=
      foldl_indexTransaction_frame crypto host block block.transactions stored
    rw [if_pos rfl]
    constructor
    · rw [hfold]
      change storage'.head.isSome
      rw [hindices]
      exact hhead
    · intro hash
      rw [lookup_foldl_indexTransaction hreliable, lastWhere_snoc, hindex, h.index]
      unfold carries
      split <;> rfl
    · intro hash named hlast
      rw [hfold]
      change storage'.blocks.lookup hash = some named
      rw [hindices]
      change stored.storage.blocks.lookup hash = some named
      rw [hblocks, FiniteMap.lookup_insert_ite]
      rw [lastWhere_snoc] at hlast
      by_cases hsame : block.hash = hash
      · rw [if_pos hsame.symm]
        rwa [if_pos (decide_eq_true hsame)] at hlast
      · rw [if_neg (Ne.symm hsame)]
        rw [if_neg (by simpa using hsame)] at hlast
        exact h.named hash named hlast

/-- Every call keeps what is found. -/
theorem Finds.serve {request : Request} (hreliable : request.host.Reliable)
    (h : Finds crypto accepted chain.storage)
    (hserve : serve crypto chain request = some (output, chain')) :
    Finds crypto (accepted ++ (acceptedBlock ⟨chain, request, output, chain'⟩).toList) chain'.storage := by
  cases request with
  | deliver host block =>
    have hdelivered := h.deliver hreliable (delivery_of_addBlock hserve)
    unfold acceptedBlock
    cases output <;> exact hdelivered
  | vote host vote =>
    obtain ⟨votes, stored, finalizedHead, rfl⟩ := serve_vote_frame hserve
    unfold acceptedBlock
    cases output <;> exact (List.append_nil accepted).symm ▸ h.congr rfl rfl rfl
  | reopen host genesisBlock balances stakes =>
    obtain ⟨accounts, pendingChanges, trie, rfl⟩ := start_frame (start_of_serve hserve)
    have hopened : chain.storage.opened genesisBlock = chain.storage := by
      obtain ⟨head, hhead⟩ := Option.isSome_iff_exists.mp h.head
      rw [Storage.opened, hhead]
    unfold acceptedBlock
    rw [hopened]
    cases output <;> exact (List.append_nil accepted).symm ▸ h.congr rfl rfl rfl

end Chain

namespace Node

open Chain

variable {crypto : Crypto} {host walker : Host} {storage : Storage} {genesisBlock : Block}
  {balances stakes : List (Bytes × UInt64)} {opened : Chain} {calls : List (Call Chain Request Bool)} {node : Node}

end Node

end Nocostcoin
