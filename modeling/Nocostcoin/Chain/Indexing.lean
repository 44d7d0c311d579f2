import Nocostcoin.Chain.Replay
import Nocostcoin.Library.NumberedLog

/-!
# What the histories of addresses list

Every committed transaction is entered in the history of its sender and then in that of its receiver. So a
history lists each transaction of an address once, in commit order, except that a transaction from an
address to itself is listed twice.
-/

namespace Nocostcoin

open Execution NumberedLog

variable {crypto : Crypto}

namespace Storage

variable {storage : Storage} {host : Host} {address other txHash : String} {hashes : List String}

/-- The number of items on record for an address. -/
def countOf (storage : Storage) (address : String) : UInt64 := (storage.historyCount.lookup address).getD 0

/-- The item of an address under an index. -/
def itemOf (storage : Storage) (address : String) (index : UInt64) : Option String :=
  storage.history.lookup (address, index)

/-- The hashes recorded for an address, the oldest one first. -/
def historyOf (storage : Storage) (address : String) : List String :=
  listing (storage.countOf address) (storage.itemOf address)

/-- The records of an address after some hashes were added: the count has run around its range as often as
they fill it, every item below it is there, and the items are the hashes as long as they fit. -/
structure Records (storage : Storage) (address : String) (hashes : List String) : Prop where
  count : (storage.countOf address).toNat = hashes.length % 2 ^ 64
  present : ∀ i < (storage.countOf address).toNat, (storage.itemOf address (UInt64.ofNat i)).isSome
  held : hashes.length < 2 ^ 64 → Holds (storage.countOf address) (storage.itemOf address) hashes

/-- The records are the hashes as long as they fit. -/
theorem Records.historyOf_eq (h : storage.Records address hashes) (hfit : hashes.length < 2 ^ 64) :
    storage.historyOf address = hashes := (h.held hfit).listing_eq

/-- There are as many as the count says. -/
theorem Records.length_historyOf (h : storage.Records address hashes) :
    (storage.historyOf address).length = hashes.length % 2 ^ 64 := by
  rw [← h.count]
  exact length_listing h.present

/-- A database without counts has no records. -/
theorem records_empty (hcount : storage.historyCount = ∅) : storage.Records address [] := by
  have hzero : storage.countOf address = 0 := by
    unfold countOf
    rw [hcount]
    rfl
  refine ⟨by rw [hzero]; rfl, fun i hi => ?_, fun _ => by rw [hzero]; exact holds_nil _⟩
  rw [hzero] at hi
  exact absurd hi (Nat.not_lt_zero i)

/-- Only the two tables of the histories matter. -/
theorem Records.congr {storage' : Storage} (h : storage.Records address hashes)
    (hcount : storage'.historyCount = storage.historyCount) (hhistory : storage'.history = storage.history) :
    storage'.Records address hashes := by
  have hcounts : storage'.countOf address = storage.countOf address := by
    unfold countOf
    rw [hcount]
  have hitems : storage'.itemOf address = storage.itemOf address := by
    funext index
    unfold itemOf
    rw [hhistory]
  exact ⟨hcounts ▸ h.count, hcounts ▸ hitems ▸ h.present, hcounts ▸ hitems ▸ h.held⟩

/-- Adding a hash for an address, on a reliable database. -/
theorem addTransactionToAddress_reliable (hreliable : host.Reliable) (storage : Storage)
    (address txHash : String) :
    (storage.addTransactionToAddress host.disk address txHash).2 =
      (storage.put (.historyItem address (storage.countOf address) txHash)).put
        (.historyCount address (storage.countOf address + 1)) := by
  unfold addTransactionToAddress
  dsimp only
  rw [hreliable.write]
  dsimp only
  rw [hreliable.write]
  rfl

/-- It counts the hash for that address. -/
theorem countOf_addTransactionToAddress (hreliable : host.Reliable) (storage : Storage)
    (other txHash address : String) :
    (storage.addTransactionToAddress host.disk other txHash).2.countOf address =
      if address = other then storage.countOf other + 1 else storage.countOf address := by
  rw [addTransactionToAddress_reliable hreliable]
  unfold countOf put
  dsimp only
  rw [FiniteMap.lookup_insert_ite]
  split <;> rfl

/-- It enters the hash behind those of that address. -/
theorem itemOf_addTransactionToAddress (hreliable : host.Reliable) (storage : Storage)
    (other txHash address : String) (index : UInt64) :
    (storage.addTransactionToAddress host.disk other txHash).2.itemOf address index =
      if address = other ∧ index = storage.countOf other then some txHash else storage.itemOf address index := by
  rw [addTransactionToAddress_reliable hreliable]
  unfold itemOf put
  dsimp only
  rw [FiniteMap.lookup_insert_ite]
  simp only [Prod.mk.injEq]

/-- The records of the address then end in the hash. -/
theorem Records.add_own (hreliable : host.Reliable) (h : storage.Records address hashes) (txHash : String) :
    (storage.addTransactionToAddress host.disk address txHash).2.Records address (hashes ++ [txHash]) := by
  have hcount := storage.countOf_addTransactionToAddress hreliable address txHash address
  have hitem := storage.itemOf_addTransactionToAddress hreliable address txHash address
  rw [if_pos rfl] at hcount
  simp only [true_and] at hitem
  have hlength := h.count
  refine ⟨?_, fun i hi => ?_, fun hfit => ?_⟩
  · rw [hcount, UInt64.toNat_add, UInt64.toNat_one, hlength, List.length_append, List.length_singleton]
    omega
  · rw [hitem]
    split
    · rfl
    · rename_i hne
      apply h.present
      -- the index is below the next count and not the last one
      rw [hcount, UInt64.toNat_add, UInt64.toNat_one] at hi
      have hbound := (storage.countOf address).toNat_lt
      have hsmall : i ≠ (storage.countOf address).toNat := by
        rintro rfl
        exact hne (UInt64.ofNat_toNat)
      omega
  · rw [List.length_append, List.length_singleton] at hfit
    rw [hcount]
    refine (h.held (by omega)).append ?_ (fun index hne => ?_) hfit
    · rw [hitem, if_pos rfl]
    · rw [hitem, if_neg hne]

/-- The records of other addresses stay. -/
theorem Records.add_other (hreliable : host.Reliable) (h : storage.Records address hashes)
    (hother : other ≠ address) (txHash : String) :
    (storage.addTransactionToAddress host.disk other txHash).2.Records address hashes := by
  have hcount := storage.countOf_addTransactionToAddress hreliable other txHash address
  rw [if_neg hother.symm] at hcount
  have hitem : (storage.addTransactionToAddress host.disk other txHash).2.itemOf address =
      storage.itemOf address := by
    funext index
    rw [itemOf_addTransactionToAddress hreliable, if_neg fun hboth => hother hboth.1.symm]
  exact ⟨hcount ▸ h.count, hcount ▸ hitem ▸ h.present, hcount ▸ hitem ▸ h.held⟩

/-- Adding a hash for an address appends it to its records and leaves those of others alone. -/
theorem Records.add (hreliable : host.Reliable) (h : storage.Records address hashes) (other txHash : String) :
    (storage.addTransactionToAddress host.disk other txHash).2.Records address
      (hashes ++ if other = address then [txHash] else []) := by
  by_cases hother : other = address
  · subst hother
    rw [if_pos rfl]
    exact h.add_own hreliable txHash
  · rw [if_neg hother, List.append_nil]
    exact h.add_other hreliable hother txHash

end Storage

namespace Chain

variable {host : Host} {chain chain' opened : Chain} {block genesisBlock : Block} {address : Bytes}
  {output : Bool} {calls : List (Call Chain Request Bool)}

/-- The hash of a transaction as it is indexed. -/
def indexedHash (crypto : Crypto) (tx : Transaction) : String := hexEncode (tx.hash crypto)

/-- The entries that a transaction makes in the history of an address: one for each role. -/
def entriesFor (crypto : Crypto) (address : Bytes) (tx : Transaction) : List String :=
  (if tx.sender = address then [indexedHash crypto tx] else []) ++
    if tx.receiver = address then [indexedHash crypto tx] else []

/-- The transactions whose sender or receiver is an address. -/
def partyTransactions (address : Bytes) (txs : List Transaction) : List Transaction :=
  txs.filter fun tx => tx.sender = address ∨ tx.receiver = address

/-- The records of an address are the entries that some transactions make. -/
def Lists (crypto : Crypto) (address : Bytes) (txs : List Transaction) (storage : Storage) : Prop :=
  storage.Records (hexEncode address) (txs.flatMap (entriesFor crypto address))

/-- Indexing a transaction makes its entries. -/
theorem Lists.index {txs : List Transaction} (hreliable : host.Reliable)
    (h : Lists crypto address txs chain.storage) (block : Block) (tx : Transaction) :
    Lists crypto address (txs ++ [tx]) (indexTransaction crypto host block chain tx).storage := by
  obtain ⟨pending, hmanage, -, -⟩ := manageValidators_frame chain block tx
  have hstorage : (chain.manageValidators block tx).storage = chain.storage := by
    rw [hmanage]
    rfl
  have hstored : (chain.storage.storeTransactionIndex host.disk (indexedHash crypto tx) block.hash).2.Records
      (hexEncode address) (txs.flatMap (entriesFor crypto address)) := by
    unfold Storage.storeTransactionIndex
    rw [hreliable.write]
    exact h.congr rfl rfl
  have hboth := (hstored.add hreliable (hexEncode tx.sender) (indexedHash crypto tx)).add hreliable
    (hexEncode tx.receiver) (indexedHash crypto tx)
  simp only [hexEncode_injective.eq_iff, List.append_assoc] at hboth
  unfold Lists
  rw [List.flatMap_append, List.flatMap_singleton]
  unfold indexTransaction logged
  dsimp only
  rw [hstorage]
  exact hboth

/-- Indexing the transactions of a block makes theirs. -/
theorem Lists.indexAll (hreliable : host.Reliable) (block : Block) (added : List Transaction)
    {txs : List Transaction} (h : Lists crypto address txs chain.storage) :
    Lists crypto address (txs ++ added) (added.foldl (indexTransaction crypto host block) chain).storage := by
  induction added generalizing chain txs with
  | nil =>
    rw [List.append_nil]
    exact h
  | cons tx rest ih =>
    rw [List.foldl_cons, List.append_cons]
    exact ih (h.index hreliable block tx)

/-- A delivery makes the entries of the transactions it commits. -/
theorem Lists.deliver {txs : List Transaction} (hreliable : host.Reliable)
    (h : Lists crypto address txs chain.storage) (hdelivery : Delivery crypto host chain block output chain') :
    Lists crypto address (txs ++ committedTransactions block output) chain'.storage := by
  have hsame : ∀ storage : Storage, storage.historyCount = chain.storage.historyCount →
      storage.history = chain.storage.history →
        Lists crypto address (txs ++ committedTransactions block false) storage := by
    intro storage hcount hhistory
    rw [committedTransactions, if_neg Bool.false_ne_true, List.append_nil]
    exact h.congr hcount hhistory
  obtain ⟨seenHeaders, headers, hrecord⟩ := recordHeader_frame host chain block
  cases hdelivery with
  | orphan | equivocation => exact hsame _ rfl rfl
  | invalid =>
    rw [hrecord]
    exact hsame _ rfl rfl
  | failed _ _ _ hexec | mismatch _ _ _ hexec _ =>
    obtain ⟨headers', hstorage⟩ := storage_of_execution_frame hexec
    refine hsame _ ?_ ?_ <;>
      · unfold storage withState State.discardChanges
        dsimp only
        rw [hstorage]
  | @commit parent executed _ _ hparent hconsistent hvalid hexec hroot hcommit =>
    obtain ⟨rfl, currentHead, trie, -, rfl⟩ := commitBlock_reliable hreliable hcommit
    obtain ⟨headers', hstorage⟩ := storage_of_execution_frame hexec
    rw [committedTransactions, if_pos rfl]
    refine Lists.indexAll hreliable block block.transactions (h.congr ?_ ?_) <;>
      · unfold committed storage withState
        dsimp only
        rw [hstorage]

/-- A call makes the entries of the transactions it commits. -/
theorem Lists.serve {txs : List Transaction} {request : Request} (hreliable : request.host.Reliable)
    (h : Lists crypto address txs chain.storage)
    (hserve : serve crypto chain request = some (output, chain')) :
    Lists crypto address (txs ++ committedBy ⟨chain, request, output, chain'⟩) chain'.storage := by
  cases request with
  | deliver host block => exact h.deliver hreliable (delivery_of_addBlock hserve)
  | vote host vote =>
    obtain ⟨votes, stored, finalizedHead, rfl⟩ := serve_vote_frame hserve
    rw [committedBy, List.append_nil]
    exact h.congr rfl rfl
  | reopen host genesisBlock balances stakes =>
    obtain ⟨accounts, pendingChanges, trie, rfl⟩ := start_frame (start_of_serve hserve)
    rw [committedBy, List.append_nil]
    refine h.congr ?_ ?_ <;>
      · unfold storage Storage.opened
        dsimp only
        split <;> rfl

/-- So does a run. -/
theorem lists_of_run (hreliable : ∀ call ∈ calls, call.label.host.Reliable)
    (hopened : opened.storage.historyCount = ∅) (hrun : Run (Chain.serve crypto) opened calls chain)
    (address : Bytes) : Lists crypto address (committedIn calls) chain.storage := by
  induction hrun with
  | nil => exact Storage.records_empty hopened
  | @snoc calls chain chain' request output hbefore hnext ih =>
    have hold := ih fun call hcall => hreliable call (List.mem_append_left _ hcall)
    have hlast := hreliable _ (List.mem_append_right calls (List.mem_singleton_self _))
    rw [committedIn, List.flatMap_append, List.flatMap_singleton]
    exact hold.serve hlast hnext

/-- A transaction from an address to itself makes one entry more than it should. -/
theorem length_entries (crypto : Crypto) (address : Bytes) (txs : List Transaction) :
    (txs.flatMap (entriesFor crypto address)).length = (partyTransactions address txs).length +
      (txs.filter fun tx => tx.sender = address ∧ tx.receiver = address).length := by
  induction txs with
  | nil => rfl
  | cons tx rest ih =>
    unfold partyTransactions entriesFor at ih ⊢
    by_cases hsender : tx.sender = address <;> by_cases hreceiver : tx.receiver = address <;>
      simp [hsender, hreceiver, ih] <;> omega

/-- Without such a transaction the entries are the transactions of the address. -/
theorem entries_eq (crypto : Crypto) {txs : List Transaction}
    (hself : ∀ tx ∈ txs, ¬ (tx.sender = address ∧ tx.receiver = address)) :
    txs.flatMap (entriesFor crypto address) = (partyTransactions address txs).map (indexedHash crypto) := by
  induction txs with
  | nil => rfl
  | cons tx rest ih =>
    have hrest := ih fun other hother => hself other (List.mem_cons_of_mem _ hother)
    have hfirst := hself tx List.mem_cons_self
    unfold partyTransactions entriesFor at hrest ⊢
    by_cases hsender : tx.sender = address <;> by_cases hreceiver : tx.receiver = address <;>
      simp_all

/-- In every run of deliveries, votes and restarts on reliable databases, from a database without histories:
the history of an address lists exactly the committed transactions whose sender or receiver it is, in commit
order, if and only if none of them is from the address to itself and their number fits into the count. -/
theorem history_iff_separate {storage : Storage} {balances stakes : List (Bytes × UInt64)}
    (hcount : storage.historyCount = ∅)
    (hopened : Chain.start crypto host storage genesisBlock balances stakes = some opened)
    (hrun : Run (Chain.serve crypto) opened calls chain)
    (hreliable : ∀ call ∈ calls, call.label.host.Reliable) (address : Bytes) :
    chain.storage.historyOf (hexEncode address) =
        (partyTransactions address (committedIn calls)).map (indexedHash crypto) ↔
      (∀ tx ∈ committedIn calls, ¬ (tx.sender = address ∧ tx.receiver = address)) ∧
        (partyTransactions address (committedIn calls)).length < 2 ^ 64 := by
  have hfresh : opened.storage.historyCount = ∅ := by
    obtain ⟨accounts, pendingChanges, trie, rfl⟩ := start_frame hopened
    rw [← hcount]
    change (storage.opened genesisBlock).historyCount = _
    unfold Storage.opened
    split <;> rfl
  have hlists := lists_of_run hreliable hfresh hrun address
  have hlength := hlists.length_historyOf
  rw [length_entries] at hlength
  constructor
  · intro heq
    rw [heq, List.length_map] at hlength
    have hself : ((committedIn calls).filter fun tx =>
        tx.sender = address ∧ tx.receiver = address).length ≤
          (partyTransactions address (committedIn calls)).length := by
      refine List.Sublist.length_le (List.monotone_filter_right _ fun tx htx => ?_)
      simp only [decide_eq_true_eq] at htx ⊢
      exact .inl htx.1
    have hbound : (partyTransactions address (committedIn calls)).length < 2 ^ 64 := by
      rw [hlength]
      exact Nat.mod_lt _ (by decide)
    have hnone : ((committedIn calls).filter fun tx =>
        tx.sender = address ∧ tx.receiver = address).length = 0 := by omega
    refine ⟨fun tx htx hboth => ?_, hbound⟩
    have hempty := List.filter_eq_nil_iff.mp (List.length_eq_zero_iff.mp hnone) tx htx
    exact hempty (decide_eq_true hboth)
  · rintro ⟨hself, hbound⟩
    have hentries := entries_eq crypto hself
    have hfit : ((committedIn calls).flatMap (entriesFor crypto address)).length < 2 ^ 64 := by
      rw [hentries, List.length_map]
      exact hbound
    rw [hlists.historyOf_eq hfit, hentries]

/-- Alice creates an asset with herself as the receiver. -/
def ownCreation : Transaction :=
  .new Crypto.plain Sample.alice Sample.alice (.createAsset "Coin" "C" 10 0 []) 0 Sample.alice

/-- Her history lists the transaction twice. -/
theorem history_repeats_ownCreation :
    ∃ opened calls chain, Sample.start = some opened ∧ Run (Chain.serve Crypto.plain) opened calls chain ∧
      calls.map Call.label = [.deliver Host.plain (Sample.block Sample.genesis 1 [ownCreation])] ∧
      committedIn calls = [ownCreation] ∧
      chain.storage.historyOf (hexEncode Sample.alice) ≠
        (partyTransactions Sample.alice (committedIn calls)).map (indexedHash Crypto.plain) := by
  obtain ⟨opened, calls, chain, hstart, hrun, hlabels, hcheck⟩ := Run.exists_of_trace_from
    (Chain.serve Crypto.plain) Sample.start [.deliver Host.plain (Sample.block Sample.genesis 1 [ownCreation])]
    (fun _ calls chain => decide (committedIn calls = [ownCreation] ∧
      chain.storage.historyOf (hexEncode Sample.alice) ≠
        (partyTransactions Sample.alice (committedIn calls)).map (indexedHash Crypto.plain)))
    (by decide +kernel)
  obtain ⟨hcommitted, hdifferent⟩ := of_decide_eq_true hcheck
  exact ⟨opened, calls, chain, hstart, hrun, hlabels, hcommitted, hdifferent⟩

/-- A transfer to Bob, and one more. -/
def transferRequests : List Request :=
  let first := Sample.block Sample.genesis 1 [Sample.transfer 5 0]
  [.deliver Host.plain first, .deliver Host.plain (Sample.block first 2 [Sample.transfer 7 1])]

/-- Bob's history lists both. -/
theorem history_iff_separate_transfers :
    ∃ opened calls chain, Sample.start = some opened ∧ Run (Chain.serve Crypto.plain) opened calls chain ∧
      calls.map Call.label = transferRequests ∧ committedIn calls = [Sample.transfer 5 0, Sample.transfer 7 1] ∧
      chain.storage.historyOf (hexEncode Sample.bob) =
        (partyTransactions Sample.bob (committedIn calls)).map (indexedHash Crypto.plain) := by
  obtain ⟨opened, calls, chain, hstart, hrun, hlabels, hcheck⟩ := Run.exists_of_trace_from
    (Chain.serve Crypto.plain) Sample.start transferRequests
    (fun _ calls _ => decide (committedIn calls = [Sample.transfer 5 0, Sample.transfer 7 1]))
    (by decide +kernel)
  have hcommitted := of_decide_eq_true hcheck
  have hreliable := Sample.reliable_of_labels hlabels (by simp [transferRequests, Request.host])
  refine ⟨opened, calls, chain, hstart, hrun, hlabels, hcommitted, ?_⟩
  apply (history_iff_separate rfl hstart hrun hreliable Sample.bob).mpr
  rw [hcommitted]
  decide +kernel

end Chain

end Nocostcoin
