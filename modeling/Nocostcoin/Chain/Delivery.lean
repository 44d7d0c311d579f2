import Nocostcoin.Commit
import Nocostcoin.Chain

/-!
# What a delivered block does to the chain

`Delivery` lists the ways in which a call of `add_block` ends, each with the checks passed on the
way and the chain left behind. On a reliable database a block that reaches the commit is
accepted, and its commit is written out in full.
-/

namespace Nocostcoin

/-- The validator set after the management of one committed transaction. -/
def ValidatorSet.managed (set : ValidatorSet) (epoch : UInt64) (tx : Transaction) : ValidatorSet :=
  match tx.data with
  | .registerValidator stake => (set.registerValidator tx.sender stake epoch).2
  | .unregisterValidator => (set.unregisterValidator tx.sender).2
  | _ => set

/-- A transaction registers its sender, unregisters it, or leaves the set alone. -/
theorem ValidatorSet.managed_cases (set : ValidatorSet) (epoch : UInt64) (tx : Transaction) :
    (∃ stake, tx.data = .registerValidator stake ∧
      set.managed epoch tx = (set.registerValidator tx.sender stake epoch).2) ∨
    (tx.data = .unregisterValidator ∧ set.managed epoch tx = (set.unregisterValidator tx.sender).2) ∨
    set.managed epoch tx = set := by
  unfold managed
  cases tx.data with
  | registerValidator stake => exact .inl ⟨stake, rfl, rfl⟩
  | unregisterValidator => exact .inr (.inl ⟨rfl, rfl⟩)
  | _ => exact .inr (.inr rfl)

/-- The ledger state with another overlay. -/
def State.withPending (state : State) (pendingChanges : FiniteMap Bytes Account) : State :=
  { state with pendingChanges }

namespace Storage

/-- Replace the records that the indexing of transactions writes. -/
def withIndices (storage : Storage) (txIndex : FiniteMap String String)
    (historyCount : FiniteMap String UInt64) (history : FiniteMap (String × UInt64) String) : Storage :=
  { storage with txIndex, historyCount, history }

/-- Two databases that differ in the transaction and history indices at most. -/
def IndexOnly (before after : Storage) : Prop :=
  ∃ txIndex historyCount history, after = before.withIndices txIndex historyCount history

theorem IndexOnly.refl (storage : Storage) : storage.IndexOnly storage :=
  ⟨storage.txIndex, storage.historyCount, storage.history, rfl⟩

theorem IndexOnly.trans {a b c : Storage} (hab : a.IndexOnly b) (hbc : b.IndexOnly c) :
    a.IndexOnly c := by
  obtain ⟨_, _, _, rfl⟩ := hab
  obtain ⟨txIndex, historyCount, history, rfl⟩ := hbc
  exact ⟨txIndex, historyCount, history, rfl⟩

/-- A write of an index record, refused or not, changes indices only. -/
theorem indexOnly_write (disk : Disk) (context : String) (storage : Storage) (record : Write)
    (hindex : storage.IndexOnly (storage.put record)) :
    storage.IndexOnly (storage.write disk context record).2 := by
  unfold write
  split
  · exact hindex
  · exact .refl storage

/-- `store_transaction_index` changes indices only. -/
theorem indexOnly_storeTransactionIndex (disk : Disk) (storage : Storage) (txHash blockHash : String) :
    storage.IndexOnly (storage.storeTransactionIndex disk txHash blockHash).2 :=
  indexOnly_write disk _ storage (.txIndex txHash blockHash)
    ⟨_, storage.historyCount, storage.history, rfl⟩

/-- `add_transaction_to_address` changes indices only. -/
theorem indexOnly_addTransactionToAddress (disk : Disk) (storage : Storage) (address txHash : String) :
    storage.IndexOnly (storage.addTransactionToAddress disk address txHash).2 := by
  have hitem := indexOnly_write disk "Failed to store history item" storage
    (.historyItem address ((storage.historyCount.lookup address).getD 0) txHash)
    ⟨storage.txIndex, storage.historyCount, _, rfl⟩
  unfold addTransactionToAddress
  dsimp only
  split
  · rename_i hresult
    rwa [hresult] at hitem
  · rename_i written hresult
    rw [hresult] at hitem
    exact hitem.trans (indexOnly_write disk _ written _ ⟨written.txIndex, _, written.history, rfl⟩)

end Storage

namespace Chain

variable {crypto : Crypto} {host : Host} {chain chain' : Chain} {block : Block} {accepted : Bool}

/-- No other hash is on record for the block's slot and validator. -/
def Consistent (chain : Chain) (block : Block) : Prop :=
  ∀ existing, chain.existingHash block.header.slot block.header.validatorPubkey = some existing →
    existing = block.hash

/-- The chain after the header of a consistent block was recorded, if it was not yet. -/
def recordHeader (host : Host) (chain : Chain) (block : Block) : Chain :=
  match chain.existingHash block.header.slot block.header.validatorPubkey with
  | some _ => chain
  | none =>
    let chain := { chain with
      seenHeaders := chain.seenHeaders.insert (block.header.slot, block.header.validatorPubkey)
        block.hash }
    chain.logged (chain.storage.storeSeenHeader host.disk block.header.slot
      block.header.validatorPubkey block.hash)

/-- Replace the ledger state. -/
def withState (chain : Chain) (state : State) : Chain := { chain with state }

@[simp] theorem validators_withState (chain : Chain) (state : State) :
    (chain.withState state).validators = chain.validators := rfl

/-- The ways in which a delivery ends, each with the result and the chain after it. -/
inductive Delivery (crypto : Crypto) (host : Host) (chain : Chain) (block : Block) :
    Bool → Chain → Prop
  | orphan (hparent : chain.getBlock block.header.parentHash = none) :
      Delivery crypto host chain block false chain
  | equivocation {parent : Block} {existing : String}
      (hparent : chain.getBlock block.header.parentHash = some parent)
      (hexisting : chain.existingHash block.header.slot block.header.validatorPubkey = some existing)
      (hne : existing ≠ block.hash) :
      Delivery crypto host chain block false
        { chain with
          validators := (chain.validators.slashValidator block.header.validatorPubkey).2 }
  | invalid {parent : Block} {error : String}
      (hparent : chain.getBlock block.header.parentHash = some parent)
      (hconsistent : chain.Consistent block)
      (hinvalid : Consensus.validateBlock crypto block parent chain.validators = .error error) :
      Delivery crypto host chain block false (chain.recordHeader host block)
  | failed {parent : Block} {error : String} {state : State}
      (hparent : chain.getBlock block.header.parentHash = some parent)
      (hconsistent : chain.Consistent block)
      (hvalid : Consensus.validateBlock crypto block parent chain.validators = .ok ())
      (hexec : processTransactions crypto (chain.recordHeader host block).state.discardChanges
        block.transactions = (.error error, state)) :
      Delivery crypto host chain block false
        ((chain.recordHeader host block).withState state.discardChanges)
  | mismatch {parent : Block} {state : State}
      (hparent : chain.getBlock block.header.parentHash = some parent)
      (hconsistent : chain.Consistent block)
      (hvalid : Consensus.validateBlock crypto block parent chain.validators = .ok ())
      (hexec : processTransactions crypto (chain.recordHeader host block).state.discardChanges
        block.transactions = (.ok (), state))
      (hroot : block.header.stateRoot ≠ "" ∧ block.header.stateRoot ≠ state.getRootHash) :
      Delivery crypto host chain block false
        ((chain.recordHeader host block).withState state.discardChanges)
  | commit {parent : Block} {state : State} {accepted : Bool} {chain' : Chain}
      (hparent : chain.getBlock block.header.parentHash = some parent)
      (hconsistent : chain.Consistent block)
      (hvalid : Consensus.validateBlock crypto block parent chain.validators = .ok ())
      (hexec : processTransactions crypto (chain.recordHeader host block).state.discardChanges
        block.transactions = (.ok (), state))
      (hroot : ¬ (block.header.stateRoot ≠ "" ∧ block.header.stateRoot ≠ state.getRootHash))
      (hcommit : commitBlock crypto host ((chain.recordHeader host block).withState state) block =
        some (accepted, chain')) :
      Delivery crypto host chain block accepted chain'

/-- Detection either finds another hash on record and slashes, or records the header. -/
theorem detectEquivocation_cases (host : Host) (chain : Chain) (block : Block) :
    (∃ existing,
      chain.existingHash block.header.slot block.header.validatorPubkey = some existing ∧
      existing ≠ block.hash ∧
      chain.detectEquivocation host block = (true, { chain with
        validators := (chain.validators.slashValidator block.header.validatorPubkey).2 })) ∨
    (chain.Consistent block ∧
      chain.detectEquivocation host block = (false, chain.recordHeader host block)) := by
  unfold detectEquivocation recordHeader Consistent
  dsimp only
  cases hexisting : chain.existingHash block.header.slot block.header.validatorPubkey with
  | none => exact .inr ⟨by simp, rfl⟩
  | some existing =>
    by_cases hne : existing ≠ block.hash
    · exact .inl ⟨existing, rfl, hne, if_pos hne⟩
    · refine .inr ⟨fun other hother => ?_, if_neg hne⟩
      rw [← Option.some.inj hother]
      exact not_not.mp hne

/-- Recording a header leaves the validators alone. -/
@[simp] theorem validators_recordHeader (host : Host) (chain : Chain) (block : Block) :
    (chain.recordHeader host block).validators = chain.validators := by
  unfold recordHeader
  split <;> rfl

/-- Recording a header writes to the recorded headers, in memory and on disk, and nowhere else. -/
theorem recordHeader_frame (host : Host) (chain : Chain) (block : Block) :
    ∃ seenHeaders headers, chain.recordHeader host block =
      { chain with
        seenHeaders
        state := { chain.state with storage := { chain.state.storage with headers } } } := by
  unfold recordHeader
  split
  · exact ⟨chain.seenHeaders, chain.state.storage.headers, rfl⟩
  · unfold logged Storage.storeSeenHeader Storage.write
    split
    · exact ⟨_, _, rfl⟩
    · exact ⟨_, chain.state.storage.headers, rfl⟩

/-- Validating and applying a transaction writes neither to the database nor to the trie. -/
theorem storage_processTransaction (crypto : Crypto) (state : State) (tx : Transaction) :
    (processTransaction crypto state tx).2.storage = state.storage ∧
      (processTransaction crypto state tx).2.trie = state.trie := by
  unfold processTransaction
  split
  · exact ⟨rfl, rfl⟩
  · exact state.storage_applyTransaction crypto tx

/-- The transactions of a block write neither to the database nor to the trie. -/
theorem storage_processTransactions (crypto : Crypto) (state : State) (txs : List Transaction) :
    (processTransactions crypto state txs).2.storage = state.storage ∧
      (processTransactions crypto state txs).2.trie = state.trie := by
  induction txs generalizing state with
  | nil => exact ⟨rfl, rfl⟩
  | cons tx rest ih =>
    have hfirst := storage_processTransaction crypto state tx
    rw [processTransactions]
    split
    · rename_i hresult
      rwa [hresult] at hfirst
    · rename_i next hresult
      rw [hresult] at hfirst
      exact ⟨(ih next).1.trans hfirst.1, (ih next).2.trans hfirst.2⟩

/-- The execution of a block leaves the database as the recording of its header left it. -/
theorem storage_of_execution {result : Except String Unit} {state : State}
    (hexec : processTransactions crypto (chain.recordHeader host block).state.discardChanges
      block.transactions = (result, state)) :
    state.storage = (chain.recordHeader host block).storage := by
  have hstorage := (storage_processTransactions crypto
    (chain.recordHeader host block).state.discardChanges block.transactions).1
  rw [hexec] at hstorage
  exact hstorage

/-- The database after the execution of a block, up to the recorded headers. -/
theorem storage_of_execution_frame {result : Except String Unit} {state : State}
    (hexec : processTransactions crypto (chain.recordHeader host block).state.discardChanges
      block.transactions = (result, state)) :
    ∃ headers, state.storage = { chain.state.storage with headers } := by
  obtain ⟨seenHeaders, headers, hrecord⟩ := recordHeader_frame host chain block
  have hstorage := storage_of_execution hexec
  rw [hrecord] at hstorage
  exact ⟨headers, hstorage⟩

/-- Every call of `add_block` that returns is one of the deliveries. -/
theorem delivery_of_addBlock (h : addBlock crypto host chain block = some (accepted, chain')) :
    Delivery crypto host chain block accepted chain' := by
  unfold addBlock at h
  split at h
  · rename_i hparent
    obtain ⟨rfl, rfl⟩ := Prod.mk.inj (Option.some.inj h)
    exact .orphan hparent
  · rename_i parent hparent
    rcases detectEquivocation_cases host chain block with
      ⟨existing, hexisting, hne, hdetect⟩ | ⟨hconsistent, hdetect⟩
    · rw [hdetect] at h
      obtain ⟨rfl, rfl⟩ := Prod.mk.inj (Option.some.inj h)
      exact .equivocation hparent hexisting hne
    · rw [hdetect] at h
      dsimp only at h
      split at h
      · rename_i error hinvalid
        rw [validators_recordHeader] at hinvalid
        obtain ⟨rfl, rfl⟩ := Prod.mk.inj (Option.some.inj h)
        exact .invalid hparent hconsistent hinvalid
      · rename_i hvalid
        rw [validators_recordHeader] at hvalid
        split at h
        · rename_i error state hexec
          obtain ⟨rfl, rfl⟩ := Prod.mk.inj (Option.some.inj h)
          exact .failed hparent hconsistent hvalid hexec
        · rename_i state hexec
          split at h
          · rename_i hroot
            obtain ⟨rfl, rfl⟩ := Prod.mk.inj (Option.some.inj h)
            exact .mismatch hparent hconsistent hvalid hexec hroot
          · rename_i hroot
            exact .commit hparent hconsistent hvalid hexec hroot h

/-- The chain after the commit of a block, before its transactions are indexed: the head chosen,
the block stored under the hash it carries, and every account stored. -/
def committed (chain : Chain) (block currentHead : Block) (trie : MerklePatriciaTrie) : Chain :=
  let better := Consensus.isBetterBlock block currentHead
  let storage := { chain.storage with
    head := if better then some block.hash else chain.storage.head
    blocks := chain.storage.blocks.insert block.hash block
    accounts := chain.state.accounts
    heights := chain.storage.heights.insert block.header.slot block.hash }
  { chain with
    head := if better then block.hash else chain.head
    state := { chain.state with storage, pendingChanges := ∅, trie } }

/-- On a reliable database a commit that returns accepts the block. -/
theorem commitBlock_reliable (hreliable : host.Reliable)
    (h : commitBlock crypto host chain block = some (accepted, chain')) :
    accepted = true ∧ ∃ currentHead trie, chain.getHead = some currentHead ∧
      chain' = block.transactions.foldl (indexTransaction crypto host block)
        (chain.committed block currentHead trie) := by
  obtain ⟨currentHead, hhead, h⟩ := Option.bind_eq_some_iff.mp h
  simp only [Storage.storeBlock, hreliable.write] at h
  obtain ⟨⟨result, state⟩, happly, h⟩ := Option.bind_eq_some_iff.mp h
  obtain ⟨rfl, trie, rfl⟩ := State.applyChanges_reliable hreliable happly
  obtain ⟨rfl, rfl⟩ := Prod.mk.inj (Option.some.inj h)
  refine ⟨rfl, currentHead, trie, hhead, ?_⟩
  congr 1
  unfold chooseHead committed
  split
  · rename_i hbetter
    simp only [Storage.storeHead, Storage.storeBlockByHeight, hreliable.write, hbetter, if_true]
    rfl
  · rename_i hworse
    simp only [Storage.storeBlockByHeight, hreliable.write, hworse, if_false, Bool.false_eq_true]
    rfl

/-- Managing the validators changes the set and, by a refund, the overlay; no nonce changes. -/
theorem manageValidators_frame (chain : Chain) (block : Block) (tx : Transaction) :
    ∃ pending, chain.manageValidators block tx =
        { chain with
          validators := chain.validators.managed block.header.epoch tx
          state := chain.state.withPending pending } ∧
      (∀ address, (chain.state.withPending pending).getNonce address = chain.state.getNonce address) ∧
      (tx.data ≠ .unregisterValidator → pending = chain.state.pendingChanges) := by
  unfold manageValidators ValidatorSet.managed
  cases hdata : tx.data with
  | unregisterValidator =>
    rcases hresult : chain.validators.unregisterValidator tx.sender with ⟨error | stake, validators⟩
    · exact ⟨chain.state.pendingChanges, rfl, fun _ => rfl, fun _ => rfl⟩
    · refine ⟨chain.state.pendingChanges.insert tx.sender
        ((chain.state.accountOrNew tx.sender).credit stake), rfl, fun address => ?_,
        fun hother => absurd rfl hother⟩
      rw [State.getNonce_eq, State.getNonce_eq]
      exact State.field_accountOrNew_modifyAccount Account.nonce chain.state tx.sender address
        (.credit stake) fun _ => rfl
  | _ => exact ⟨chain.state.pendingChanges, rfl, fun _ => rfl, fun _ => rfl⟩

/-- Indexing one transaction manages the validators and then writes index records only. -/
theorem indexTransaction_frame (crypto : Crypto) (host : Host) (block : Block) (chain : Chain) (tx : Transaction) :
    ∃ storage, indexTransaction crypto host block chain tx =
        (chain.manageValidators block tx).withStorage storage ∧
      (chain.manageValidators block tx).storage.IndexOnly storage := by
  refine ⟨_, rfl, ?_⟩
  exact ((Storage.indexOnly_storeTransactionIndex _ _ _ _).trans
    (Storage.indexOnly_addTransactionToAddress _ _ _ _)).trans
      (Storage.indexOnly_addTransactionToAddress _ _ _ _)

/-- Indexing the transactions of a block leaves the head, the recorded headers, the votes and the
ledger alone, up to refunds in the overlay, which change no nonce. -/
theorem foldl_indexTransaction_frame (crypto : Crypto) (host : Host) (block : Block)
    (txs : List Transaction) (chain : Chain) :
    ∃ pending storage, txs.foldl (indexTransaction crypto host block) chain =
        { chain with
          validators := txs.foldl (ValidatorSet.managed · block.header.epoch) chain.validators
          state := { chain.state with pendingChanges := pending, storage } } ∧
      chain.storage.IndexOnly storage ∧
      (∀ address,
        (chain.state.withPending pending).getNonce address = chain.state.getNonce address) ∧
      ((∀ tx ∈ txs, tx.data ≠ .unregisterValidator) → pending = chain.state.pendingChanges) := by
  induction txs generalizing chain with
  | nil =>
    exact ⟨chain.state.pendingChanges, chain.storage, rfl, .refl _, fun _ => rfl, fun _ => rfl⟩
  | cons tx rest ih =>
    obtain ⟨storage₁, hstep, hindex₁⟩ := indexTransaction_frame crypto host block chain tx
    obtain ⟨pending₁, hmanage, hnonce₁, hkeep₁⟩ := manageValidators_frame chain block tx
    rw [hmanage] at hstep hindex₁
    obtain ⟨pending, storage, hrest, hindex, hnonce, hkeep⟩ :=
      ih (indexTransaction crypto host block chain tx)
    rw [hstep] at hrest hindex hnonce hkeep
    refine ⟨pending, storage, ?_, hindex₁.trans hindex, fun address => ?_, fun hall => ?_⟩
    · rw [List.foldl_cons, hstep, hrest]
      rfl
    · obtain ⟨_, _, _, rfl⟩ := hindex₁
      exact (hnonce address).trans (hnonce₁ address)
    · rw [hkeep fun other hother => hall other (List.mem_cons_of_mem tx hother)]
      exact hkeep₁ (hall tx List.mem_cons_self)

/-- The fork choice writes the head, in memory and on disk, and nothing else. -/
theorem chooseHead_frame (host : Host) (chain : Chain) (block currentHead : Block) :
    ∃ head stored, chain.chooseHead host block currentHead =
      { chain with
        head
        state := { chain.state with storage := { chain.state.storage with head := stored } } } := by
  unfold chooseHead
  split
  · unfold logged Storage.storeHead Storage.write
    dsimp only
    split
    · exact ⟨_, _, rfl⟩
    · exact ⟨_, chain.state.storage.head, rfl⟩
  · exact ⟨chain.head, chain.state.storage.head, rfl⟩

/-- The ledger state that a commit starts from: the head record as the fork choice left it, and the
block stored. -/
def withBlock (chain : Chain) (stored : Option String) (block : Block) : State :=
  { chain.state with storage := { chain.state.storage with
      head := stored
      blocks := chain.state.storage.blocks.insert block.hash block } }

/-- The ways in which a commit ends: the block is refused by the database, an account is, or the
commit is finished and the transactions are indexed. -/
inductive CommitOutcome (crypto : Crypto) (host : Host) (chain : Chain) (block : Block) :
    Bool → Chain → Prop
  | blockRefused (head : String) (stored : Option String) :
      CommitOutcome crypto host chain block false
        { chain with
          head
          state := { chain.state.discardChanges with
            storage := { chain.state.storage with head := stored } } }
  | accountRefused (head : String) {stored : Option String} {error : String} {state : State}
      (happly : (chain.withBlock stored block).applyChanges crypto host = some (.error error, state)) :
      CommitOutcome crypto host chain block false { chain with head, state }
  | finished (head : String) {stored : Option String} (heights : FiniteMap UInt64 String)
      {state : State}
      (happly : (chain.withBlock stored block).applyChanges crypto host = some (.ok (), state)) :
      CommitOutcome crypto host chain block true
        (block.transactions.foldl (indexTransaction crypto host block)
          { chain with head, state := { state with storage := { state.storage with heights } } })

/-- Every commit that returns ends in one of these ways. -/
theorem commitOutcome_of_commitBlock
    (h : commitBlock crypto host chain block = some (accepted, chain')) :
    CommitOutcome crypto host chain block accepted chain' := by
  obtain ⟨currentHead, -, h⟩ := Option.bind_eq_some_iff.mp h
  obtain ⟨head, stored, hchoose⟩ := chooseHead_frame host chain block currentHead
  rw [hchoose] at h
  dsimp only at h
  split at h
  · obtain ⟨rfl, rfl⟩ := Prod.mk.inj (Option.some.inj h)
    exact .blockRefused head stored
  · rename_i storage hstore
    obtain rfl := Storage.write_ok hstore
    obtain ⟨⟨result, state⟩, happly, h⟩ := Option.bind_eq_some_iff.mp h
    cases result with
    | error error =>
      obtain ⟨rfl, rfl⟩ := Prod.mk.inj (Option.some.inj h)
      exact .accountRefused head happly
    | ok =>
      obtain ⟨rfl, rfl⟩ := Prod.mk.inj (Option.some.inj h)
      unfold logged Storage.storeBlockByHeight Storage.write
      split
      · exact .finished head _ happly
      · exact .finished head state.storage.heights happly

/-- What a commit, finished or stopped by a refused write, may have changed: it stores its block or
not, manages the validators of the whole block or not at all, and leaves recorded headers and votes
alone. -/
structure CommitFrame (chain : Chain) (block : Block) (chain' : Chain) : Prop where
  seenHeaders : chain'.seenHeaders = chain.seenHeaders
  headers : chain'.storage.headers = chain.storage.headers
  votes : chain'.votes = chain.votes
  finalizedHead : chain'.finalizedHead = chain.finalizedHead
  blocks : chain'.storage.blocks = chain.storage.blocks ∨
    chain'.storage.blocks = chain.storage.blocks.insert block.hash block
  validators : chain'.validators = chain.validators ∨ chain'.validators =
    block.transactions.foldl (ValidatorSet.managed · block.header.epoch) chain.validators

/-- Every commit that returns stays in its frame. -/
theorem commitBlock_frame (h : commitBlock crypto host chain block = some (accepted, chain')) :
    CommitFrame chain block chain' := by
  cases commitOutcome_of_commitBlock h with
  | blockRefused => exact ⟨rfl, rfl, rfl, rfl, .inl rfl, .inl rfl⟩
  | accountRefused head happly =>
    obtain ⟨accounts, pending, trie, rfl⟩ := State.applyChanges_frame happly
    exact ⟨rfl, rfl, rfl, rfl, .inr rfl, .inl rfl⟩
  | finished head heights happly =>
    obtain ⟨accounts, pending, trie, rfl⟩ := State.applyChanges_frame happly
    obtain ⟨pending', storage', hfold, ⟨txIndex, historyCount, history, rfl⟩, -, -⟩ :=
      foldl_indexTransaction_frame crypto host block block.transactions _
    rw [hfold]
    exact ⟨rfl, rfl, rfl, rfl, .inr rfl, .inr rfl⟩

/-- A vote writes to the votes, in memory and on disk, and to the finalized head. -/
theorem addVote_frame (crypto : Crypto) (host : Host) (chain : Chain) (vote : Vote) :
    ∃ votes stored finalizedHead, (addVote crypto host chain vote).2 =
      { chain with
        votes
        finalizedHead
        state := { chain.state with storage := { chain.state.storage with votes := stored } } } := by
  unfold addVote
  split
  · exact ⟨chain.votes, chain.state.storage.votes, chain.finalizedHead, rfl⟩
  · split
    · exact ⟨chain.votes, chain.state.storage.votes, chain.finalizedHead, rfl⟩
    · dsimp only
      split
      · exact ⟨_, chain.state.storage.votes, chain.finalizedHead, rfl⟩
      · unfold checkFinality logged Storage.storeVote Storage.write
        split
        · split
          · exact ⟨_, _, _, rfl⟩
          · exact ⟨_, _, _, rfl⟩
        · split
          · exact ⟨_, _, _, rfl⟩
          · exact ⟨_, chain.state.storage.votes, _, rfl⟩

/-- Serving a vote changes no more than the vote does. -/
theorem serve_vote_frame {vote : Vote}
    (h : serve crypto chain (.vote host vote) = some (accepted, chain')) :
    ∃ votes stored finalizedHead, chain' =
      { chain with
        votes
        finalizedHead
        state := { chain.state with storage := { chain.state.storage with votes := stored } } } := by
  obtain ⟨votes, stored, finalizedHead, hvote⟩ := addVote_frame crypto host chain vote
  have hserved : addVote crypto host chain vote = (accepted, chain') := Option.some.inj h
  rw [hserved] at hvote
  exact ⟨votes, stored, finalizedHead, hvote⟩

/-- Serving a restart starts a node on the database. -/
theorem start_of_serve {genesisBlock : Block} {balances stakes : List (Bytes × UInt64)}
    (h : serve crypto chain (.reopen host genesisBlock balances stakes) = some (accepted, chain')) :
    start crypto host chain.storage genesisBlock balances stakes = some chain' := by
  obtain ⟨reopened, hstart, hresult⟩ := Option.map_eq_some_iff.mp h
  rw [hstart, (Prod.mk.inj hresult).2]

end Chain

end Nocostcoin
