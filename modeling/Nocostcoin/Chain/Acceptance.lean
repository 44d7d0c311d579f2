import Nocostcoin.Chain.Delivery
import Nocostcoin.LedgerView

/-!
# When a block is accepted, and what then changes

On a reliable database a delivered block is accepted exactly when it passes the checks of
`add_block`. An accepted block is stored, its transactions have taken effect on the ledger, and
the fork choice has picked the head; a rejected block changes neither head nor stored blocks.
-/

namespace Nocostcoin

namespace Chain

variable {crypto : Crypto} {host : Host} {chain chain' : Chain} {block : Block} {accepted : Bool}

/-- The checks of `add_block`: a stored parent, no other header on record, the consensus rules,
the transactions on the stored accounts, and the state root. -/
structure Passes (crypto : Crypto) (chain : Chain) (block : Block) (parent : Block) : Prop where
  stored : chain.getBlock block.header.parentHash = some parent
  consistent : chain.Consistent block
  valid : Consensus.validateBlock crypto block parent chain.validators = .ok ()
  executes : (processTransactions crypto chain.state.discardChanges block.transactions).1 = .ok ()
  root : block.header.stateRoot = "" ∨ block.header.stateRoot = chain.state.getRootHash

/-- The transactions of a delivered block are executed: the block passes the parent, equivocation and
consensus checks. -/
def Executes (crypto : Crypto) (chain : Chain) (block : Block) : Prop :=
  ∃ parent, chain.getBlock block.header.parentHash = some parent ∧ chain.Consistent block ∧
    Consensus.validateBlock crypto block parent chain.validators = .ok ()

/-- Executing on equal ledgers gives equal results and equal ledgers. -/
theorem processTransactions_congr (crypto : Crypto) {state state' : State}
    (h : state.ledger = state'.ledger) (txs : List Transaction) :
    (processTransactions crypto state txs).1 = (processTransactions crypto state' txs).1 ∧
      (processTransactions crypto state txs).2.ledger =
        (processTransactions crypto state' txs).2.ledger := by
  have hexec := ledger_processTransactions crypto state txs
  rw [h, ← ledger_processTransactions crypto state'] at hexec
  exact Prod.mk.inj hexec

/-- Recording a header does not change the ledger. -/
@[simp] theorem ledger_recordHeader (host : Host) (chain : Chain) (block : Block) :
    (chain.recordHeader host block).state.discardChanges.ledger =
      chain.state.discardChanges.ledger := by
  obtain ⟨seenHeaders, headers, hrecord⟩ := recordHeader_frame host chain block
  rw [hrecord]
  rfl

/-- Recording a header does not change the root hash. -/
theorem trie_of_execution {result : Except String Unit} {state : State}
    (hexec : processTransactions crypto (chain.recordHeader host block).state.discardChanges
      block.transactions = (result, state)) : state.trie = chain.state.trie := by
  obtain ⟨seenHeaders, headers, hrecord⟩ := recordHeader_frame host chain block
  have htrie := (storage_processTransactions crypto
    (chain.recordHeader host block).state.discardChanges block.transactions).2
  rw [hexec, hrecord] at htrie
  exact htrie

/-- The execution inside `add_block`, seen from the chain before the call. -/
theorem execution_eq {result : Except String Unit} {state : State}
    (hexec : processTransactions crypto (chain.recordHeader host block).state.discardChanges
      block.transactions = (result, state)) :
    (processTransactions crypto chain.state.discardChanges block.transactions).1 = result ∧
      state.ledger =
        (processTransactions crypto chain.state.discardChanges block.transactions).2.ledger := by
  have hcongr := processTransactions_congr crypto (ledger_recordHeader host chain block)
    block.transactions
  rw [hexec] at hcongr
  exact ⟨hcongr.1.symm, hcongr.2⟩

/-- What an accepted block changed. -/
structure Acceptance (crypto : Crypto) (chain : Chain) (block : Block) (chain' : Chain) : Prop where
  passes : ∃ parent, chain.Passes crypto block parent
  head : ∃ currentHead, chain.getHead = some currentHead ∧
    chain'.head = if Consensus.isBetterBlock block currentHead then block.hash else chain.head
  blocks : chain'.storage.blocks = chain.storage.blocks.insert block.hash block
  storedHead : chain'.storage.head = some block.hash ∨ chain'.storage.head = chain.storage.head
  ledger : chain'.state.discardChanges.ledger =
    (processTransactions crypto chain.state.discardChanges block.transactions).2.ledger
  pending : (∀ tx ∈ block.transactions, tx.data ≠ .unregisterValidator) →
    chain'.state.pendingChanges = ∅
  validators : chain'.validators =
    block.transactions.foldl (ValidatorSet.managed · block.header.epoch) chain.validators
  finality : chain'.votes = chain.votes ∧ chain'.finalizedHead = chain.finalizedHead

/-- What a rejected block left alone. -/
structure Rejection (chain chain' : Chain) : Prop where
  head : chain'.head = chain.head
  blocks : chain'.storage.blocks = chain.storage.blocks
  storedHead : chain'.storage.head = chain.storage.head
  accounts : chain'.storage.accounts = chain.storage.accounts
  finality : chain'.votes = chain.votes ∧ chain'.finalizedHead = chain.finalizedHead

/-- A rejection after the header was recorded. -/
theorem rejection_of_execution {result : Except String Unit} {state : State}
    (hexec : processTransactions crypto (chain.recordHeader host block).state.discardChanges
      block.transactions = (result, state)) :
    Rejection chain ((chain.recordHeader host block).withState state.discardChanges) := by
  obtain ⟨seenHeaders, headers, hrecord⟩ := recordHeader_frame host chain block
  obtain ⟨headers', hstorage⟩ := storage_of_execution_frame hexec
  have hafter : ((chain.recordHeader host block).withState state.discardChanges).storage =
      { chain.state.storage with headers := headers' } := hstorage
  constructor
  · rw [hrecord]
    rfl
  · rw [hafter]
    rfl
  · rw [hafter]
    rfl
  · rw [hafter]
    rfl
  · rw [hrecord]
    exact ⟨rfl, rfl⟩

/-- An accepted block and what its commit changed. -/
theorem acceptance_of_commit (hreliable : host.Reliable) {parent : Block} {state : State}
    (hpasses : chain.Passes crypto block parent)
    (hexec : processTransactions crypto (chain.recordHeader host block).state.discardChanges
      block.transactions = (.ok (), state))
    (hcommit : commitBlock crypto host ((chain.recordHeader host block).withState state) block =
      some (accepted, chain')) :
    accepted = true ∧ Acceptance crypto chain block chain' := by
  obtain ⟨seenHeaders, headers, hrecord⟩ := recordHeader_frame host chain block
  obtain ⟨headers', hstorage⟩ := storage_of_execution_frame hexec
  obtain ⟨rfl, currentHead, trie, hhead, rfl⟩ := commitBlock_reliable hreliable hcommit
  obtain ⟨pending, storage, hfold, ⟨txIndex, historyCount, history, rfl⟩, -, hpending⟩ :=
    foldl_indexTransaction_frame crypto host block block.transactions
      (((chain.recordHeader host block).withState state).committed block currentHead trie)
  refine ⟨rfl, ⟨⟨parent, hpasses⟩, ⟨currentHead, ?_, ?_⟩, ?_, ?_, ?_, ?_, ?_, ?_⟩⟩
  · have hstored : ((chain.recordHeader host block).withState state).storage =
      { chain.state.storage with headers := headers' } := hstorage
    unfold getHead at hhead
    rw [hstored] at hhead
    rw [hrecord] at hhead
    exact hhead
  · rw [hfold, hrecord]
    rfl
  · rw [hfold]
    change state.storage.blocks.insert block.hash block = _
    rw [hstorage]
    rfl
  · rw [hfold]
    have hstored : state.storage.head = chain.storage.head := by
      rw [hstorage]
      rfl
    by_cases hbetter : Consensus.isBetterBlock block currentHead
    · left
      exact if_pos hbetter
    · right
      exact (if_neg hbetter).trans hstored
  · rw [hfold, ← (execution_eq hexec).2]
    have haccounts : (∅ : FiniteMap Bytes Account) ∪ state.accounts = state.accounts :=
      Finmap.empty_union
    unfold State.ledger
    congr 1
  · intro hnone
    rw [hfold]
    exact hpending hnone
  · rw [hfold, hrecord]
    rfl
  · rw [hfold, hrecord]
    exact ⟨rfl, rfl⟩

/-- A block that reaches the commit has passed the checks. -/
theorem passes_of_commit {parent : Block} {state : State}
    (hparent : chain.getBlock block.header.parentHash = some parent)
    (hconsistent : chain.Consistent block)
    (hvalid : Consensus.validateBlock crypto block parent chain.validators = .ok ())
    (hexec : processTransactions crypto (chain.recordHeader host block).state.discardChanges
      block.transactions = (.ok (), state))
    (hroot : ¬ (block.header.stateRoot ≠ "" ∧ block.header.stateRoot ≠ state.getRootHash)) :
    chain.Passes crypto block parent := by
  refine ⟨hparent, hconsistent, hvalid, (execution_eq hexec).1, ?_⟩
  rw [State.getRootHash, trie_of_execution hexec] at hroot
  by_contra hneither
  exact hroot (not_or.mp hneither)

/-- A delivery on a reliable database is an acceptance of a block that passes the checks or a
rejection of one that does not. -/
theorem acceptance_or_rejection (hreliable : host.Reliable)
    (h : Delivery crypto host chain block accepted chain') :
    (accepted = true ∧ Acceptance crypto chain block chain') ∨
      (accepted = false ∧ (∀ parent, ¬ chain.Passes crypto block parent) ∧
        Rejection chain chain') := by
  cases h with
  | orphan hparent =>
    refine .inr ⟨rfl, fun parent hpasses => ?_, rfl, rfl, rfl, rfl, rfl, rfl⟩
    exact absurd (hparent.symm.trans hpasses.stored) (by simp)
  | equivocation hparent hexisting hne =>
    refine .inr ⟨rfl, fun parent hpasses => ?_, rfl, rfl, rfl, rfl, rfl, rfl⟩
    exact hne (hpasses.consistent _ hexisting)
  | invalid hparent hconsistent hinvalid =>
    refine .inr ⟨rfl, fun parent hpasses => ?_, ?_⟩
    · obtain rfl := Option.some.inj (hparent.symm.trans hpasses.stored)
      exact absurd (hinvalid.symm.trans hpasses.valid) (by simp)
    · obtain ⟨seenHeaders, headers, hrecord⟩ := recordHeader_frame host chain block
      rw [hrecord]
      exact ⟨rfl, rfl, rfl, rfl, rfl, rfl⟩
  | failed hparent hconsistent hvalid hexec =>
    refine .inr ⟨rfl, fun parent hpasses => ?_, rejection_of_execution hexec⟩
    exact absurd ((execution_eq hexec).1.symm.trans hpasses.executes) (by simp)
  | mismatch hparent hconsistent hvalid hexec hroot =>
    refine .inr ⟨rfl, fun parent hpasses => ?_, rejection_of_execution hexec⟩
    rw [State.getRootHash, trie_of_execution hexec] at hroot
    rcases hpasses.root with hempty | hsame
    · exact hroot.1 hempty
    · exact hroot.2 hsame
  | commit hparent hconsistent hvalid hexec hroot hcommit =>
    exact .inl (acceptance_of_commit hreliable (passes_of_commit hparent hconsistent hvalid hexec hroot)
      hexec hcommit)

/-- On a reliable database a returning `add_block` accepts exactly the blocks that pass. -/
theorem accepted_iff_passes (hreliable : host.Reliable)
    (h : Delivery crypto host chain block accepted chain') :
    accepted = true ↔ ∃ parent, chain.Passes crypto block parent := by
  rcases acceptance_or_rejection hreliable h with ⟨rfl, haccept⟩ | ⟨rfl, hfails, -⟩
  · exact ⟨fun _ => haccept.passes, fun _ => rfl⟩
  · refine ⟨fun hfalse => by simp at hfalse, fun ⟨parent, hpasses⟩ => ?_⟩
    exact absurd hpasses (hfails parent)

end Chain

end Nocostcoin
