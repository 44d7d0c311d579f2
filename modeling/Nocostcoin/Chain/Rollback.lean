import Nocostcoin.Registries
import Nocostcoin.Chain.Acceptance

/-!
# The rollback of a rejected block

A block whose execution fails is rolled back by clearing the overlay of accounts. The registries
are not rolled back, and the refunds that waited in the overlay are lost with the rest of it.
-/

namespace Nocostcoin

open Execution

variable {crypto : Crypto}

/-- The checks that a transaction meets before its own arm, after the given transactions. -/
structure Due (crypto : Crypto) (state : State) (before : List Transaction) (tx : Transaction) :
    Prop where
  valid : tx.validate crypto = .ok ()
  nonce : tx.nonce = state.getNonce tx.sender + UInt64.ofNat (sentBy tx.sender before)

/-- Transactions that took effect and one that then failed, if any, touch no registry in the end:
no record is entered, items return to the owners they had, and the failing transaction neither
closes an open channel nor gives an item of its sender to someone else. -/
structure Harmless (crypto : Crypto) (state : State) (before : List Transaction)
    (failing : Option Transaction) : Prop where
  records : ∀ tx ∈ before, tx.enters = false
  owners : ∀ collectionId itemId owner, state.ownerOf collectionId itemId = some owner →
    ownerAfter before collectionId itemId owner = owner
  closing : ∀ tx ∈ failing, Due crypto state before tx →
    ∀ channelId balanceProof finalBalanceA finalBalanceB channel,
      tx.data = .closeChannel channelId balanceProof finalBalanceA finalBalanceB →
      state.channels.lookup channelId = some channel → channel.isClosed = false →
        tx.sender ≠ channel.partnerA ∧ tx.sender ≠ channel.partnerB
  moving : ∀ tx ∈ failing, Due crypto state before tx →
    ∀ collectionId itemId, tx.data = .transferNFT collectionId itemId →
      state.ownerOf collectionId itemId = some tx.sender → tx.receiver = tx.sender

namespace State

variable {s s₁ s₂ : State} {tx : Transaction} {error : String}

theorem SameRegistries.trans (h : s.SameRegistries s₁) (h' : s₁.SameRegistries s₂) :
    s.SameRegistries s₂ :=
  ⟨h'.assets.trans h.assets, h'.collections.trans h.collections, h'.channels.trans h.channels⟩

theorem SameRegistries.symm (h : s.SameRegistries s₁) : s₁.SameRegistries s :=
  ⟨h.assets.symm, h.collections.symm, h.channels.symm⟩

theorem SameRegistries.ownerOf (h : s.SameRegistries s₁) (collectionId : Bytes) (itemId : UInt64) :
    s₁.ownerOf collectionId itemId = s.ownerOf collectionId itemId := by
  unfold State.ownerOf
  rw [h.collections]

/-- A partner's closing of an open channel, when it fails, has marked the channel closed. -/
theorem channel_of_failed_close {channelId balanceProof : Bytes}
    {finalBalanceA finalBalanceB : UInt64} {channel : PaymentChannel}
    (h : s.processData crypto tx = (.error error, s₁))
    (hdata : tx.data = .closeChannel channelId balanceProof finalBalanceA finalBalanceB)
    (hchannel : s.channels.lookup channelId = some channel) (hopen : channel.isClosed = false)
    (hpartner : ¬ (tx.sender ≠ channel.partnerA ∧ tx.sender ≠ channel.partnerB)) :
    s₁.channels.lookup channelId = some channel.closed := by
  unfold processData closeChannel at h
  simp only [hdata, hchannel, hopen, Bool.false_eq_true, if_false, if_neg hpartner] at h
  split at h
  · rw [← (Prod.mk.inj h).2]
    exact Finmap.lookup_insert _
  · simp at h

/-- An owner's transfer of an item, when it fails, has changed the item's owner, and the sender
has no account. -/
theorem owner_of_failed_transfer {collectionId : Bytes} {itemId : UInt64}
    (h : s.processData crypto tx = (.error error, s₁))
    (hdata : tx.data = .transferNFT collectionId itemId)
    (howner : s.ownerOf collectionId itemId = some tx.sender) :
    s₁.ownerOf collectionId itemId = some tx.receiver := by
  obtain ⟨item, hfound, hsender⟩ := Option.map_eq_some_iff.mp howner
  obtain ⟨collection, hcollection, hitem⟩ := Option.bind_eq_some_iff.mp hfound
  unfold processData transferNFT at h
  simp only [hdata, hcollection, hitem, hsender, ne_eq, not_true_eq_false, if_false] at h
  split at h
  · rw [← (Prod.mk.inj h).2]
    apply (ownerOf_putItem hcollection itemId { item with owner := tx.receiver } _ _).trans
    rw [if_pos ⟨rfl, rfl⟩]
  · simp at h

/-- What a failed arm leaves in the registries differs from what was there exactly if it closes an
open channel or gives an item of its sender to someone else. -/
theorem sameRegistries_of_failed_iff (h : s.processData crypto tx = (.error error, s₁)) :
    s.SameRegistries s₁ ↔
      (∀ channelId balanceProof finalBalanceA finalBalanceB channel,
        tx.data = .closeChannel channelId balanceProof finalBalanceA finalBalanceB →
        s.channels.lookup channelId = some channel → channel.isClosed = false →
          tx.sender ≠ channel.partnerA ∧ tx.sender ≠ channel.partnerB) ∧
      (∀ collectionId itemId, tx.data = .transferNFT collectionId itemId →
        s.ownerOf collectionId itemId = some tx.sender → tx.receiver = tx.sender) := by
  constructor
  · intro hsame
    constructor
    · intro channelId balanceProof finalBalanceA finalBalanceB channel hdata hchannel hopen
      by_contra hpartner
      have hclosed := channel_of_failed_close h hdata hchannel hopen hpartner
      rw [hsame.channels, hchannel] at hclosed
      have hflag := congrArg PaymentChannel.isClosed (Option.some.inj hclosed)
      rw [hopen] at hflag
      exact Bool.false_ne_true hflag
    · intro collectionId itemId hdata howner
      have hafter := owner_of_failed_transfer h hdata howner
      rw [hsame.ownerOf, howner] at hafter
      exact (Option.some.inj hafter).symm
  · rintro ⟨hclosing, hmoving⟩
    cases residue_of_processData h with
    | unchanged => exact ⟨rfl, rfl, rfl⟩
    | debited => exact ⟨rfl, rfl, rfl⟩
    | markedClosed hdata hchannel hopen hpartner hsum =>
      obtain ⟨hnotA, hnotB⟩ := hclosing _ _ _ _ _ hdata hchannel hopen
      exact absurd hpartner (not_or.mpr ⟨hnotA, hnotB⟩)
    | @ownerChanged collectionId itemId collection item hdata hcollection hitem howner hsender =>
      have hown : s.ownerOf collectionId itemId = some tx.sender := by
        rw [ownerOf, hcollection, Option.bind_some, hitem, Option.map_some, howner]
      have hreceiver := hmoving collectionId itemId hdata hown
      refine ⟨rfl, collections_eq (unowned_ownedBy hcollection hitem _) fun other otherItem => ?_, rfl⟩
      rw [ownerOf_putItem hcollection]
      split
      · rename_i hsame
        rw [hsame.1, hsame.2, hown, ← hreceiver]
        rfl
      · rfl

end State

namespace Chain

variable {s s₁ s₂ : State} {tx : Transaction} {txs : List Transaction} {error : String}

/-- Transactions that all succeed without adding to the records enter none. -/
theorem enters_none_of_records (h : processTransactions crypto s txs = (.ok (), s₁))
    (hle : s₁.records ≤ s.records) : ∀ tx ∈ txs, tx.enters = false := by
  intro tx htx
  have hrecords := records_of_processTransactions h
  have hcount : txs.countP Transaction.enters = 0 := by omega
  exact Bool.eq_false_iff.mpr (List.countP_eq_zero.mp hcount tx htx)

/-- Transactions that all succeed leave the registries as they were exactly if they enter no
record and every item returns to its owner. -/
theorem sameRegistries_of_success_iff (h : processTransactions crypto s txs = (.ok (), s₁)) :
    s.SameRegistries s₁ ↔ (∀ tx ∈ txs, tx.enters = false) ∧
      ∀ collectionId itemId owner, s.ownerOf collectionId itemId = some owner →
        ownerAfter txs collectionId itemId owner = owner := by
  constructor
  · intro hsame
    have hnone := enters_none_of_records h (Nat.le_of_eq hsame.records)
    refine ⟨hnone, fun collectionId itemId owner howner => ?_⟩
    have hmoves := (onlyMoves_of_processTransactions h hnone).owners collectionId itemId
    rw [hsame.ownerOf, howner] at hmoves
    exact (Option.some.inj hmoves).symm
  · rintro ⟨hnone, howners⟩
    have hmoves := onlyMoves_of_processTransactions h hnone
    refine ⟨hmoves.assets, State.collections_eq hmoves.unowned fun collectionId itemId => ?_,
      hmoves.channels⟩
    rw [hmoves.owners]
    cases howner : s.ownerOf collectionId itemId with
    | none => rfl
    | some owner => rw [Option.map_some, howners collectionId itemId owner howner]

/-- A transaction that fails its own checks changes nothing; else its arm failed. -/
theorem processTransaction_error (h : processTransaction crypto s tx = (.error error, s₁)) :
    (¬ (tx.validate crypto = .ok () ∧ tx.nonce = s.getNonce tx.sender) ∧ s₁ = s) ∨
      ((tx.validate crypto = .ok () ∧ tx.nonce = s.getNonce tx.sender) ∧
        s.processData crypto tx = (.error error, s₁)) := by
  unfold processTransaction at h
  split at h
  · rename_i hinvalid
    refine .inl ⟨fun hchecks => ?_, (Prod.mk.inj h).2.symm⟩
    rw [hchecks.1] at hinvalid
    contradiction
  · rename_i hvalid
    unfold State.applyTransaction at h
    split at h
    · rename_i hnonce
      exact .inl ⟨fun hchecks => hnonce hchecks.2, (Prod.mk.inj h).2.symm⟩
    · rename_i hnonce
      refine .inr ⟨⟨hvalid, not_not.mp hnonce⟩, ?_⟩
      split at h
      · rename_i hprocess
        rw [hprocess]
        exact h
      · simp at h

/-- A failing transaction does not undo what the transactions before it did. -/
theorem sameRegistries_before (hbefore : processTransactions crypto s txs = (.ok (), s₁))
    (hfails : processTransaction crypto s₁ tx = (.error error, s₂)) (hsame : s.SameRegistries s₂) :
    s.SameRegistries s₁ := by
  rcases processTransaction_error hfails with ⟨-, rfl⟩ | ⟨-, hfailed⟩
  · exact hsame
  · have hresidue := State.residue_of_processData hfailed
    have hgrown := State.records_of_residue hresidue
    rw [hsame.records] at hgrown
    have hnone := enters_none_of_records hbefore hgrown
    have hmoves := onlyMoves_of_processTransactions hbefore hnone
    refine ⟨hmoves.assets, State.collections_eq hmoves.unowned fun collectionId itemId => ?_,
      hmoves.channels⟩
    rw [← hsame.ownerOf]
    cases hresidue with
    | unchanged | debited | markedClosed => rfl
    | @ownerChanged other otherItem collection item hdata hcollection hitem howner hsender =>
      rw [State.ownerOf_putItem hcollection]
      split
      · -- a sender without account did not receive the item in this block
        rename_i heq
        have hown : s₁.ownerOf other otherItem = some tx.sender := by
          rw [State.ownerOf, hcollection, Option.bind_some, hitem, Option.map_some, howner]
        have hstart := account_of_moved hbefore hnone hown
        rw [hsender, Option.isSome_none, or_iff_left Bool.false_ne_true, ← hsame.ownerOf,
          State.ownerOf_putItem hcollection, if_pos ⟨rfl, rfl⟩] at hstart
        rw [heq.1, heq.2, hown, hstart]
      · rfl

/-- How the execution of a block on the stored accounts ends in a rejection: at a transaction that
fails after others took effect, or at the state root. -/
inductive ExecutionFails (crypto : Crypto) (chain : Chain) (block : Block) :
    List Transaction → Option Transaction → Prop
  | failed {before after : List Transaction} {tx : Transaction} {error : String} {s₁ s₂ : State}
      (hblock : block.transactions = before ++ tx :: after)
      (hbefore : processTransactions crypto chain.state.discardChanges before = (.ok (), s₁))
      (hfails : processTransaction crypto s₁ tx = (.error error, s₂)) :
      ExecutionFails crypto chain block before (some tx)
  | mismatch {s₁ : State}
      (hbefore : processTransactions crypto chain.state.discardChanges block.transactions =
        (.ok (), s₁))
      (hroot : block.header.stateRoot ≠ "" ∧ block.header.stateRoot ≠ s₁.getRootHash) :
      ExecutionFails crypto chain block block.transactions none

/-- A block whose execution fails does not pass the checks. -/
theorem ExecutionFails.not_passes {chain : Chain} {block parent : Block} {before : List Transaction}
    {failing : Option Transaction} (h : ExecutionFails crypto chain block before failing) :
    ¬ chain.Passes crypto block parent := by
  intro hpasses
  have hexecutes := hpasses.executes
  cases h with
  | failed hblock hbefore hfails =>
    rw [hblock, processTransactions_append hbefore, processTransactions, hfails] at hexecutes
    contradiction
  | mismatch hbefore hroot =>
    have htrie := (storage_processTransactions crypto chain.state.discardChanges
      block.transactions).2
    rw [hbefore] at htrie
    rw [State.getRootHash, htrie] at hroot
    exact hpasses.root.elim hroot.1 hroot.2

/-- A failed execution leaves the registries as they were exactly if it is harmless. -/
theorem sameRegistries_of_execution_iff {chain : Chain} {block : Block} {before : List Transaction}
    {failing : Option Transaction} (h : ExecutionFails crypto chain block before failing) :
    chain.state.discardChanges.SameRegistries
        (processTransactions crypto chain.state.discardChanges block.transactions).2 ↔
      Harmless crypto chain.state.discardChanges before failing := by
  cases h with
  | mismatch hbefore hroot =>
    rw [hbefore, sameRegistries_of_success_iff hbefore]
    constructor
    · rintro ⟨hnone, howners⟩
      exact ⟨hnone, howners, fun _ h => by simp at h, fun _ h => by simp at h⟩
    · intro hharmless
      exact ⟨hharmless.records, hharmless.owners⟩
  | @failed _ after tx error s₁ s₂ hblock hbefore hfails =>
    have hexec : (processTransactions crypto chain.state.discardChanges block.transactions).2 = s₂ := by
      rw [hblock, processTransactions_append hbefore, processTransactions, hfails]
    have hdue : Due crypto chain.state.discardChanges before tx ↔
        tx.validate crypto = .ok () ∧ tx.nonce = s₁.getNonce tx.sender := by
      rw [(nonces_of_processTransactions hbefore tx.sender).2]
      exact ⟨fun h => ⟨h.valid, h.nonce⟩, fun h => ⟨h.1, h.2⟩⟩
    rw [hexec]
    constructor
    · intro hsame
      have hfirst := sameRegistries_before hbefore hfails hsame
      have hlast : s₁.SameRegistries s₂ := hfirst.symm.trans hsame
      obtain ⟨hnone, howners⟩ := (sameRegistries_of_success_iff hbefore).mp hfirst
      have hfailed : Due crypto chain.state.discardChanges before tx →
          s₁.processData crypto tx = (.error error, s₂) := by
        intro hdue'
        rcases processTransaction_error hfails with ⟨hchecks, -⟩ | ⟨-, hfailed⟩
        · exact absurd (hdue.mp hdue') hchecks
        · exact hfailed
      have hfailing := fun hdue' => (State.sameRegistries_of_failed_iff (hfailed hdue')).mp hlast
      simp only [hfirst.channels, hfirst.ownerOf] at hfailing
      refine ⟨hnone, howners, fun other hother => ?_, fun other hother => ?_⟩
      · obtain rfl := Option.some.inj hother
        exact fun hdue' => (hfailing hdue').1
      · obtain rfl := Option.some.inj hother
        exact fun hdue' => (hfailing hdue').2
    · intro hharmless
      have hfirst := (sameRegistries_of_success_iff hbefore).mpr ⟨hharmless.records, hharmless.owners⟩
      rcases processTransaction_error hfails with ⟨-, rfl⟩ | ⟨hchecks, hfailed⟩
      · exact hfirst
      · refine hfirst.trans ((State.sameRegistries_of_failed_iff hfailed).mpr ?_)
        simp only [hfirst.channels, hfirst.ownerOf]
        exact ⟨hharmless.closing tx rfl (hdue.mpr hchecks), hharmless.moving tx rfl (hdue.mpr hchecks)⟩

/-- Nothing that the ledger later depends on differs between two chains. -/
structure NoTrace (before after : Chain) : Prop where
  accounts : ∀ address, after.state.getAccount address = before.state.getAccount address
  registries : before.state.SameRegistries after.state
  validators : after.validators = before.validators
  head : after.head = before.head
  blocks : after.storage.blocks = before.storage.blocks
  heights : after.storage.heights = before.storage.heights
  txIndex : after.storage.txIndex = before.storage.txIndex
  historyCount : after.storage.historyCount = before.storage.historyCount
  history : after.storage.history = before.storage.history

/-- A rollback leaves no trace exactly if the overlay had nothing of its own and the registries
are as they were. -/
theorem noTrace_of_rollback_iff {host : Host} {chain : Chain} {block : Block}
    {result : Except String Unit} {state : State}
    (hexec : processTransactions crypto (chain.recordHeader host block).state.discardChanges
      block.transactions = (result, state)) :
    NoTrace chain ((chain.recordHeader host block).withState state.discardChanges) ↔
      (∀ address, chain.state.getAccount address = chain.storage.getAccount address) ∧
        chain.state.SameRegistries state := by
  obtain ⟨seenHeaders, headers, hrecord⟩ := recordHeader_frame host chain block
  obtain ⟨headers', hstorage⟩ := storage_of_execution_frame hexec
  have hafter : ((chain.recordHeader host block).withState state.discardChanges).storage =
      { chain.state.storage with headers := headers' } := hstorage
  have haccount : ∀ address,
      ((chain.recordHeader host block).withState state.discardChanges).state.getAccount address =
        chain.storage.getAccount address := by
    intro address
    change ((chain.recordHeader host block).withState state.discardChanges).storage.getAccount address = _
    rw [hafter]
    rfl
  constructor
  · intro htrace
    exact ⟨fun address => (htrace.accounts address).symm.trans (haccount address),
      htrace.registries.assets, htrace.registries.collections, htrace.registries.channels⟩
  · rintro ⟨hoverlay, hassets, hcollections, hchannels⟩
    refine ⟨fun address => (haccount address).trans (hoverlay address).symm,
      ⟨hassets, hcollections, hchannels⟩, ?_, ?_, ?_, ?_, ?_, ?_, ?_⟩
    · rw [validators_withState, validators_recordHeader]
    · rw [hrecord]
      rfl
    all_goals
      rw [hafter]
      rfl

/-- Every call of `add_block` that rejects a block for a failing transaction or for its state root
leaves no trace exactly if no refund waited in the overlay and the execution was harmless. -/
theorem rejected_without_trace_iff {host : Host} {chain chain' : Chain} {block parent : Block}
    {before : List Transaction} {failing : Option Transaction} {accepted : Bool}
    (hparent : chain.getBlock block.header.parentHash = some parent)
    (hconsistent : chain.Consistent block)
    (hvalid : Consensus.validateBlock crypto block parent chain.validators = .ok ())
    (hfails : ExecutionFails crypto chain block before failing)
    (h : addBlock crypto host chain block = some (accepted, chain')) :
    accepted = false ∧
      (NoTrace chain chain' ↔
        (∀ address, chain.state.getAccount address = chain.storage.getAccount address) ∧
          Harmless crypto chain.state.discardChanges before failing) := by
  rw [← sameRegistries_of_execution_iff hfails]
  cases delivery_of_addBlock h with
  | orphan hnone => simp [hparent] at hnone
  | equivocation _ hexisting hne => exact absurd (hconsistent _ hexisting) hne
  | invalid hparent' _ hinvalid =>
    obtain rfl := Option.some.inj (hparent.symm.trans hparent')
    simp [hvalid] at hinvalid
  | failed _ _ _ hexec | mismatch _ _ _ hexec _ =>
    refine ⟨rfl, (noTrace_of_rollback_iff hexec).trans (and_congr_right fun _ => ?_)⟩
    obtain ⟨-, hassets, hcollections, hchannels⟩ := Ledger.mk.inj (execution_eq hexec).2
    constructor
    · rintro ⟨hassets', hcollections', hchannels'⟩
      exact ⟨hassets.symm.trans hassets', hcollections.symm.trans hcollections',
        hchannels.symm.trans hchannels'⟩
    · rintro ⟨hassets', hcollections', hchannels'⟩
      exact ⟨hassets.trans hassets', hcollections.trans hcollections', hchannels.trans hchannels'⟩
  | commit hparent' hconsistent' hvalid' hexec hroot _ =>
    exact absurd (passes_of_commit hparent' hconsistent' hvalid' hexec hroot) hfails.not_passes

/-- Alice's first transaction creates a collection. -/
def creation : Transaction :=
  Transaction.new Crypto.plain Sample.alice Sample.alice (.createCollection "Art" "ART" []) 0
    Sample.alice

/-- A block in which Alice creates a collection and then cannot pay. -/
def unpaidCreation : Block := Sample.block Sample.genesis 1 [creation, Sample.transfer 1000 1]

/-- The block is rejected, and the collection stays. -/
theorem rejected_block_left_collection :
    ∃ chain chain' before failing, Sample.start = some chain ∧
      addBlock Crypto.plain Host.plain chain unpaidCreation = some (false, chain') ∧
      ExecutionFails Crypto.plain chain unpaidCreation before failing ∧ ¬ NoTrace chain chain' := by
  have hcheck : (Sample.start.bind fun chain =>
      (addBlock Crypto.plain Host.plain chain unpaidCreation).map fun result =>
        decide (result.1 = false ∧ result.2.state.collections ≠ chain.state.collections ∧
          (processTransactions Crypto.plain chain.state.discardChanges
            [creation]).1 = .ok () ∧
          (processTransaction Crypto.plain (processTransactions Crypto.plain
            chain.state.discardChanges [creation]).2
              (Sample.transfer 1000 1)).1 = .error "Insufficient native balance")) = some true := by
    decide +kernel
  obtain ⟨chain, hstart, hcall⟩ := Option.bind_eq_some_iff.mp hcheck
  obtain ⟨⟨accepted, chain'⟩, hadd, hdecide⟩ := Option.map_eq_some_iff.mp hcall
  obtain ⟨rfl, hcollections, hbefore, hfails⟩ := of_decide_eq_true hdecide
  have hblock : unpaidCreation.transactions = [creation] ++ Sample.transfer 1000 1 :: [] :=
    Sample.transactions_block _ _ _
  exact ⟨chain, chain', _, _, hstart, hadd,
    .failed hblock (Prod.fst_eq_iff.mp hbefore) (Prod.fst_eq_iff.mp hfails),
    fun htrace => hcollections htrace.registries.collections⟩

/-- A block in which Alice pays once and then cannot pay. -/
def unpaidTransfer : Block :=
  Sample.block Sample.genesis 1 [Sample.transfer 10 0, Sample.transfer 1000 1]

/-- The block is rejected without a trace. -/
theorem rejected_without_trace_iff_transfers :
    ∃ chain chain', Sample.start = some chain ∧
      addBlock Crypto.plain Host.plain chain unpaidTransfer = some (false, chain') ∧
      NoTrace chain chain' := by
  have hcheck : (Sample.start.bind fun chain =>
      (addBlock Crypto.plain Host.plain chain unpaidTransfer).map fun result =>
        decide (result.1 = false ∧
          chain.getBlock unpaidTransfer.header.parentHash = some Sample.genesis ∧
          chain.existingHash 1 Sample.validator = none ∧
          Consensus.validateBlock Crypto.plain unpaidTransfer Sample.genesis chain.validators = .ok () ∧
          (processTransactions Crypto.plain chain.state.discardChanges [Sample.transfer 10 0]).1 =
            .ok () ∧
          (processTransaction Crypto.plain (processTransactions Crypto.plain
            chain.state.discardChanges [Sample.transfer 10 0]).2
              (Sample.transfer 1000 1)).1 = .error "Insufficient native balance")) = some true := by
    decide +kernel
  obtain ⟨chain, hstart, hcall⟩ := Option.bind_eq_some_iff.mp hcheck
  obtain ⟨⟨accepted, chain'⟩, hadd, hdecide⟩ := Option.map_eq_some_iff.mp hcall
  obtain ⟨rfl, hparent, hunseen, hvalid, hbefore, hfails⟩ := of_decide_eq_true hdecide
  have hconsistent : chain.Consistent unpaidTransfer := by
    intro existing hexisting
    exact absurd (hunseen.symm.trans hexisting) (by simp)
  have hblock : unpaidTransfer.transactions =
      [Sample.transfer 10 0] ++ Sample.transfer 1000 1 :: [] := Sample.transactions_block _ _ _
  have hfails : ExecutionFails Crypto.plain chain unpaidTransfer [Sample.transfer 10 0]
      (some (Sample.transfer 1000 1)) :=
    .failed hblock (Prod.fst_eq_iff.mp hbefore) (Prod.fst_eq_iff.mp hfails)
  refine ⟨chain, chain', hstart, hadd,
    (rejected_without_trace_iff hparent hconsistent hvalid hfails hadd).2.mpr ⟨fun address => ?_, ?_⟩⟩
  · obtain ⟨trie, rfl⟩ := start_eq Host.plain_reliable hstart
    rfl
  · refine ⟨?_, fun _ _ _ _ => rfl, ?_, ?_⟩
    · intro tx htx
      obtain rfl := List.mem_singleton.mp htx
      rfl
    · rintro tx htx - channelId balanceProof finalBalanceA finalBalanceB channel hdata
      obtain rfl := Option.some.inj htx
      simp [Sample.data_transfer] at hdata
    · rintro tx htx - collectionId itemId hdata
      obtain rfl := Option.some.inj htx
      simp [Sample.data_transfer] at hdata

end Chain

end Nocostcoin
