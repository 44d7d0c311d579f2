import Nocostcoin.Chain.OneBlock
import Nocostcoin.Chain.Replay
import Nocostcoin.Chain.ForkChoice
import Nocostcoin.Chain.Staking

/-!
# Delivering an accepted block again

The second delivery of an accepted block finds its own header on record, and the nonce of its first
transaction used up in the stored accounts. What is left of `add_block` are the roll-back to the stored
accounts and, for a block without transactions, a second commit, so the delivery is harmless where these
two write nothing new.
-/

namespace Nocostcoin

open Execution

variable {crypto : Crypto} {host : Host}

/-- Putting an entry changes no lookup exactly when the entry is there. -/
theorem FiniteMap.lookup_insert_eq_iff {κ ν : Type} [DecidableEq κ] (m : FiniteMap κ ν) (k : κ) (v : ν) :
    (∀ k', Finmap.lookup k' (m.insert k v) = m.lookup k') ↔ m.lookup k = some v := by
  constructor
  · intro h
    rw [← h k]
    exact Finmap.lookup_insert m
  · intro h k'
    rw [FiniteMap.lookup_insert_ite]
    split
    · rename_i heq
      rw [heq, h]
    · rfl

/-- Committing an empty overlay writes nothing. -/
theorem State.applyChanges_of_empty {state : State} (hempty : state.pendingChanges = ∅) :
    state.applyChanges crypto host = some (.ok (), state) := by
  have hwalk : ∀ addresses, storeChanges crypto host addresses state = some (.ok (), state) := by
    intro addresses
    induction addresses with
    | nil => rfl
    | cons address rest ih =>
      rw [storeChanges, hempty, Finmap.lookup_empty]
      exact ih
  unfold applyChanges
  rw [hwalk]
  change some (_, { state with pendingChanges := ∅ }) = _
  rw [← hempty]

namespace Chain

variable {chain chain' start : Chain} {block : Block} {accepted : Bool} {address : Bytes}
  {calls : List (Call Chain Request Bool)}

/-- The nonce of the stored account. -/
def storedNonce (chain : Chain) (address : Bytes) : UInt64 :=
  ((chain.storage.getAccount address).map Account.nonce).getD 0

/-- A state without an overlay reports the stored nonces. -/
theorem getNonce_eq_storedNonce {state : State} (h : state.storage.accounts = chain.storage.accounts)
    (address : Bytes) : state.discardChanges.getNonce address = chain.storedNonce address := by
  have haccount : state.discardChanges.getAccount address = chain.storage.getAccount address :=
    congrArg (Finmap.lookup address) h
  rw [State.getNonce, haccount]
  rfl

/-- The stored nonce moves up by so many. -/
def Advances (address : Bytes) (chain chain' : Chain) (count : ℕ) : Prop :=
  chain'.storedNonce address = chain.storedNonce address + UInt64.ofNat count

/-- Where the stored accounts stay, so do the nonces. -/
theorem Advances.of_accounts (h : chain'.storage.accounts = chain.storage.accounts) :
    Advances address chain chain' 0 := by
  unfold Advances storedNonce Storage.getAccount
  rw [h]
  exact (UInt64.add_zero _).symm

/-- Two moves are one. -/
theorem Advances.trans {middle : Chain} {m n : ℕ} (hfirst : Advances address chain middle m)
    (hsecond : Advances address middle chain' n) : Advances address chain chain' (m + n) := by
  unfold Advances at *
  rw [hsecond, hfirst, UInt64.ofNat_add, UInt64.add_assoc]

/-- The commit of an executed block leaves every stored nonce or moves it to the executed one; if it
finishes, it moves all of them. -/
theorem storedNonce_of_commit {state : State}
    (h : CommitOutcome crypto host (chain.withState state) block accepted chain') (address : Bytes) :
    (chain'.storedNonce address = (chain.withState state).storedNonce address ∨
        chain'.storedNonce address = state.getNonce address) ∧
      (accepted = true → chain'.storedNonce address = state.getNonce address) := by
  have hnonce : state.getNonce address =
      ((state.accounts.lookup address).map Account.nonce).getD 0 := by
    rw [State.getNonce, State.getAccount_eq_lookup]
  cases h with
  | blockRefused => exact ⟨.inl rfl, by simp⟩
  | accountRefused head happly =>
    refine ⟨?_, by simp⟩
    unfold storedNonce storage Storage.getAccount
    rcases State.stored_of_applyChanges happly address with hbefore | hcurrent
    · exact .inl (by rw [hbefore]; rfl)
    · exact .inr (by rw [hcurrent, hnonce]; rfl)
  | finished head heights happly =>
    obtain ⟨trie, rfl⟩ := State.applyChanges_ok happly
    obtain ⟨pending, storage, hfold, ⟨txIndex, historyCount, history, rfl⟩, -, -⟩ :=
      foldl_indexTransaction_frame crypto host block block.transactions _
    have hafter : ∀ {chain' : Chain}, chain'.storage.accounts = state.accounts →
        chain'.storedNonce address = state.getNonce address := by
      intro chain' haccounts
      unfold storedNonce Storage.getAccount
      rw [haccounts, hnonce]
    rw [hfold]
    exact ⟨.inr (hafter rfl), fun _ => hafter rfl⟩

/-- A delivery moves a stored nonce by at most what the address sent in the block; an accepted block
carries the stored nonce and the following ones, and moves it by all of them. -/
theorem advances_of_delivery (h : Delivery crypto host chain block accepted chain') (address : Bytes) :
    (∃ count ≤ sentBy address block.transactions, Advances address chain chain' count) ∧
      (accepted = true →
        noncesOf address block.transactions =
            nonceRange (chain.storedNonce address) (sentBy address block.transactions) ∧
          Advances address chain chain' (sentBy address block.transactions)) := by
  obtain ⟨seenHeaders, headers, hrecord⟩ := recordHeader_frame host chain block
  cases h with
  | orphan | equivocation => exact ⟨⟨0, Nat.zero_le _, .of_accounts rfl⟩, by simp⟩
  | invalid => exact ⟨⟨0, Nat.zero_le _, .of_accounts (by rw [hrecord]; rfl)⟩, by simp⟩
  | failed _ _ _ hexec | mismatch _ _ _ hexec =>
    obtain ⟨headers', hstorage⟩ := storage_of_execution_frame hexec
    refine ⟨⟨0, Nat.zero_le _, .of_accounts ?_⟩, by simp⟩
    change (State.discardChanges _).storage.accounts = _
    rw [State.discardChanges, hstorage]
    rfl
  | @commit parent state accepted chain' _ _ _ hexec _ hcommit =>
    obtain ⟨hconsecutive, hexecuted⟩ := nonces_of_processTransactions hexec address
    have hbefore : (chain.recordHeader host block).state.discardChanges.getNonce address =
        chain.storedNonce address := by
      apply getNonce_eq_storedNonce
      rw [hrecord]
      rfl
    rw [hbefore] at hconsecutive hexecuted
    obtain ⟨headers', hstorage⟩ := storage_of_execution_frame hexec
    have hkept : ((chain.recordHeader host block).withState state).storedNonce address =
        chain.storedNonce address := by
      unfold storedNonce storage withState
      rw [hstorage]
      rfl
    obtain ⟨hstored, hfinished⟩ := storedNonce_of_commit (commitOutcome_of_commitBlock hcommit) address
    refine ⟨?_, fun haccepted => ⟨hconsecutive, (hfinished haccepted).trans hexecuted⟩⟩
    rcases hstored with hsame | hmoved
    · exact ⟨0, Nat.zero_le _, (hsame.trans hkept).trans (UInt64.add_zero _).symm⟩
    · exact ⟨_, le_rfl, hmoved.trans hexecuted⟩

/-- A restart on any database keeps every stored nonce. -/
theorem advances_of_start {genesisBlock : Block} {balances stakes : List (Bytes × UInt64)}
    (h : Chain.start crypto host chain.storage genesisBlock balances stakes = some chain')
    (address : Bytes) : Advances address chain chain' 0 := by
  obtain ⟨opened, hnew, h⟩ := Option.bind_eq_some_iff.mp h
  obtain ⟨⟨result, state⟩, happly, h⟩ := Option.bind_eq_some_iff.mp h
  obtain rfl := Option.some.inj h
  obtain ⟨trie, rfl⟩ := new_eq hnew
  obtain ⟨pending, hfold, haccounts⟩ := State.foldl_setBalance balances
    { State.empty with storage := chain.storage.opened genesisBlock, trie }
  rw [hfold] at happly
  have hopened : State.accounts
      { State.empty with storage := chain.storage.opened genesisBlock, trie } =
        chain.storage.accounts := by
    change ∅ ∪ (chain.storage.opened genesisBlock).accounts = _
    rw [Finmap.empty_union, Storage.accounts_opened]
  unfold Advances storedNonce storage Storage.getAccount
  change _ = _ + 0
  rw [UInt64.add_zero]
  rcases State.stored_of_applyChanges happly address with hbefore | hcurrent
  · rw [hbefore]
    exact congrArg (fun accounts => ((Finmap.lookup address accounts).map Account.nonce).getD 0)
      (Storage.accounts_opened chain.storage genesisBlock)
  · rw [hcurrent, haccounts, hopened]
    exact nonce_fundedAccounts chain.storage.accounts balances address

/-- The transactions of the block that a request delivers. -/
def Request.transactions : Request → List Transaction
  | .deliver _ block => block.transactions
  | _ => []

/-- The transactions of all the blocks delivered in a run, accepted or not. -/
def deliveredIn (calls : List (Call Chain Request Bool)) : List Transaction :=
  calls.flatMap fun call => call.label.transactions

/-- A run on any databases moves a stored nonce by at most what the address sent in delivered blocks. -/
theorem advances_of_run (hrun : Run (serve crypto) start calls chain) (address : Bytes) :
    ∃ count ≤ sentBy address (deliveredIn calls), Advances address start chain count := by
  induction hrun with
  | nil => exact ⟨0, Nat.zero_le _, .of_accounts rfl⟩
  | @snoc calls s s' request output _ hnext ih =>
    obtain ⟨m, hm, hbefore⟩ := ih
    have hlast : ∃ n ≤ sentBy address request.transactions, Advances address s s' n := by
      cases request with
      | deliver host block => exact (advances_of_delivery (delivery_of_addBlock hnext) address).1
      | vote host vote =>
        obtain ⟨votes, stored, finalizedHead, rfl⟩ := serve_vote_frame hnext
        exact ⟨0, Nat.zero_le _, .of_accounts rfl⟩
      | reopen host genesisBlock balances stakes =>
        exact ⟨0, Nat.zero_le _, advances_of_start (start_of_serve hnext) address⟩
    obtain ⟨n, hn, hafter⟩ := hlast
    refine ⟨m + n, ?_, hbefore.trans hafter⟩
    have hsplit : deliveredIn (calls ++ [⟨s, request, output, s'⟩]) =
        deliveredIn calls ++ request.transactions := by
      simp [deliveredIn]
    rw [hsplit, sentBy_append]
    exact Nat.add_le_add hm hn

/-- Some call of a run accepted the block: the calls before it, the delivery, and the calls after it. -/
theorem AcceptedIn.split (haccepted : AcceptedIn calls block)
    (hrun : Run (serve crypto) start calls chain) :
    ∃ before host pre post after,
      calls = before ++ ⟨pre, .deliver host block, true, post⟩ :: after ∧
        Delivery crypto host pre block true post ∧ Run (serve crypto) post after chain := by
  obtain ⟨call, hcall, hdelivered, houtput⟩ := haccepted
  have hnext := hrun.next_of_mem hcall
  obtain ⟨before, after, rfl⟩ := List.append_of_mem hcall
  obtain ⟨pre, request, output, post⟩ := call
  obtain rfl : output = true := houtput
  cases request with
  | deliver host delivered =>
    obtain rfl := Option.some.inj hdelivered
    exact ⟨before, host, pre, post, after, rfl, delivery_of_addBlock hnext, hrun.around.2⟩
  | vote host vote => simp [Request.delivered] at hdelivered
  | reopen host genesisBlock balances stakes => simp [Request.delivered] at hdelivered

/-- After a block was accepted, the nonce of its first transaction is no longer the stored one. -/
theorem nonce_used (hrun : Run (serve crypto) start calls chain) (haccepted : AcceptedIn calls block)
    (hfew : (deliveredIn calls).length < 2 ^ 64) {tx : Transaction} {rest : List Transaction}
    (htxs : block.transactions = tx :: rest) : tx.nonce ≠ chain.storedNonce tx.sender := by
  obtain ⟨before, host, pre, post, after, rfl, hdelivery, hafter⟩ := haccepted.split hrun
  obtain ⟨hnonces, hmoved⟩ := (advances_of_delivery hdelivery tx.sender).2 rfl
  obtain ⟨count, hcount, hlater⟩ := advances_of_run hafter tx.sender
  obtain ⟨others, hothers⟩ : ∃ others, sentBy tx.sender block.transactions = others + 1 := by
    rw [htxs, sentBy, noncesOf_cons, if_pos rfl]
    exact ⟨_, rfl⟩
  have hfirst : tx.nonce = pre.storedNonce tx.sender := by
    rw [hothers, htxs, noncesOf_cons, if_pos rfl, Nat.add_comm, nonceRange_add] at hnonces
    exact (List.cons.inj hnonces).1.trans (UInt64.add_zero _)
  have hall := hmoved.trans hlater
  unfold Advances at hall
  rw [hall, hfirst]
  intro hsame
  have hsplit : (deliveredIn (before ++ ⟨pre, .deliver host block, true, post⟩ :: after)).length =
      (deliveredIn before).length + (block.transactions.length + (deliveredIn after).length) := by
    simp [deliveredIn, Request.transactions]
  have hblock := sentBy_le_length tx.sender block.transactions
  have hrest := sentBy_le_length tx.sender (deliveredIn after)
  -- the nonce moved at least once and fewer than `2 ^ 64` times
  have hround : pre.storedNonce tx.sender + UInt64.ofNat 0 = pre.storedNonce tx.sender +
      UInt64.ofNat (sentBy tx.sender block.transactions + count) := (UInt64.add_zero _).trans hsame
  have hmoves := step_inj (by omega) (by omega) hround
  omega

/-- A block whose first transaction carries another nonce than its sender fails there, before anything
is written. -/
theorem processTransactions_used {state : State} {tx : Transaction} {rest : List Transaction}
    (hused : tx.nonce ≠ state.getNonce tx.sender) :
    ∃ error, processTransactions crypto state (tx :: rest) = (.error error, state) := by
  have hfirst : ∃ error, processTransaction crypto state tx = (.error error, state) := by
    unfold processTransaction
    split
    · exact ⟨_, rfl⟩
    · unfold State.applyTransaction
      rw [if_pos hused]
      exact ⟨_, rfl⟩
  obtain ⟨error, hfirst⟩ := hfirst
  exact ⟨error, by rw [processTransactions, hfirst]⟩

/-- The head after the fork choice. -/
theorem head_chooseHead (host : Host) (chain : Chain) (block currentHead : Block) :
    (chain.chooseHead host block currentHead).head =
      if Consensus.isBetterBlock block currentHead then block.hash else chain.head := by
  unfold chooseHead
  split <;> rfl

/-- What the commit of a block without transactions leaves: the head of the fork choice, and the block and
its height entry as far as the database takes them. -/
theorem commitBlock_empty (hempty : block.transactions = []) {state : State}
    (h : commitBlock crypto host (chain.withState state.discardChanges) block = some (accepted, chain')) :
    ∃ currentHead storedHead, state.storage.getBlock chain.head = some currentHead ∧
      chain' = { chain with
        head := if Consensus.isBetterBlock block currentHead then block.hash else chain.head
        state := { state.discardChanges with storage := { state.storage with
          head := storedHead
          blocks := if host.disk (.block block) = none then
            state.storage.blocks.insert block.hash block else state.storage.blocks
          heights := if host.disk (.block block) = none ∧
              host.disk (.height block.header.slot block.hash) = none then
            state.storage.heights.insert block.header.slot block.hash else state.storage.heights } } } := by
  obtain ⟨currentHead, hcurrent, h⟩ := Option.bind_eq_some_iff.mp h
  obtain ⟨head, storedHead, hchoose⟩ :=
    chooseHead_frame host (chain.withState state.discardChanges) block currentHead
  have hhead : (if Consensus.isBetterBlock block currentHead then block.hash else chain.head) = head :=
    (head_chooseHead host (chain.withState state.discardChanges) block currentHead).symm.trans
      (congrArg Chain.head hchoose)
  refine ⟨currentHead, storedHead, hcurrent, ?_⟩
  rw [hhead]
  rw [hchoose] at h
  dsimp only at h
  cases hblock : host.disk (.block block) with
  | some error =>
    have hrefused : ∀ storage : Storage, storage.storeBlock host.disk block =
        (.error ("Failed to store block" ++ ": " ++ error), storage) := by
      intro storage
      rw [Storage.storeBlock, Storage.write, hblock]
    rw [hrefused] at h
    obtain ⟨-, rfl⟩ := Prod.mk.inj (Option.some.inj h)
    rw [if_neg (by simp), if_neg (by simp)]
    rfl
  | none =>
    have hstored : ∀ storage : Storage, storage.storeBlock host.disk block =
        (.ok (), storage.put (.block block)) := by
      intro storage
      rw [Storage.storeBlock, Storage.write, hblock]
    rw [hstored] at h
    obtain ⟨⟨result, applied⟩, happly, h⟩ := Option.bind_eq_some_iff.mp h
    rw [State.applyChanges_of_empty rfl] at happly
    obtain ⟨rfl, rfl⟩ := Prod.mk.inj (Option.some.inj happly)
    rw [hempty] at h
    obtain ⟨-, rfl⟩ := Prod.mk.inj (Option.some.inj h)
    rw [if_pos rfl]
    unfold logged Storage.storeBlockByHeight Storage.write
    cases hheight : host.disk (.height block.header.slot block.hash) with
    | some error =>
      rw [if_neg (by simp)]
      rfl
    | none =>
      rw [if_pos ⟨rfl, rfl⟩]
      rfl

/-- Nothing that can be read from the chain has changed: the head, the stored blocks and the height index,
the accounts and registries, the validators, the transaction index and the histories. -/
structure Undisturbed (chain chain' : Chain) : Prop where
  head : chain'.head = chain.head
  blocks : ∀ hash, chain'.getBlock hash = chain.getBlock hash
  heights : ∀ slot, chain'.storage.getBlockByHeight slot = chain.storage.getBlockByHeight slot
  accounts : ∀ address, chain'.state.getAccount address = chain.state.getAccount address
  assets : chain'.state.assets = chain.state.assets
  collections : chain'.state.collections = chain.state.collections
  channels : chain'.state.channels = chain.state.channels
  validators : chain'.validators = chain.validators
  txIndex : chain'.storage.txIndex = chain.storage.txIndex
  historyCount : chain'.storage.historyCount = chain.storage.historyCount
  history : chain'.storage.history = chain.storage.history

/-- Every account is stored as the state reports it. -/
def AccountsStored (chain : Chain) : Prop :=
  ∀ address, chain.state.getAccount address = chain.storage.getAccount address

/-- What the commit of the block writes is there already: the block is the head or not better than it, it is
what is stored under its hash, and its hash is the entry of its slot, as far as the database takes these
two writes. -/
structure Restates (host : Host) (chain : Chain) (block : Block) : Prop where
  head : ∀ currentHead, chain.getHead = some currentHead →
    Consensus.isBetterBlock block currentHead = true → chain.head = block.hash
  stored : host.disk (.block block) = none → chain.getBlock block.hash = some block
  indexed : host.disk (.block block) = none →
    host.disk (.height block.header.slot block.hash) = none →
      chain.storage.getBlockByHeight block.header.slot = some block.hash

/-- The condition on the state before a second delivery over a stored parent: no other hash is on record for
the block's slot and validator, or the validator has nothing to lose; and where the block is valid still,
the accounts are stored, and the commit of a block without transactions restates what is there. -/
def Repeatable (crypto : Crypto) (host : Host) (chain : Chain) (block : Block) : Prop :=
  ∀ parent, chain.getBlock block.header.parentHash = some parent →
    (chain.Consistent block ∨
      (chain.validators.slashValidator block.header.validatorPubkey).2 = chain.validators) ∧
    (chain.Consistent block →
      Consensus.validateBlock crypto block parent chain.validators = .ok () →
        chain.AccountsStored ∧ (block.transactions = [] →
          ¬ (block.header.stateRoot ≠ "" ∧ block.header.stateRoot ≠ chain.state.getRootHash) →
            chain.Restates host block))

/-- The roll-back to the stored accounts disturbs nothing exactly when the accounts are settled. -/
theorem undisturbed_rollback_iff :
    Undisturbed chain (chain.withState chain.state.discardChanges) ↔ chain.AccountsStored := by
  constructor
  · intro h address
    exact (h.accounts address).symm
  · intro hsettled
    exact ⟨rfl, fun _ => rfl, fun _ => rfl, fun address => (hsettled address).symm, rfl, rfl, rfl, rfl,
      rfl, rfl, rfl⟩

/-- The commit of a block without transactions disturbs nothing exactly when the accounts are settled and
it restates what is there. -/
theorem undisturbed_commit_iff (hempty : block.transactions = [])
    (h : commitBlock crypto host (chain.withState chain.state.discardChanges) block =
      some (accepted, chain')) :
    Undisturbed chain chain' ↔ chain.AccountsStored ∧ chain.Restates host block := by
  obtain ⟨currentHead, storedHead, hcurrent, rfl⟩ := commitBlock_empty hempty h
  constructor
  · intro hsame
    refine ⟨fun address => (hsame.accounts address).symm, ?_, fun hblock => ?_, fun hblock hheight => ?_⟩
    · intro head hhead hbetter
      obtain rfl := Option.some.inj (hcurrent.symm.trans hhead)
      have hafter : (if Consensus.isBetterBlock block currentHead then block.hash else chain.head) =
          chain.head := hsame.head
      rw [if_pos hbetter] at hafter
      exact hafter.symm
    · have hblocks : ∀ hash, Finmap.lookup hash (if host.disk (.block block) = none then
          chain.state.storage.blocks.insert block.hash block else chain.state.storage.blocks) =
            chain.state.storage.blocks.lookup hash := hsame.blocks
      rw [if_pos hblock] at hblocks
      exact (FiniteMap.lookup_insert_eq_iff _ _ _).mp hblocks
    · have hheights : ∀ slot, Finmap.lookup slot (if host.disk (.block block) = none ∧
          host.disk (.height block.header.slot block.hash) = none then
            chain.state.storage.heights.insert block.header.slot block.hash
          else chain.state.storage.heights) = chain.state.storage.heights.lookup slot := hsame.heights
      rw [if_pos ⟨hblock, hheight⟩] at hheights
      exact (FiniteMap.lookup_insert_eq_iff _ _ _).mp hheights
  · rintro ⟨hsettled, hhead, hstored, hindexed⟩
    refine ⟨?_, fun hash => ?_, fun slot => ?_, fun address => (hsettled address).symm, rfl, rfl, rfl, rfl,
      rfl, rfl, rfl⟩
    · change (if Consensus.isBetterBlock block currentHead then block.hash else chain.head) = _
      split
      · rename_i hbetter
        exact (hhead currentHead hcurrent hbetter).symm
      · rfl
    · change Finmap.lookup hash (if host.disk (.block block) = none then
        chain.state.storage.blocks.insert block.hash block else chain.state.storage.blocks) =
          chain.state.storage.blocks.lookup hash
      split
      · rename_i hblock
        exact (FiniteMap.lookup_insert_eq_iff _ _ _).mpr (hstored hblock) hash
      · rfl
    · change Finmap.lookup slot (if host.disk (.block block) = none ∧
          host.disk (.height block.header.slot block.hash) = none then
        chain.state.storage.heights.insert block.header.slot block.hash
          else chain.state.storage.heights) = chain.state.storage.heights.lookup slot
      split
      · rename_i hboth
        exact (FiniteMap.lookup_insert_eq_iff _ _ _).mpr (hindexed hboth.1 hboth.2) slot
      · rfl

/-- Recording a header disturbs nothing. -/
theorem undisturbed_recordHeader (host : Host) (chain : Chain) (block : Block) :
    Undisturbed chain (chain.recordHeader host block) := by
  obtain ⟨seenHeaders, headers, hrecord⟩ := recordHeader_frame host chain block
  rw [hrecord]
  exact ⟨rfl, fun _ => rfl, fun _ => rfl, fun _ => rfl, rfl, rfl, rfl, rfl, rfl, rfl, rfl⟩

/-- A step that disturbs nothing can be left out in front. -/
theorem Undisturbed.iff_of_first {middle : Chain} (h : Undisturbed chain middle) :
    Undisturbed chain chain' ↔ Undisturbed middle chain' := by
  constructor
  · intro h'
    exact ⟨h'.head.trans h.head.symm, fun hash => (h'.blocks hash).trans (h.blocks hash).symm,
      fun slot => (h'.heights slot).trans (h.heights slot).symm,
      fun address => (h'.accounts address).trans (h.accounts address).symm,
      h'.assets.trans h.assets.symm, h'.collections.trans h.collections.symm,
      h'.channels.trans h.channels.symm, h'.validators.trans h.validators.symm,
      h'.txIndex.trans h.txIndex.symm, h'.historyCount.trans h.historyCount.symm,
      h'.history.trans h.history.symm⟩
  · intro h'
    exact ⟨h'.head.trans h.head, fun hash => (h'.blocks hash).trans (h.blocks hash),
      fun slot => (h'.heights slot).trans (h.heights slot),
      fun address => (h'.accounts address).trans (h.accounts address),
      h'.assets.trans h.assets, h'.collections.trans h.collections,
      h'.channels.trans h.channels, h'.validators.trans h.validators,
      h'.txIndex.trans h.txIndex, h'.historyCount.trans h.historyCount,
      h'.history.trans h.history⟩

/-- A recorded header is none of what the two conditions on the commit read. -/
theorem conditions_recordHeader (host : Host) (chain : Chain) (block : Block) :
    ((chain.recordHeader host block).AccountsStored ↔ chain.AccountsStored) ∧
      ((chain.recordHeader host block).Restates host block ↔ chain.Restates host block) ∧
      (chain.recordHeader host block).state.getRootHash = chain.state.getRootHash := by
  obtain ⟨seenHeaders, headers, hrecord⟩ := recordHeader_frame host chain block
  rw [hrecord]
  exact ⟨Iff.rfl, ⟨fun ⟨h₁, h₂, h₃⟩ => ⟨h₁, h₂, h₃⟩, fun ⟨h₁, h₂, h₃⟩ => ⟨h₁, h₂, h₃⟩⟩, rfl⟩

/-- The delivery of a block whose first nonce is used up disturbs nothing exactly under the condition. -/
theorem undisturbed_of_delivery_iff
    (hused : ∀ tx rest, block.transactions = tx :: rest → tx.nonce ≠ chain.storedNonce tx.sender)
    (h : Delivery crypto host chain block accepted chain') :
    Undisturbed chain chain' ↔ Repeatable crypto host chain block := by
  have hrecorded := undisturbed_recordHeader host chain block
  obtain ⟨haccounts, hrestates, hroots⟩ := conditions_recordHeader host chain block
  -- a block with transactions fails at the first one and leaves the state to the roll-back
  have hfirst : block.transactions ≠ [] → ∃ error,
      processTransactions crypto (chain.recordHeader host block).state.discardChanges
        block.transactions = (.error error, (chain.recordHeader host block).state.discardChanges) := by
    intro hnonempty
    obtain ⟨tx, rest, htxs⟩ := List.exists_cons_of_ne_nil hnonempty
    rw [htxs]
    apply processTransactions_used
    have hstored : (chain.recordHeader host block).storage.accounts = chain.storage.accounts := by
      obtain ⟨seenHeaders, headers, hrecord⟩ := recordHeader_frame host chain block
      rw [hrecord]
      rfl
    rw [getNonce_eq_storedNonce hstored]
    exact hused tx rest htxs
  have hrepeatable : ∀ {parent : Block}, chain.getBlock block.header.parentHash = some parent →
      chain.Consistent block → Consensus.validateBlock crypto block parent chain.validators = .ok () →
      (Repeatable crypto host chain block ↔ chain.AccountsStored ∧ (block.transactions = [] →
        ¬ (block.header.stateRoot ≠ "" ∧ block.header.stateRoot ≠ chain.state.getRootHash) →
          chain.Restates host block)) := by
    intro parent hparent hconsistent hvalid
    exact ⟨fun h => (h parent hparent).2 hconsistent hvalid,
      fun h other hother => ⟨.inl hconsistent, fun _ _ => h⟩⟩
  cases h with
  | orphan hparent =>
    have hsame : Undisturbed chain chain :=
      ⟨rfl, fun _ => rfl, fun _ => rfl, fun _ => rfl, rfl, rfl, rfl, rfl, rfl, rfl, rfl⟩
    refine iff_of_true hsame fun parent hstored => ?_
    rw [hparent] at hstored
    contradiction
  | equivocation hparent hexisting hne =>
    have hinconsistent : ¬ chain.Consistent block := fun hconsistent => hne (hconsistent _ hexisting)
    constructor
    · intro hsame parent hstored
      exact ⟨.inr hsame.validators, fun hconsistent => absurd hconsistent hinconsistent⟩
    · intro hcondition
      have hslashed := (hcondition _ hparent).1.resolve_left hinconsistent
      exact ⟨rfl, fun _ => rfl, fun _ => rfl, fun _ => rfl, rfl, rfl, rfl, hslashed, rfl, rfl, rfl⟩
  | invalid hparent hconsistent hinvalid =>
    refine iff_of_true hrecorded fun parent hstored => ⟨.inl hconsistent, fun _ hvalid => ?_⟩
    obtain rfl := Option.some.inj (hparent.symm.trans hstored)
    rw [hinvalid] at hvalid
    contradiction
  | failed hparent hconsistent hvalid hexec =>
    have hnonempty : block.transactions ≠ [] := by
      intro hempty
      rw [hempty] at hexec
      simp [processTransactions] at hexec
    obtain ⟨error, hfailed⟩ := hfirst hnonempty
    obtain ⟨-, rfl⟩ := Prod.mk.inj (hfailed.symm.trans hexec)
    rw [hrepeatable hparent hconsistent hvalid, hrecorded.iff_of_first]
    exact (undisturbed_rollback_iff.trans haccounts).trans
      ⟨fun hstored => ⟨hstored, fun hempty => absurd hempty hnonempty⟩, And.left⟩
  | mismatch hparent hconsistent hvalid hexec hroot =>
    have hempty : block.transactions = [] := by
      by_contra hnonempty
      obtain ⟨error, hfailed⟩ := hfirst hnonempty
      simp [hfailed] at hexec
    rw [hempty] at hexec
    obtain ⟨-, rfl⟩ := Prod.mk.inj hexec
    rw [hrepeatable hparent hconsistent hvalid, hrecorded.iff_of_first]
    refine (undisturbed_rollback_iff.trans haccounts).trans
      ⟨fun hstored => ⟨hstored, fun _ hpasses => absurd ?_ hpasses⟩, And.left⟩
    exact ⟨hroot.1, hroots ▸ hroot.2⟩
  | commit hparent hconsistent hvalid hexec hroot hcommit =>
    have hempty : block.transactions = [] := by
      by_contra hnonempty
      obtain ⟨error, hfailed⟩ := hfirst hnonempty
      simp [hfailed] at hexec
    rw [hempty] at hexec
    obtain ⟨-, rfl⟩ := Prod.mk.inj hexec
    have hpasses : ¬ (block.header.stateRoot ≠ "" ∧
        block.header.stateRoot ≠ chain.state.getRootHash) := hroots ▸ hroot
    rw [hrepeatable hparent hconsistent hvalid, hrecorded.iff_of_first]
    exact ((undisturbed_commit_iff hempty hcommit).trans (and_congr haccounts hrestates)).trans
      ⟨fun hboth => ⟨hboth.1, fun _ _ => hboth.2⟩, fun hboth => ⟨hboth.1, hboth.2 hempty hpasses⟩⟩

/-- Where no restart loses a header, no other hash comes on record in the place of an accepted block. -/
theorem consistent_of_accepted (hrun : Run (serve crypto) start calls chain)
    (hsafe : ∀ call ∈ calls, RestartsSafely call) (haccepted : AcceptedIn calls block) :
    chain.Consistent block := by
  obtain ⟨before, host', pre, post, after, rfl, hdelivery, -⟩ := haccepted.split hrun
  have hrecord := existingHash_of_run hrun hsafe (List.mem_append_right _ List.mem_cons_self)
    ⟨rfl, existingHash_of_accepted hdelivery⟩
  intro existing hexisting
  exact Option.some.inj (hexisting.symm.trans hrecord)

/-- In every run over deliveries of any blocks, votes and restarts, on databases that may refuse any write,
with fewer than `2 ^ 64` delivered transactions: delivering an accepted block again disturbs nothing
exactly under the condition on the state before. -/
theorem undisturbed_iff_repeatable (hrun : Run (serve crypto) start calls chain)
    (hfew : (deliveredIn calls).length < 2 ^ 64) (haccepted : AcceptedIn calls block)
    (hagain : addBlock crypto host chain block = some (accepted, chain')) :
    Undisturbed chain chain' ↔ Repeatable crypto host chain block :=
  undisturbed_of_delivery_iff (fun _ _ htxs => nonce_used hrun haccepted hfew htxs)
    (delivery_of_addBlock hagain)

/-- The block of Alice's registration, the block in which she unregisters, and the first one again. -/
def refundedRequests : List Request :=
  [.deliver Host.plain (registrationBlock 1000), .deliver Host.plain unstakingBlock,
    .deliver Host.plain (registrationBlock 1000)]

/-- The second delivery of the registration takes Alice's refund. -/
theorem refund_lost_by_redelivery :
    ∃ opened calls chain accepted chain', stakingStart = some opened ∧
      Run (serve Crypto.plain) opened calls chain ∧ AcceptedIn calls (registrationBlock 1000) ∧
      addBlock Crypto.plain Host.plain chain (registrationBlock 1000) = some (accepted, chain') ∧
      ¬ Undisturbed chain chain' := by
  obtain ⟨opened, calls, last, hstart, hrun, hlabels, hcheck⟩ := Run.exists_of_trace_from
    (serve Crypto.plain) stakingStart refundedRequests
    (fun _ calls _ => decide (calls.map Call.output = [true, true, false] ∧
      ∀ again ∈ calls.drop 2,
        again.post.state.getBalance Sample.alice ≠ again.pre.state.getBalance Sample.alice))
    (by decide +kernel)
  obtain ⟨houtputs, hlost⟩ := of_decide_eq_true hcheck
  obtain ⟨first, second, again, rfl, hfirst, -, hagain⟩ := Run.calls_of_three hlabels
  have haccepted : first.output = true := (List.cons.inj houtputs).1
  have hnext := hrun.next_of_mem (show again ∈ [first, second, again] by simp)
  have hbefore : Run (serve Crypto.plain) opened ([first, second] ++ again :: []) last := hrun
  rw [hagain] at hnext
  refine ⟨opened, [first, second], again.pre, again.output, again.post, hstart, hbefore.around.1,
    ⟨first, by simp, by rw [hfirst]; rfl, haccepted⟩, hnext, fun hsame => ?_⟩
  refine hlost again (by simp) ?_
  unfold State.getBalance
  rw [hsame.accounts]

/-- The first block of the network, without transactions, delivered twice. -/
def repeatedRequests : List Request :=
  [.deliver Host.plain (Sample.block Sample.genesis 1 []),
    .deliver Host.plain (Sample.block Sample.genesis 1 [])]

/-- The second delivery disturbs nothing. -/
theorem undisturbed_repeated :
    ∃ opened calls chain accepted chain', Sample.start = some opened ∧
      Run (serve Crypto.plain) opened calls chain ∧
      AcceptedIn calls (Sample.block Sample.genesis 1 []) ∧
      addBlock Crypto.plain Host.plain chain (Sample.block Sample.genesis 1 []) =
        some (accepted, chain') ∧ Undisturbed chain chain' := by
  obtain ⟨opened, calls, last, hstart, hrun, hlabels, hcheck⟩ := Run.exists_of_trace_from
    (serve Crypto.plain) Sample.start repeatedRequests
    (fun _ calls _ => decide (calls.map Call.output = [true, true] ∧ ∀ again ∈ calls.drop 1,
      again.pre.state.pendingChanges = ∅ ∧
        again.pre.head = (Sample.block Sample.genesis 1 []).hash ∧
        again.pre.getBlock (Sample.block Sample.genesis 1 []).hash =
          some (Sample.block Sample.genesis 1 []) ∧
        again.pre.storage.getBlockByHeight 1 = some (Sample.block Sample.genesis 1 []).hash))
    (by decide +kernel)
  obtain ⟨houtputs, hafter⟩ := of_decide_eq_true hcheck
  obtain ⟨first, again, rfl, hfirst, hagain⟩ := Run.calls_of_two hlabels
  obtain ⟨hpending, hhead, hstored, hindexed⟩ := hafter again (by simp)
  have hnext := hrun.next_of_mem (show again ∈ [first, again] by simp)
  have hbefore : Run (serve Crypto.plain) opened ([first] ++ again :: []) last := hrun
  rw [hagain] at hnext
  have haccepted : AcceptedIn [first] (Sample.block Sample.genesis 1 []) :=
    ⟨first, by simp, by rw [hfirst]; rfl, (List.cons.inj houtputs).1⟩
  have hsafe : ∀ call ∈ [first], RestartsSafely call := by
    intro call hcall host genesisBlock balances stakes hlabel
    rw [List.mem_singleton.mp hcall, hfirst] at hlabel
    contradiction
  have hfew : (deliveredIn [first]).length < 2 ^ 64 := by
    simp [deliveredIn, hfirst, Request.transactions, Sample.transactions_block]
  have hadd : addBlock Crypto.plain Host.plain again.pre (Sample.block Sample.genesis 1 []) =
      some (again.output, again.post) := hnext
  refine ⟨opened, [first], again.pre, again.output, again.post, hstart, hbefore.around.1, haccepted,
    hadd, (undisturbed_iff_repeatable hbefore.around.1 hfew haccepted hadd).mpr ?_⟩
  intro parent _
  refine ⟨.inl (consistent_of_accepted hbefore.around.1 hsafe haccepted), fun _ _ =>
    ⟨fun address => ?_, fun _ _ => ⟨fun _ _ _ => hhead, fun _ => hstored, fun _ _ => hindexed⟩⟩⟩
  unfold State.getAccount
  rw [hpending]
  rfl

end Chain

end Nocostcoin
