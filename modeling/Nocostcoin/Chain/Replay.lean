import Nocostcoin.Library.Execution
import Nocostcoin.Library.Window
import Nocostcoin.Chain.Delivery
import Nocostcoin.Chain.Opening
import Nocostcoin.Node

/-!
# Replay protection

The nonce of an address counts the committed transactions it sent. Rejected blocks are rolled
back to the stored accounts, which is harmless because between two calls the overlay, filled by
refunds only, agrees with the stored accounts on every nonce.
-/

namespace Nocostcoin

open Execution

variable {crypto : Crypto}

/-- The nonces of the transactions that an address sent, in order. -/
def noncesOf (address : Bytes) (txs : List Transaction) : List UInt64 :=
  (txs.filter fun tx => tx.sender = address).map Transaction.nonce

/-- The nonces `first`, `first + 1`, and so on, as many as asked for. -/
def nonceRange (first : UInt64) (count : ℕ) : List UInt64 :=
  (List.range count).map fun i => first + UInt64.ofNat i

/-- How many transactions an address sent. -/
def sentBy (address : Bytes) (txs : List Transaction) : ℕ := (noncesOf address txs).length

/-- Nonces are collected list by list. -/
theorem noncesOf_append (address : Bytes) (txs txs' : List Transaction) :
    noncesOf address (txs ++ txs') = noncesOf address txs ++ noncesOf address txs' := by
  simp [noncesOf]

/-- An address sent as many of two lists as of both. -/
theorem sentBy_append (address : Bytes) (txs txs' : List Transaction) :
    sentBy address (txs ++ txs') = sentBy address txs + sentBy address txs' := by
  rw [sentBy, noncesOf_append, List.length_append]
  rfl

/-- An address sent no more transactions than there are. -/
theorem sentBy_le_length (address : Bytes) (txs : List Transaction) : sentBy address txs ≤ txs.length := by
  rw [sentBy, noncesOf, List.length_map]
  exact List.length_filter_le _ _

/-- The first transaction counts if the address sent it. -/
theorem noncesOf_cons (address : Bytes) (tx : Transaction) (txs : List Transaction) :
    noncesOf address (tx :: txs) =
      if tx.sender = address then tx.nonce :: noncesOf address txs else noncesOf address txs := by
  unfold noncesOf
  rw [List.filter_cons]
  by_cases h : tx.sender = address <;> simp [h]

/-- A range of nonces is a shorter range and the range that continues it. -/
theorem nonceRange_add (first : UInt64) (m n : ℕ) :
    nonceRange first (m + n) = nonceRange first m ++ nonceRange (first + UInt64.ofNat m) n := by
  unfold nonceRange
  rw [List.range_add, List.map_append, List.map_map]
  congr 1
  apply List.map_congr_left
  intro i _
  rw [Function.comp_apply, UInt64.ofNat_add, UInt64.add_assoc]

/-- Fewer than `2 ^ 64` consecutive nonces are pairwise different. -/
theorem nodup_nonceRange (first : UInt64) {count : ℕ} (h : count < 2 ^ 64) :
    (nonceRange first count).Nodup := by
  refine List.Nodup.map_on (fun i hi j hj heq => ?_) List.nodup_range
  have hi' := List.mem_range.mp hi
  have hj' := List.mem_range.mp hj
  exact step_inj (hi'.trans h) (hj'.trans h) heq

/-- Transactions whose nonces are pairwise different for each sender are pairwise different. -/
theorem nodup_of_noncesOf {txs : List Transaction} (h : ∀ address, (noncesOf address txs).Nodup) :
    txs.Nodup := by
  rw [List.nodup_iff_count_le_one]
  intro tx
  have hsame := (h tx.sender).of_map
  rw [List.nodup_iff_count_le_one] at hsame
  have hcount := hsame tx
  rwa [List.count_filter (by simp)] at hcount

namespace State

variable {s s' : State} {tx : Transaction}

/-- An update that keeps the nonce keeps every nonce. -/
theorem getNonce_modifyAccount_of_keep (state : State) (address other : Bytes)
    (update : Account → Account) (hkeep : ∀ account, (update account).nonce = account.nonce) :
    (state.modifyAccount address update).getNonce other = state.getNonce other := by
  rw [getNonce_eq, getNonce_eq]
  exact field_accountOrNew_modifyAccount Account.nonce state address other update hkeep

@[simp] theorem getNonce_putAsset (state : State) (assetId address : Bytes) (asset : Asset) :
    (state.putAsset assetId asset).getNonce address = state.getNonce address := rfl

@[simp] theorem getNonce_putCollection (state : State) (collectionId address : Bytes)
    (collection : Collection) :
    (state.putCollection collectionId collection).getNonce address = state.getNonce address := rfl

@[simp] theorem getNonce_putChannel (state : State) (channelId address : Bytes)
    (channel : PaymentChannel) :
    (state.putChannel channelId channel).getNonce address = state.getNonce address := rfl

/-- No arm of a transaction touches a nonce. -/
theorem getNonce_of_effect (h : Effect crypto s tx s') (address : Bytes) :
    s'.getNonce address = s.getNonce address := by
  cases h with
  | nativeTransfer =>
    rw [getNonce_modifyAccount_of_keep _ _ _ _ (Account.nonce_credit _),
      getNonce_modifyAccount_of_keep _ _ _ _ (Account.nonce_debit _)]
  | createAsset =>
    rw [getNonce_putAsset, getNonce_modifyAccount_of_keep _ _ _ _ (Account.nonce_setAsset _ _)]
  | transferAsset =>
    rw [getNonce_modifyAccount_of_keep _ _ _ _ fun account => Account.nonce_setAsset _ _ account,
      getNonce_modifyAccount_of_keep _ _ _ _ fun account => Account.nonce_setAsset _ _ account]
  | createCollection => rw [getNonce_putCollection]
  | mintNFT =>
    rw [getNonce_putCollection, getNonce_modifyAccount_of_keep _ _ _ _ (Account.nonce_addItem _ _)]
  | transferNFT =>
    rw [getNonce_putCollection, getNonce_modifyAccount_of_keep _ _ _ _ (Account.nonce_addItem _ _),
      getNonce_modifyAccount_of_keep _ _ _ _ (Account.nonce_removeItem _ _)]
  | openChannel =>
    rw [getNonce_putChannel, getNonce_modifyAccount_of_keep _ _ _ _ (Account.nonce_debit _)]
  | closeChannel =>
    rw [getNonce_putChannel, getNonce_modifyAccount_of_keep _ _ _ _ (Account.nonce_credit _),
      getNonce_modifyAccount_of_keep _ _ _ _ (Account.nonce_credit _)]
  | delegateSpend =>
    rw [getNonce_modifyAccount_of_keep _ _ _ _ (Account.nonce_setAllowance _ _)]
  | registerValidator =>
    rw [getNonce_modifyAccount_of_keep _ _ _ _ (Account.nonce_debit _)]
  | unregisterValidator => rfl

/-- Counting a transaction adds one to its sender's nonce. -/
theorem getNonce_bumpNonce (state : State) (sender address : Bytes) :
    (state.modifyAccount sender .bumpNonce).getNonce address =
      if address = sender then state.getNonce address + 1 else state.getNonce address := by
  rw [getNonce_eq, getNonce_eq, accountOrNew_modifyAccount]
  split
  · rename_i heq
    rw [heq]
    rfl
  · rfl

end State

namespace Chain

variable {host : Host} {s s' : State}

/-- A transaction that is processed carries its sender's nonce and counts itself there. -/
theorem processTransaction_ok {tx : Transaction}
    (h : processTransaction crypto s tx = (.ok (), s')) :
    s.applyTransaction crypto tx = (.ok (), s') := by
  unfold processTransaction at h
  split at h
  · simp at h
  · exact h

/-- The transactions of a processed list carry consecutive nonces for every sender, and every
nonce moves by what the address sent. -/
theorem nonces_of_processTransactions {txs : List Transaction}
    (h : processTransactions crypto s txs = (.ok (), s')) (address : Bytes) :
    noncesOf address txs = nonceRange (s.getNonce address) (sentBy address txs) ∧
      s'.getNonce address = s.getNonce address + UInt64.ofNat (sentBy address txs) := by
  induction txs generalizing s with
  | nil =>
    obtain rfl := (Prod.mk.inj h).2
    exact ⟨rfl, (UInt64.add_zero _).symm⟩
  | cons tx rest ih =>
    rw [processTransactions] at h
    split at h
    · simp at h
    · rename_i s₁ hfirst
      obtain ⟨hnonce, s₂, heffect, rfl⟩ := State.applyTransaction_ok (processTransaction_ok hfirst)
      obtain ⟨hrest, hpost⟩ := ih h
      have hbump := State.getNonce_bumpNonce s₂ tx.sender address
      rw [State.getNonce_of_effect heffect] at hbump
      unfold sentBy at *
      rw [noncesOf_cons]
      by_cases hsender : tx.sender = address
      · rw [if_pos hsender.symm] at hbump
        rw [if_pos hsender, List.length_cons]
        rw [hbump] at hrest hpost
        constructor
        · rw [Nat.add_comm, nonceRange_add]
          change _ = nonceRange _ 1 ++ nonceRange (s.getNonce address + 1) _
          rw [← hrest, hnonce, hsender]
          simp [nonceRange]
        · rw [hpost, UInt64.add_assoc, Nat.add_comm, UInt64.ofNat_add]
          rfl
      · rw [if_neg (Ne.symm hsender)] at hbump
        rw [if_neg hsender]
        rw [hbump] at hrest hpost
        exact ⟨hrest, hpost⟩

/-- Between two calls the overlay agrees with the stored accounts on every nonce. -/
def NoncesSettled (chain : Chain) : Prop :=
  ∀ address, chain.state.discardChanges.getNonce address = chain.state.getNonce address

/-- Without an overlay, nonces are read from the stored accounts. -/
theorem getNonce_discardChanges {state state' : State}
    (h : state.storage.accounts = state'.storage.accounts) (address : Bytes) :
    state.discardChanges.getNonce address = state'.discardChanges.getNonce address := by
  have haccount : state.discardChanges.getAccount address = state'.discardChanges.getAccount address :=
    congrArg (Finmap.lookup address) h
  rw [State.getNonce, haccount]
  rfl

/-- What one call did to the nonces: settled again, the committed transactions carry consecutive
nonces for every sender, and every nonce moves by what the address sent. -/
structure NoncesCounted (before after : Chain) (txs : List Transaction) : Prop where
  settled : after.NoncesSettled
  consecutive : ∀ address, noncesOf address txs =
    nonceRange (before.state.getNonce address) (sentBy address txs)
  counted : ∀ address, after.state.getNonce address =
    before.state.getNonce address + UInt64.ofNat (sentBy address txs)

/-- A call that commits nothing and keeps the nonces counts nothing. -/
theorem NoncesCounted.of_same {chain chain' : Chain} (hsettled : chain'.NoncesSettled)
    (hsame : ∀ address, chain'.state.getNonce address = chain.state.getNonce address) :
    NoncesCounted chain chain' [] :=
  ⟨hsettled, fun _ => rfl, fun address => (hsame address).trans (UInt64.add_zero _).symm⟩

/-- A roll-back to the stored accounts keeps every settled nonce. -/
theorem NoncesCounted.of_rollback {chain chain' : Chain} {state : State}
    (hsettled : chain.NoncesSettled) (hstate : chain'.state = state.discardChanges)
    (hstored : state.storage.accounts = chain.state.storage.accounts) :
    NoncesCounted chain chain' [] := by
  apply NoncesCounted.of_same
  · intro address
    rw [hstate]
    rfl
  · intro address
    rw [hstate, getNonce_discardChanges hstored, hsettled address]

/-- The transactions that a delivery commits. -/
def committedTransactions (block : Block) (accepted : Bool) : List Transaction :=
  if accepted then block.transactions else []

/-- On a reliable database every delivery counts exactly the transactions it commits. -/
theorem noncesCounted_of_delivery {chain chain' : Chain} {block : Block} {accepted : Bool}
    (hreliable : host.Reliable) (hsettled : chain.NoncesSettled)
    (h : Delivery crypto host chain block accepted chain') :
    NoncesCounted chain chain' (committedTransactions block accepted) := by
  obtain ⟨seenHeaders, headers, hrecord⟩ := recordHeader_frame host chain block
  cases h with
  | orphan => exact .of_same hsettled fun _ => rfl
  | equivocation => exact .of_same hsettled fun _ => rfl
  | invalid =>
    rw [hrecord]
    exact .of_same hsettled fun _ => rfl
  | failed hparent hconsistent hvalid hexec =>
    obtain ⟨headers, hstorage⟩ := storage_of_execution_frame hexec
    exact .of_rollback hsettled rfl (by rw [hstorage])
  | mismatch hparent hconsistent hvalid hexec =>
    obtain ⟨headers, hstorage⟩ := storage_of_execution_frame hexec
    exact .of_rollback hsettled rfl (by rw [hstorage])
  | @commit parent state _ _ hparent hconsistent hvalid hexec hroot hcommit =>
    obtain ⟨rfl, currentHead, trie, -, rfl⟩ := commitBlock_reliable hreliable hcommit
    have hnonces := nonces_of_processTransactions hexec
    have hbefore : ∀ address, (chain.recordHeader host block).state.discardChanges.getNonce address =
        chain.state.getNonce address := by
      intro address
      rw [hrecord, ← hsettled address]
      rfl
    obtain ⟨pending, storage, hfold, ⟨txIndex, historyCount, history, rfl⟩, hkeep, -⟩ :=
      foldl_indexTransaction_frame crypto host block block.transactions
        (((chain.recordHeader host block).withState state).committed block currentHead trie)
    rw [hfold]
    -- the commit stored the whole account table, so it answers as the executed state did
    have hcommitted : ∀ address,
        (((chain.recordHeader host block).withState state).committed block currentHead
          trie).state.getNonce address = state.getNonce address := by
      intro address
      unfold State.getNonce
      rw [State.getAccount_eq_lookup state]
      rfl
    refine ⟨fun address => ?_, fun address => ?_, fun address => ?_⟩
    · exact ((hkeep address).trans rfl).symm
    · rw [← hbefore address]
      exact (hnonces address).1
    · rw [← hbefore address]
      exact ((hkeep address).trans (hcommitted address)).trans (hnonces address).2

/-- A restart on a reliable database keeps every settled nonce. -/
theorem noncesCounted_of_start {chain chain' : Chain} {genesisBlock : Block}
    {balances stakes : List (Bytes × UInt64)} (hreliable : host.Reliable)
    (hsettled : chain.NoncesSettled)
    (h : start crypto host chain.storage genesisBlock balances stakes = some chain') :
    NoncesCounted chain chain' [] := by
  obtain ⟨trie, rfl⟩ := start_eq hreliable h
  apply NoncesCounted.of_same
  · exact fun _ => rfl
  · intro address
    rw [← hsettled address]
    exact nonce_fundedAccounts chain.state.storage.accounts balances address

/-- The transactions that a request commits. -/
def committedBy (call : Call Chain Request Bool) : List Transaction :=
  match call.label with
  | .deliver _ block => committedTransactions block call.output
  | _ => []

/-- The transactions that a run commits, in commit order. -/
def committedIn (calls : List (Call Chain Request Bool)) : List Transaction :=
  calls.flatMap committedBy

/-- Every request on a reliable database counts exactly the transactions it commits. -/
theorem noncesCounted_of_serve {chain chain' : Chain} {request : Request} {output : Bool}
    (hreliable : request.host.Reliable) (hsettled : chain.NoncesSettled)
    (h : serve crypto chain request = some (output, chain')) :
    NoncesCounted chain chain' (committedBy ⟨chain, request, output, chain'⟩) := by
  cases request with
  | deliver host block =>
    exact noncesCounted_of_delivery hreliable hsettled (delivery_of_addBlock h)
  | vote host vote =>
    obtain ⟨votes, stored, finalizedHead, rfl⟩ := serve_vote_frame h
    exact .of_same hsettled fun _ => rfl
  | reopen host genesisBlock balances stakes =>
    exact noncesCounted_of_start hreliable hsettled (start_of_serve h)

/-- Counting over two stretches of a run is counting over the whole. -/
theorem NoncesCounted.trans {a b c : Chain} {txs txs' : List Transaction}
    (hab : NoncesCounted a b txs) (hbc : NoncesCounted b c txs') : NoncesCounted a c (txs ++ txs') := by
  refine ⟨hbc.settled, fun address => ?_, fun address => ?_⟩
  · rw [noncesOf_append, sentBy_append, nonceRange_add, ← hab.consecutive, ← hab.counted, ← hbc.consecutive]
  · rw [hbc.counted, hab.counted, sentBy_append, UInt64.ofNat_add, UInt64.add_assoc]

/-- A run on reliable databases counts exactly the transactions it commits. -/
theorem noncesCounted_of_run {start chain : Chain} {calls : List (Call Chain Request Bool)}
    (hsettled : start.NoncesSettled) (hrun : Run (serve crypto) start calls chain)
    (hreliable : ∀ call ∈ calls, call.label.host.Reliable) :
    NoncesCounted start chain (committedIn calls) := by
  induction hrun with
  | nil => exact .of_same hsettled fun _ => rfl
  | @snoc calls s s' request output _ hnext ih =>
    have hbefore := ih fun call hcall => hreliable call (List.mem_append_left _ hcall)
    have hlast := noncesCounted_of_serve
      (hreliable ⟨s, request, output, s'⟩ (List.mem_append_right _ (List.mem_singleton_self _)))
      hbefore.settled hnext
    have hcommitted : committedIn (calls ++ [⟨s, request, output, s'⟩]) =
        committedIn calls ++ committedBy ⟨s, request, output, s'⟩ := by
      simp [committedIn]
    rw [hcommitted]
    exact hbefore.trans hlast

/-- In every run of a node from its set-up, over deliveries of any blocks, votes and restarts on
reliable databases, with fewer than `2 ^ 64` committed transactions: the committed transactions of
each sender carry its initial nonce and the following ones in commit order, no transaction is
committed twice, and each call moves the nonce of an address by the number of transactions of that
address it commits. -/
theorem replay_protection {host : Host} {storage : Storage} {genesisBlock : Block}
    {balances stakes : List (Bytes × UInt64)} {opened chain : Chain}
    {calls : List (Call Chain Request Bool)} (hhost : host.Reliable)
    (hstart : start crypto host storage genesisBlock balances stakes = some opened)
    (hrun : Run (serve crypto) opened calls chain)
    (hreliable : ∀ call ∈ calls, call.label.host.Reliable)
    (hfew : (committedIn calls).length < 2 ^ 64) :
    (∀ sender, noncesOf sender (committedIn calls) =
      nonceRange (opened.state.getNonce sender) (sentBy sender (committedIn calls))) ∧
    (committedIn calls).Nodup ∧
    ∀ call ∈ calls, ∀ address, call.post.state.getNonce address =
      call.pre.state.getNonce address + UInt64.ofNat (sentBy address (committedBy call)) := by
  have hsettled : opened.NoncesSettled := by
    obtain ⟨trie, rfl⟩ := start_eq hhost hstart
    exact fun _ => rfl
  have hcounted := noncesCounted_of_run hsettled hrun hreliable
  refine ⟨hcounted.consecutive, ?_, ?_⟩
  · apply nodup_of_noncesOf
    intro sender
    rw [hcounted.consecutive sender]
    apply nodup_nonceRange
    exact (sentBy_le_length sender (committedIn calls)).trans_lt hfew
  · intro call hcall address
    obtain ⟨before, after, rfl⟩ := List.append_of_mem hcall
    have hbefore := noncesCounted_of_run hsettled hrun.around.1 fun earlier hearlier =>
      hreliable earlier (List.mem_append_left _ hearlier)
    exact (noncesCounted_of_serve (hreliable call hcall) hbefore.settled
      (hrun.next_of_mem hcall)).counted address

/-- A block, the same block again, a restart, and a next block. -/
def restartedRequests : List Request :=
  let first := Sample.block Sample.genesis 1 [Sample.transfer 10 0]
  let second := Sample.block first 2 [Sample.transfer 5 1]
  [.deliver Host.plain first, .deliver Host.plain first,
    .reopen Host.plain Sample.genesis [] [(Sample.validator, 1000)], .deliver Host.plain second]

/-- Over that run Alice's two transfers are committed once each, with nonces zero and one. -/
theorem replay_protection_restarted :
    ∃ opened calls chain, Sample.start = some opened ∧ Run (serve Crypto.plain) opened calls chain ∧
      calls.map Call.label = restartedRequests ∧
      noncesOf Sample.alice (committedIn calls) = [0, 1] ∧ (committedIn calls).Nodup := by
  obtain ⟨opened, calls, chain, hstart, hrun, hlabels, hcheck⟩ := Run.exists_of_trace_from
    (serve Crypto.plain) Sample.start restartedRequests
    (fun opened calls _ => decide ((committedIn calls).length < 2 ^ 64 ∧
      nonceRange (opened.state.getNonce Sample.alice) (sentBy Sample.alice (committedIn calls)) =
        [0, 1])) (by decide +kernel)
  obtain ⟨hfew, hnonces⟩ := of_decide_eq_true hcheck
  have hreliable := Sample.reliable_of_labels hlabels (by simp [restartedRequests, Request.host])
  obtain ⟨hrange, hnodup, -⟩ :=
    replay_protection Host.plain_reliable hstart hrun hreliable hfew
  exact ⟨opened, calls, chain, hstart, hrun, hlabels, (hrange Sample.alice).trans hnonces, hnodup⟩

end Chain

end Nocostcoin
