import Nocostcoin.Chain.Delivery
import Nocostcoin.Chain.Opening
import Nocostcoin.NativeSupply
import Nocostcoin.Node
import Nocostcoin.Stakes

/-!
# Where coins come from

The coins of a chain are its balances, the deposits of its open channels and the stakes of its validators.
Deliveries and votes create none, beside two leaks: a rejected block leaves behind the channels that it opened
though it gives the deposits back, and a `CloseChannel` may pay out a sum that wraps. A restart issues the
balances and stakes that it is configured with.
-/

namespace Nocostcoin

open Execution

/-- The deposit that an `OpenChannel` puts into a channel. -/
def Transaction.openedDeposit (tx : Transaction) : ℕ :=
  match tx.data with
  | .openChannel _ amount _ => amount.toNat
  | _ => 0

/-- A quantity, summed over some transactions. -/
def totalOf (quantity : Transaction → ℕ) (txs : List Transaction) : ℕ := (txs.map quantity).sum

@[simp] theorem totalOf_nil (quantity : Transaction → ℕ) : totalOf quantity [] = 0 := rfl

@[simp] theorem totalOf_cons (quantity : Transaction → ℕ) (tx : Transaction) (txs : List Transaction) :
    totalOf quantity (tx :: txs) = quantity tx + totalOf quantity txs := by
  simp [totalOf]

namespace State

variable {crypto : Crypto} {s s' : State} {tx : Transaction}

/-- A transaction adds to the open deposits what it deposits at most. -/
theorem depositSum_of_effect (h : Effect crypto s tx s') : s'.depositSum ≤ s.depositSum + tx.openedDeposit := by
  cases h with
  | @openChannel _ _ amount _ hdata _ _ _ hfresh =>
    rw [depositSum_putChannel_of_fresh (s.modifyAccount tx.sender (.debit amount)) _ hfresh]
    simp [Transaction.openedDeposit, hdata, PaymentChannel.lockedDeposit]
  | @closeChannel _ _ finalBalanceA finalBalanceB channel _ hchannel hopen =>
    have hclosed := depositSum_putChannel_closed
      ((s.modifyAccount channel.partnerA (.credit finalBalanceA)).modifyAccount channel.partnerB
        (.credit finalBalanceB)) hchannel hopen
    simp only [depositSum_modifyAccount] at hclosed
    omega
  | _ => simp

/-- A failed transaction adds nothing. -/
theorem depositSum_of_residue (h : Residue crypto s tx s') : s'.depositSum ≤ s.depositSum := by
  cases h with
  | markedClosed _ hchannel hopen =>
    have hclosed := depositSum_putChannel_closed s hchannel hopen
    omega
  | _ => simp

end State

namespace Chain

variable {crypto : Crypto} {host : Host} {chain chain' : Chain} {block : Block} {accepted : Bool}

/-- The transactions of a block, up to one that fails, add to the open deposits what they deposit at most. -/
theorem depositSum_processTransactions (crypto : Crypto) (s : State) (txs : List Transaction) :
    (processTransactions crypto s txs).2.depositSum ≤ s.depositSum + totalOf Transaction.openedDeposit txs := by
  have hone : ∀ (s : State) (tx : Transaction),
      (processTransaction crypto s tx).2.depositSum ≤ s.depositSum + tx.openedDeposit := by
    intro s tx
    unfold processTransaction
    split
    · exact Nat.le_add_right _ _
    · rcases s.applyTransaction_cases crypto tx with ⟨s₁, heffect, hafter⟩ | hresidue
      · rw [hafter, State.depositSum_modifyAccount]
        exact State.depositSum_of_effect heffect
      · exact (State.depositSum_of_residue hresidue).trans (Nat.le_add_right _ _)
  induction txs generalizing s with
  | nil => exact Nat.le_refl _
  | cons tx rest ih =>
    have hfirst := hone s tx
    rw [processTransactions, totalOf_cons]
    split
    · rename_i hresult
      rw [hresult] at hfirst
      dsimp only at hfirst ⊢
      omega
    · rename_i next hresult
      rw [hresult] at hfirst
      have hrest := ih next
      dsimp only at hfirst hrest ⊢
      omega

/-- The transactions of a block take the stakes that they deduct out of the supply, and create nothing but
where a sum of final balances wraps. -/
theorem nativeSupply_processTransactions {s s' : State} {txs : List Transaction}
    (h : processTransactions crypto s txs = (.ok (), s')) :
    s'.nativeSupply + totalOf Transaction.deductedStake txs ≤
      s.nativeSupply + 2 ^ 64 * totalOf Transaction.finalBalanceCarry txs := by
  induction txs generalizing s with
  | nil => rw [← (Prod.mk.inj h).2]; exact Nat.le_refl _
  | cons tx rest ih =>
    rw [totalOf_cons, totalOf_cons]
    rw [processTransactions] at h
    split at h
    · simp at h
    · rename_i next hresult
      unfold processTransaction at hresult
      split at hresult
      · simp at hresult
      · have hone := State.nativeSupply_step hresult
        have hrest := ih h
        omega

end Chain

namespace ValidatorSet

/-- A registration adds the stake or nothing. -/
theorem exactTotal_registerValidator (set : ValidatorSet) (pubkey : Bytes) (stake epoch : UInt64) :
    (set.registerValidator pubkey stake epoch).2.exactTotal ≤ set.exactTotal + stake.toNat := by
  unfold registerValidator exactTotal
  split_ifs
  · exact Nat.le_add_right _ _
  · exact Nat.le_add_right _ _
  · rename_i hfresh
    dsimp only
    rw [FiniteMap.sumOf_insert_fresh _ _ (Option.not_isSome_iff_eq_none.mp hfresh), ValidatorInfo.new,
      Nat.add_comm]

/-- An unregistration takes out the stake that it returns. -/
theorem exactTotal_unregisterValidator (set : ValidatorSet) (pubkey : Bytes) :
    (set.unregisterValidator pubkey).2.exactTotal +
      (set.unregisterValidator pubkey).1.toOption.elim 0 UInt64.toNat = set.exactTotal := by
  unfold unregisterValidator exactTotal
  cases hfound : set.validators.lookup pubkey with
  | none => rfl
  | some validator =>
    have hsum := FiniteMap.sumOf_erase (fun validator => validator.stake.toNat) set.validators pubkey
    rw [FiniteMap.weightAt, hfound, Option.elim_some] at hsum
    exact hsum

/-- A slash takes out the stake. -/
theorem exactTotal_slashValidator (set : ValidatorSet) (pubkey : Bytes) :
    (set.slashValidator pubkey).2.exactTotal ≤ set.exactTotal := by
  unfold slashValidator exactTotal
  cases hfound : set.validators.lookup pubkey with
  | none => exact Nat.le_refl _
  | some validator =>
    have hsum := FiniteMap.sumOf_insert_over (fun validator => validator.stake.toNat)
      { validator with slashed := true, stake := 0 } hfound
    rw [UInt64.toNat_zero, Nat.add_zero] at hsum
    dsimp only
    split_ifs
    · exact Nat.le_refl _
    · dsimp only
      omega

/-- The management of a committed transaction adds the stake that it deducted at most. -/
theorem exactTotal_managed (set : ValidatorSet) (epoch : UInt64) (tx : Transaction) :
    (set.managed epoch tx).exactTotal ≤ set.exactTotal + tx.deductedStake := by
  unfold managed Transaction.deductedStake
  cases tx.data with
  | registerValidator stake => exact set.exactTotal_registerValidator tx.sender stake epoch
  | unregisterValidator =>
    have htaken := set.exactTotal_unregisterValidator tx.sender
    dsimp only
    omega
  | _ => exact Nat.le_refl _

/-- The stakes that are registered from the start. -/
theorem exactTotal_foldl_register (set : ValidatorSet) (stakes : List (Bytes × UInt64)) :
    (stakes.foldl (fun set entry => (set.registerValidator entry.1 entry.2 0).2) set).exactTotal ≤
      set.exactTotal + (stakes.map fun entry => entry.2.toNat).sum := by
  induction stakes generalizing set with
  | nil => exact Nat.le_refl _
  | cons entry rest ih =>
    have hfirst := set.exactTotal_registerValidator entry.1 entry.2 0
    have hrest := ih (set.registerValidator entry.1 entry.2 0).2
    rw [List.foldl_cons, List.map_cons, List.sum_cons]
    omega

end ValidatorSet

/-- The balances of an account table after some were set. -/
theorem sumOf_fundedAccounts (accounts : FiniteMap Bytes Account) (balances : List (Bytes × UInt64)) :
    FiniteMap.sumOf (fun account : Account => account.balance.toNat) (fundedAccounts accounts balances) ≤
      FiniteMap.sumOf (fun account : Account => account.balance.toNat) accounts +
        (balances.map fun entry => entry.2.toNat).sum := by
  induction balances generalizing accounts with
  | nil => exact Nat.le_refl _
  | cons entry rest ih =>
    refine (ih _).trans ?_
    rw [List.map_cons, List.sum_cons, ← Nat.add_assoc]
    refine Nat.add_le_add_right ?_ _
    exact Nat.le_of_add_right_le (Nat.le_of_eq (FiniteMap.sumOf_insert _ accounts entry.1 _))

namespace Chain

variable {crypto : Crypto} {host : Host} {chain chain' : Chain} {block : Block} {accepted : Bool}

/-- The coins of a chain as its ledger shows them. -/
def coins (chain : Chain) : ℕ := chain.state.nativeSupply + chain.validators.exactTotal

/-- The chain without what is pending. -/
def settled (chain : Chain) : Chain := chain.withState chain.state.discardChanges

/-- The coins that a chain can come to show: with what is pending, or once that is dropped. -/
def purse (chain : Chain) : ℕ := max chain.coins chain.settled.coins

/-- Only the accounts, the channels and the validators matter. -/
theorem purse_congr (hpending : chain'.state.pendingChanges = chain.state.pendingChanges)
    (haccounts : chain'.state.storage.accounts = chain.state.storage.accounts)
    (hchannels : chain'.state.channels = chain.state.channels)
    (hvalidators : chain'.validators = chain.validators) : chain'.purse = chain.purse := by
  unfold purse settled coins withState State.nativeSupply State.balanceSum State.depositSum State.accounts
    State.discardChanges
  dsimp only
  rw [hpending, haccounts, hchannels, hvalidators]

/-- Where nothing is pending the ledger shows them all. -/
theorem purse_of_settled (hpending : chain.state.pendingChanges = ∅) : chain.purse = chain.coins := by
  have hsame : chain.settled = chain := by
    unfold settled withState State.discardChanges
    rw [← hpending]
  rw [purse, hsame, max_self]

/-- The coins that a delivered block lets appear: a wrapping payout of an accepted one, and the channels of a
rejected one. -/
def leaked (accepted : Bool) (block : Block) : ℕ :=
  if accepted then 2 ^ 64 * totalOf Transaction.finalBalanceCarry block.transactions
  else totalOf Transaction.openedDeposit block.transactions

/-- Managing the validators after a transaction adds the stake that it deducted at most. A refund moves a
stake into the balances. -/
theorem coins_manageValidators (chain : Chain) (block : Block) (tx : Transaction) :
    (chain.manageValidators block tx).coins ≤ chain.coins + tx.deductedStake := by
  have hmanaged := chain.validators.exactTotal_managed block.header.epoch tx
  unfold ValidatorSet.managed at hmanaged
  unfold manageValidators
  cases hdata : tx.data with
  | registerValidator stake =>
    rw [hdata] at hmanaged
    unfold coins
    dsimp only at hmanaged ⊢
    omega
  | unregisterValidator =>
    have htaken := chain.validators.exactTotal_unregisterValidator tx.sender
    rcases hresult : chain.validators.unregisterValidator tx.sender with ⟨error | stake, validators⟩
    · rw [hresult] at htaken
      unfold coins
      dsimp only [Except.toOption, Option.elim] at htaken ⊢
      omega
    · have hcredit := chain.state.balanceSum_credit tx.sender stake
      have hstate : chain.state.insertPending tx.sender { chain.state.accountOrNew tx.sender with
          balance := (chain.state.accountOrNew tx.sender).balance + stake } =
            chain.state.modifyAccount tx.sender (.credit stake) := rfl
      rw [hresult] at htaken
      unfold coins State.nativeSupply
      dsimp only [Except.toOption, Option.elim] at htaken ⊢
      rw [hstate, State.depositSum_modifyAccount]
      omega
  | _ => exact Nat.le_add_right _ _

/-- So does what can come to be shown. -/
theorem purse_indexTransaction (crypto : Crypto) (host : Host) (block : Block) (chain : Chain) (tx : Transaction) :
    (indexTransaction crypto host block chain tx).purse ≤ chain.purse + tx.deductedStake := by
  obtain ⟨storage, hindexed, hindex⟩ := indexTransaction_frame crypto host block chain tx
  obtain ⟨_, _, _, rfl⟩ := hindex
  have hsame : (indexTransaction crypto host block chain tx).purse = (chain.manageValidators block tx).purse := by
    rw [hindexed]
    exact purse_congr rfl rfl rfl rfl
  have hshown := coins_manageValidators chain block tx
  have hsettled : (chain.manageValidators block tx).settled.coins ≤ chain.settled.coins + tx.deductedStake := by
    have hmanaged := chain.validators.exactTotal_managed block.header.epoch tx
    obtain ⟨pending, hmanage, -⟩ := manageValidators_frame chain block tx
    rw [hmanage]
    change chain.settled.state.nativeSupply + (chain.validators.managed block.header.epoch tx).exactTotal ≤
      chain.settled.state.nativeSupply + chain.validators.exactTotal + tx.deductedStake
    omega
  rw [hsame]
  unfold purse
  omega

/-- Indexing the transactions of a block adds the stakes that they deducted at most. -/
theorem purse_foldl_indexTransaction (crypto : Crypto) (host : Host) (block : Block) (txs : List Transaction)
    (chain : Chain) : (txs.foldl (indexTransaction crypto host block) chain).purse ≤
      chain.purse + totalOf Transaction.deductedStake txs := by
  induction txs generalizing chain with
  | nil => exact Nat.le_refl _
  | cons tx rest ih =>
    have hfirst := purse_indexTransaction crypto host block chain tx
    have hrest := ih (indexTransaction crypto host block chain tx)
    rw [List.foldl_cons, totalOf_cons]
    omega

/-- Recording a header leaves it alone. -/
theorem settled_recordHeader (host : Host) (chain : Chain) (block : Block) :
    (chain.recordHeader host block).purse = chain.purse ∧
      (chain.recordHeader host block).settled.coins = chain.settled.coins := by
  obtain ⟨seenHeaders, headers, hrecord⟩ := recordHeader_frame host chain block
  rw [hrecord]
  exact ⟨purse_congr rfl rfl rfl rfl, rfl⟩

/-- An execution that is undone leaves the channels that were opened, without the deposits having been paid. -/
theorem purse_of_undone {result : Except String Unit} {state : State}
    (hexec : processTransactions crypto (chain.recordHeader host block).state.discardChanges
      block.transactions = (result, state)) :
    ((chain.recordHeader host block).withState state.discardChanges).purse ≤
      chain.purse + totalOf Transaction.openedDeposit block.transactions := by
  have hdeposits := depositSum_processTransactions crypto (chain.recordHeader host block).state.discardChanges
    block.transactions
  have hsettled := (settled_recordHeader host chain block).2
  rw [hexec] at hdeposits
  rw [purse_of_settled rfl]
  have hbalances : state.discardChanges.balanceSum = (chain.recordHeader host block).settled.state.balanceSum := by
    unfold State.balanceSum State.accounts State.discardChanges
    dsimp only
    rw [storage_of_execution hexec]
    rfl
  have hpurse : chain.settled.coins ≤ chain.purse := Nat.le_max_right _ _
  unfold coins State.nativeSupply at hsettled ⊢
  change state.discardChanges.balanceSum + state.depositSum +
    (chain.recordHeader host block).validators.exactTotal ≤ _
  change _ + (chain.recordHeader host block).state.discardChanges.depositSum +
    (chain.recordHeader host block).validators.exactTotal = _ at hsettled
  unfold coins State.nativeSupply at hpurse
  rw [hbalances]
  dsimp only at hdeposits
  omega

/-- A commit stores what was executed. -/
theorem purse_committed (chain : Chain) (block currentHead : Block) (trie : MerklePatriciaTrie) :
    (chain.committed block currentHead trie).purse = chain.coins := by
  rw [purse_of_settled rfl]
  unfold coins State.nativeSupply State.balanceSum State.accounts committed
  dsimp only
  rw [Finmap.empty_union]
  rfl

/-- A delivery lets no coins appear but what leaks. -/
theorem purse_of_delivery (hreliable : host.Reliable) (h : Delivery crypto host chain block accepted chain') :
    chain'.purse ≤ chain.purse + leaked accepted block := by
  cases h with
  | orphan => exact Nat.le_add_right _ _
  | equivocation =>
    have hslash := chain.validators.exactTotal_slashValidator block.header.validatorPubkey
    refine Nat.le_trans ?_ (Nat.le_add_right _ _)
    exact max_le_max (Nat.add_le_add_left hslash _) (Nat.add_le_add_left hslash _)
  | invalid =>
    rw [(settled_recordHeader host chain block).1]
    exact Nat.le_add_right _ _
  | failed _ _ _ hexec | mismatch _ _ _ hexec => exact purse_of_undone hexec
  | @commit _ state _ _ _ _ _ hexec _ hcommit =>
    obtain ⟨rfl, currentHead, trie, -, rfl⟩ := commitBlock_reliable hreliable hcommit
    have hindexed := purse_foldl_indexTransaction crypto host block block.transactions
      (((chain.recordHeader host block).withState state).committed block currentHead trie)
    have hsettled : (chain.recordHeader host block).state.discardChanges.nativeSupply +
        (chain.recordHeader host block).validators.exactTotal ≤ chain.purse :=
      ((settled_recordHeader host chain block).2.trans_le (Nat.le_max_right _ _))
    rw [leaked, if_pos rfl]
    have hexecuted := nativeSupply_processTransactions hexec
    rw [purse_committed] at hindexed
    have hcoins : ((chain.recordHeader host block).withState state).coins =
        state.nativeSupply + (chain.recordHeader host block).validators.exactTotal := rfl
    omega

/-- What a request issues: a restart its balances and stakes, a delivery what it leaks. -/
def issued (call : Call Chain Request Bool) : ℕ :=
  match call.label with
  | .deliver _ block => leaked call.output block
  | .vote _ _ => 0
  | .reopen _ _ balances stakes =>
      (balances.map fun entry => entry.2.toNat).sum + (stakes.map fun entry => entry.2.toNat).sum

/-- A start shows the stored balances and what it issues. -/
theorem purse_of_start {storage : Storage} {genesisBlock : Block} {balances stakes : List (Bytes × UInt64)}
    (hreliable : host.Reliable) (h : start crypto host storage genesisBlock balances stakes = some chain) :
    chain.purse = chain.coins ∧ chain.coins ≤
      FiniteMap.sumOf (fun account : Account => account.balance.toNat) storage.accounts +
        ((balances.map fun entry => entry.2.toNat).sum + (stakes.map fun entry => entry.2.toNat).sum) := by
  have hfunded := sumOf_fundedAccounts storage.accounts balances
  have hstakes := ValidatorSet.new.exactTotal_foldl_register stakes
  have hnone : ValidatorSet.new.exactTotal = 0 := rfl
  obtain ⟨trie, rfl⟩ := start_eq hreliable h
  refine ⟨purse_of_settled rfl, ?_⟩
  unfold coins State.nativeSupply State.balanceSum State.depositSum State.accounts
  dsimp only [State.empty]
  rw [Finmap.empty_union, FiniteMap.sumOf_empty]
  omega

/-- A request lets no coins appear but what it issues. -/
theorem purse_of_serve {request : Request} {output : Bool} (hreliable : request.host.Reliable)
    (h : serve crypto chain request = some (output, chain')) :
    chain'.purse ≤ chain.purse + issued ⟨chain, request, output, chain'⟩ := by
  cases request with
  | deliver host block => exact purse_of_delivery hreliable (delivery_of_addBlock h)
  | vote host vote =>
    obtain ⟨votes, stored, finalizedHead, rfl⟩ := serve_vote_frame h
    exact Nat.le_of_eq (purse_congr rfl rfl rfl rfl)
  | reopen host genesisBlock balances stakes =>
    obtain ⟨hpurse, hcoins⟩ := purse_of_start hreliable (start_of_serve h)
    have hstored : FiniteMap.sumOf (fun account : Account => account.balance.toNat) chain.storage.accounts ≤
        chain.settled.coins := by
      unfold coins State.nativeSupply State.balanceSum State.accounts settled withState State.discardChanges
      dsimp only
      rw [Finmap.empty_union, Nat.add_assoc]
      exact Nat.le_add_right _ _
    have hsettled : chain.settled.coins ≤ chain.purse := Nat.le_max_right _ _
    dsimp only [issued]
    omega

/-- What the requests of a run issue. -/
def issuedDuring (calls : List (Call Chain Request Bool)) : ℕ := (calls.map issued).sum

/-- On reliable databases, the coins that a chain can come to show after a run are those of its start and those
that were issued in the run. -/
theorem purse_of_run {first last : Chain} {calls : List (Call Chain Request Bool)}
    (hreliable : ∀ call ∈ calls, call.label.host.Reliable) (hrun : Run (serve crypto) first calls last) :
    last.purse ≤ first.purse + issuedDuring calls := by
  induction hrun with
  | nil => exact Nat.le_add_right _ _
  | @snoc calls chain chain' request output _ hserve ih =>
    rw [issuedDuring, List.map_append, List.sum_append, List.map_singleton, List.sum_singleton]
    have hbefore := ih fun call hcall => hreliable call (List.mem_append_left _ hcall)
    have hhost : request.host.Reliable := hreliable ⟨chain, request, output, chain'⟩ (by simp)
    unfold issuedDuring at hbefore
    have hafter := purse_of_serve hhost hserve
    omega

/-- Coins come from nowhere but the configured balances and stakes of the starts, the channels that rejected
blocks opened, and payouts that wrap: from a start on, the balances, open deposits and stakes together are never
more than they were and what was issued since. -/
theorem coins_of_run {storage : Storage} {genesisBlock : Block} {balances stakes : List (Bytes × UInt64)}
    {first last : Chain} {calls : List (Call Chain Request Bool)} (hhost : host.Reliable)
    (hstart : start crypto host storage genesisBlock balances stakes = some first)
    (hreliable : ∀ call ∈ calls, call.label.host.Reliable) (hrun : Run (serve crypto) first calls last) :
    last.coins ≤ first.coins + issuedDuring calls := by
  rw [← (purse_of_start hhost hstart).1]
  exact (Nat.le_max_left _ _).trans (purse_of_run hreliable hrun)

/-- Alice opens a channel with forty coins. -/
def opening40 : Transaction :=
  Transaction.new Crypto.plain Sample.alice Sample.bob (.openChannel Sample.bob 40 100) 0 Sample.alice

/-- Alice closes it and takes them all back. -/
def closing40 : Transaction :=
  Transaction.new Crypto.plain Sample.alice Sample.bob
    (.closeChannel ((opening40.calculateAssetId Crypto.plain).getD []) [] 40 0) 0 Sample.alice

/-- She opens one with ten coins, and closes it with two final balances whose sum wraps to ten. -/
def opening10 : Transaction :=
  Transaction.new Crypto.plain Sample.alice Sample.bob (.openChannel Sample.bob 10 100) 1 Sample.alice

def wrapping10 : Transaction :=
  Transaction.new Crypto.plain Sample.alice Sample.bob
    (.closeChannel ((opening10.calculateAssetId Crypto.plain).getD []) [] (2 ^ 63) (2 ^ 63 + 10)) 2 Sample.alice

/-- A block that opens the first channel and fails with a wrong nonce, one that closes it, and one that pays out
the second. -/
def leakingRequests : List Request :=
  [.deliver Host.plain (Sample.block Sample.genesis 1 [opening40, Sample.transfer 5 7]),
    .deliver Host.plain (Sample.block Sample.genesis 2 [closing40]),
    .deliver Host.plain (Sample.block Sample.genesis 3 [opening10, wrapping10])]

/-- Forty coins leak and are paid out, and the second payout creates as many as a word wraps at. -/
theorem coins_of_run_leaked :
    ∃ first calls last, Sample.start = some first ∧ Run (serve Crypto.plain) first calls last ∧
      calls.map Call.label = leakingRequests ∧ issuedDuring calls = 40 + 2 ^ 64 ∧
      last.state.balanceSum = first.state.balanceSum + 40 + 2 ^ 64 ∧
      last.coins ≤ first.coins + issuedDuring calls := by
  obtain ⟨first, calls, last, hstart, hrun, hlabels, hcheck⟩ := Run.exists_of_trace_from (serve Crypto.plain)
    Sample.start leakingRequests (fun first calls last => decide (issuedDuring calls = 40 + 2 ^ 64 ∧
      last.state.balanceSum = first.state.balanceSum + 40 + 2 ^ 64)) (by decide +kernel)
  obtain ⟨hissued, hbalances⟩ := of_decide_eq_true hcheck
  have hreliable := Sample.reliable_of_labels hlabels (by simp [leakingRequests, Request.host])
  exact ⟨first, calls, last, hstart, hrun, hlabels, hissued, hbalances,
    coins_of_run Host.plain_reliable hstart hreliable hrun⟩

end Chain

end Nocostcoin
