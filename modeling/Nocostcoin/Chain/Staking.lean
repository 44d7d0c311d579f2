import Nocostcoin.Library.Execution
import Nocostcoin.Batch
import Nocostcoin.Chain.Acceptance
import Nocostcoin.Node

/-!
# Stakes

A stake leaves the balance when a block is executed and enters the validator set after its commit;
the way back goes from the set to the overlay, which the next execution discards.
-/

namespace Nocostcoin

open Execution

/-- Whether an address is registered after a transaction, given whether it was before. -/
def Transaction.registeredAfter (address : Bytes) (registered : Bool) (tx : Transaction) : Bool :=
  if tx.sender = address then
    match tx.data with
    | .registerValidator stake => registered || decide (minStake ≤ stake)
    | .unregisterValidator => false
    | _ => registered
  else registered

namespace ValidatorSet

/-- Who is registered after the management of a transaction. -/
theorem isValidator_managed (set : ValidatorSet) (epoch : UInt64) (tx : Transaction)
    (address : Bytes) :
    (set.managed epoch tx).isValidator address =
      tx.registeredAfter address (set.isValidator address) := by
  unfold isValidator managed Transaction.registeredAfter
  cases tx.data with
  | registerValidator stake =>
    rw [lookup_registerValidator]
    by_cases hsender : tx.sender = address
    · subst hsender
      by_cases hstake : minStake ≤ stake
      · cases hlookup : set.validators.lookup tx.sender <;> simp [hstake]
      · simp [hstake]
    · simp [hsender, Ne.symm hsender]
  | unregisterValidator =>
    rw [lookup_unregisterValidator]
    by_cases hsender : tx.sender = address
    · simp [hsender]
    · simp [hsender, Ne.symm hsender]
  | _ => simp

/-- Who is registered after the management of some transactions. -/
theorem isValidator_foldl_managed (set : ValidatorSet) (epoch : UInt64) (txs : List Transaction)
    (address : Bytes) :
    (txs.foldl (managed · epoch) set).isValidator address =
      txs.foldl (Transaction.registeredAfter address) (set.isValidator address) := by
  induction txs generalizing set with
  | nil => rfl
  | cons tx rest ih => rw [List.foldl_cons, List.foldl_cons, ih, isValidator_managed]

end ValidatorSet

/-- A transaction leaves the balance of an address that it does not touch. -/
theorem Transaction.balanceAfter_of_untouched {partners : Bytes → Option (Bytes × Bytes)}
    {tx : Transaction} {address : Bytes} (h : address ∉ tx.touched partners) (balance : UInt64) :
    tx.balanceAfter partners address balance = balance := by
  unfold touched at h
  obtain ⟨hsender, hothers⟩ := not_or.mp (List.mem_cons.not.mp h)
  unfold balanceAfter received
  rw [if_neg (Ne.symm hsender)]
  cases hdata : tx.data with
  | nativeTransfer amount =>
    simp only [hdata, List.mem_singleton] at hothers
    simp [Ne.symm hothers]
  | closeChannel channelId balanceProof finalBalanceA finalBalanceB =>
    simp only [hdata] at hothers
    cases hpartners : partners channelId with
    | none => simp [hpartners]
    | some pair =>
      simp only [hpartners, List.mem_cons, List.not_mem_nil, or_false, not_or] at hothers
      simp [hpartners, Ne.symm hothers.1, Ne.symm hothers.2]
  | _ => exact UInt64.add_zero _

/-- Transactions leave the balance of an address that none of them touches. -/
theorem Transaction.foldl_balanceAfter_of_untouched {partners : Bytes → Option (Bytes × Bytes)}
    {txs : List Transaction} {address : Bytes} (h : ∀ tx ∈ txs, address ∉ tx.touched partners)
    (balance : UInt64) : txs.foldl (balanceAfter partners address) balance = balance := by
  induction txs with
  | nil => rfl
  | cons tx rest ih =>
    rw [List.foldl_cons, balanceAfter_of_untouched (h tx List.mem_cons_self)]
    exact ih fun other hother => h other (List.mem_cons_of_mem tx hother)

/-- The effect of a registration: a covered stake leaves the balance. -/
theorem State.effect_of_registration {crypto : Crypto} {s s' : State} {tx : Transaction}
    {stake : UInt64} (hdata : tx.data = .registerValidator stake) (h : Effect crypto s tx s') :
    stake ≤ (s.accountOrNew tx.sender).balance ∧ s' = s.modifyAccount tx.sender (.debit stake) := by
  cases h with
  | registerValidator hdata' hsender hfunds =>
    obtain rfl := TransactionData.registerValidator.inj (hdata.symm.trans hdata')
    exact ⟨hfunds, rfl⟩
  | nativeTransfer hdata' | createAsset hdata' | transferAsset hdata' | createCollection hdata'
  | mintNFT hdata' | transferNFT hdata' | openChannel hdata' | closeChannel hdata'
  | delegateSpend hdata' | unregisterValidator hdata' =>
    rw [hdata] at hdata'
    contradiction

namespace Chain

variable {crypto : Crypto} {host : Host} {chain chain' : Chain} {block : Block} {accepted : Bool}

/-- An accepted block passed the checks up to the state root, on any database. -/
theorem commit_of_accepted (h : addBlock crypto host chain block = some (true, chain')) :
    ∃ state, processTransactions crypto (chain.recordHeader host block).state.discardChanges
        block.transactions = (.ok (), state) ∧
      CommitOutcome crypto host ((chain.recordHeader host block).withState state) block true chain' := by
  cases delivery_of_addBlock h with
  | commit _ _ _ hexec _ hcommit => exact ⟨_, hexec, commitOutcome_of_commitBlock hcommit⟩

/-- The validator set after an accepted block. -/
theorem validators_of_accepted (h : addBlock crypto host chain block = some (true, chain')) :
    chain'.validators =
      block.transactions.foldl (ValidatorSet.managed · block.header.epoch) chain.validators := by
  obtain ⟨state, -, houtcome⟩ := commit_of_accepted h
  cases houtcome with
  | finished head heights happly =>
    obtain ⟨pending, storage, hfold, -⟩ :=
      foldl_indexTransaction_frame crypto host block block.transactions _
    rw [hfold, validators_withState, validators_recordHeader]

/-- The state in which a delivered block executes the transaction that comes after some others. -/
def stateAfter (crypto : Crypto) (chain : Chain) (txs : List Transaction) : State :=
  (processTransactions crypto chain.state.discardChanges txs).2

/-- The set in which an accepted block manages the transaction that comes after some others. -/
def validatorsAfter (chain : Chain) (block : Block) (txs : List Transaction) : ValidatorSet :=
  txs.foldl (ValidatorSet.managed · block.header.epoch) chain.validators

/-- The execution of a transaction reduces its sender's balance by a stake. -/
def TakesStake (crypto : Crypto) (chain : Chain) (earlier : List Transaction) (tx : Transaction)
    (stake : UInt64) : Prop :=
  ((chain.stateAfter crypto (earlier ++ [tx])).getBalance tx.sender).toNat + stake.toNat =
    ((chain.stateAfter crypto earlier).getBalance tx.sender).toNat

/-- The management of a transaction enters its sender in the validator set, with exactly a stake. -/
def GainsStake (chain : Chain) (block : Block) (earlier : List Transaction) (tx : Transaction)
    (stake : UInt64) : Prop :=
  (chain.validatorsAfter block earlier).validators.lookup tx.sender = none ∧
    ((chain.validatorsAfter block (earlier ++ [tx])).validators.lookup tx.sender).map
      ValidatorInfo.stake = some stake

instance (crypto : Crypto) (chain : Chain) (earlier : List Transaction) (tx : Transaction)
    (stake : UInt64) : Decidable (chain.TakesStake crypto earlier tx stake) :=
  inferInstanceAs (Decidable (_ = _))

instance (chain : Chain) (block : Block) (earlier : List Transaction) (tx : Transaction)
    (stake : UInt64) : Decidable (chain.GainsStake block earlier tx stake) :=
  inferInstanceAs (Decidable (_ ∧ _))

/-- An executed registration takes its stake. -/
theorem takesStake_of_executed {earlier later : List Transaction} {tx : Transaction} {stake : UInt64}
    (hexec : (processTransactions crypto chain.state.discardChanges
      (earlier ++ tx :: later)).1 = .ok ())
    (hdata : tx.data = .registerValidator stake) : chain.TakesStake crypto earlier tx stake := by
  rw [List.append_cons] at hexec
  obtain ⟨after, hafter⟩ := processTransactions_of_append hexec
  have hexec' : (processTransactions crypto chain.state.discardChanges (earlier ++ [tx])).1 = .ok () := by
    rw [hafter]
  obtain ⟨before, hbefore⟩ := processTransactions_of_append hexec'
  unfold TakesStake stateAfter
  rw [hafter, hbefore]
  rw [processTransactions_append hbefore, processTransactions] at hafter
  split at hafter
  · simp at hafter
  · rename_i next hnext
    obtain rfl := (Prod.mk.inj hafter).2
    obtain ⟨-, s₁, heffect, rfl⟩ := State.applyTransaction_ok (processTransaction_ok hnext)
    obtain ⟨hfunds, rfl⟩ := State.effect_of_registration hdata heffect
    rw [State.getBalance_eq, State.getBalance_eq, State.accountOrNew_modifyAccount, if_pos rfl,
      State.accountOrNew_modifyAccount, if_pos rfl]
    have hsub := UInt64.toNat_sub_of_le _ _ hfunds
    have hle := UInt64.le_iff_toNat_le.mp hfunds
    simp only [Account.bumpNonce, Account.debit]
    omega

/-- A registration is entered exactly for a stake of at least `MIN_STAKE` of a sender who is not
registered. -/
theorem gainsStake_iff {earlier : List Transaction} {tx : Transaction} {stake : UInt64}
    (hdata : tx.data = .registerValidator stake) :
    chain.GainsStake block earlier tx stake ↔
      minStake ≤ stake ∧ earlier.foldl (Transaction.registeredAfter tx.sender)
        (chain.validators.isValidator tx.sender) = false := by
  have hmanaged : chain.validatorsAfter block (earlier ++ [tx]) =
      ((chain.validatorsAfter block earlier).registerValidator tx.sender stake block.header.epoch).2 := by
    unfold validatorsAfter
    rw [List.foldl_append, List.foldl_cons, List.foldl_nil, ValidatorSet.managed, hdata]
  rw [← ValidatorSet.isValidator_foldl_managed _ block.header.epoch]
  unfold GainsStake
  rw [hmanaged, ValidatorSet.lookup_registerValidator]
  change _ ↔ _ ∧ ((chain.validatorsAfter block earlier).validators.lookup tx.sender).isSome = false
  cases hlookup : (chain.validatorsAfter block earlier).validators.lookup tx.sender with
  | some validator => simp
  | none => by_cases hstake : minStake ≤ stake <;> simp [hstake, ValidatorInfo.new]

/-- In every accepted block, a registration takes the stake from the balance just as it enters it in the
validator set exactly when the stake is at least `MIN_STAKE` and its sender is not registered, before
the block or by an earlier transaction of it. The set after the block is the managed one. -/
theorem stakes_all_or_nothing_iff {earlier later : List Transaction} {tx : Transaction}
    {stake : UInt64} (h : addBlock crypto host chain block = some (true, chain'))
    (hsplit : block.transactions = earlier ++ tx :: later) (hdata : tx.data = .registerValidator stake) :
    chain'.validators = chain.validatorsAfter block (earlier ++ tx :: later) ∧
      ((chain.TakesStake crypto earlier tx stake ↔ chain.GainsStake block earlier tx stake) ↔
        minStake ≤ stake ∧ earlier.foldl (Transaction.registeredAfter tx.sender)
          (chain.validators.isValidator tx.sender) = false) := by
  obtain ⟨state, hexec, -⟩ := commit_of_accepted h
  have hok := (execution_eq hexec).1
  rw [hsplit] at hok
  have htakes := takesStake_of_executed hok hdata
  constructor
  · rw [validators_of_accepted h, hsplit]
    rfl
  · exact (iff_true_left htakes).trans (gainsStake_iff hdata)

/-- The network's state with two thousand coins of Alice. -/
def stakingStart : Option Chain :=
  start Crypto.plain Host.plain .empty Sample.genesis [(Sample.alice, 2000)] [(Sample.validator, 1000)]

/-- Alice's registration with a stake. -/
def registration (stake : UInt64) : Transaction :=
  Transaction.new Crypto.plain Sample.alice Sample.alice (.registerValidator stake) 0 Sample.alice

/-- A first block that holds the registration. -/
def registrationBlock (stake : UInt64) : Block :=
  Sample.block Sample.genesis 1 [registration stake]

/-- A registration with fifty coins is accepted and takes them, and enters nobody. -/
theorem stake_taken_without_entry :
    ∃ opened chain', stakingStart = some opened ∧
      addBlock Crypto.plain Host.plain opened (registrationBlock 50) = some (true, chain') ∧
      (registrationBlock 50).transactions = [] ++ registration 50 :: [] ∧
      (registration 50).data = .registerValidator 50 ∧
      ¬ (opened.TakesStake Crypto.plain [] (registration 50) 50 ↔
        opened.GainsStake (registrationBlock 50) [] (registration 50) 50) := by
  obtain ⟨opened, chain', hstart, hadd, hcheck⟩ := Sample.exists_accepted stakingStart
    (registrationBlock 50)
    (fun opened _ => decide (opened.TakesStake Crypto.plain [] (registration 50) 50 ∧
      ¬ opened.GainsStake (registrationBlock 50) [] (registration 50) 50)) (by decide +kernel)
  obtain ⟨htakes, hgains⟩ := of_decide_eq_true hcheck
  exact ⟨opened, chain', hstart, hadd, rfl, rfl, fun hiff => hgains (hiff.mp htakes)⟩

/-- A registration with a thousand takes and enters them. -/
theorem stakes_all_or_nothing_thousand :
    ∃ opened chain', stakingStart = some opened ∧
      addBlock Crypto.plain Host.plain opened (registrationBlock 1000) = some (true, chain') ∧
      (opened.TakesStake Crypto.plain [] (registration 1000) 1000 ↔
        opened.GainsStake (registrationBlock 1000) [] (registration 1000) 1000) := by
  obtain ⟨opened, chain', hstart, hadd, hcheck⟩ := Sample.exists_accepted stakingStart
    (registrationBlock 1000)
    (fun opened _ => decide (([] : List Transaction).foldl (Transaction.registeredAfter Sample.alice)
      (opened.validators.isValidator Sample.alice) = false)) (by decide +kernel)
  have hfresh := of_decide_eq_true hcheck
  have hsplit : (registrationBlock 1000).transactions = [] ++ registration 1000 :: [] := rfl
  exact ⟨opened, chain', hstart, hadd,
    (stakes_all_or_nothing_iff hadd hsplit rfl).2.mpr ⟨by decide, hfresh⟩⟩

end Chain

namespace ValidatorSet

/-- The stake that the management of a transaction pays back to an address. -/
def refund (set : ValidatorSet) (address : Bytes) (tx : Transaction) : UInt64 :=
  match tx.data with
  | .unregisterValidator =>
      if tx.sender = address then ((set.validators.lookup address).map ValidatorInfo.stake).getD 0 else 0
  | _ => 0

/-- The stakes that the management of a block's transactions pays back to an address. -/
def refunded (epoch : UInt64) (address : Bytes) : ValidatorSet → List Transaction → UInt64
  | _, [] => 0
  | set, tx :: rest => set.refund address tx + refunded epoch address (set.managed epoch tx) rest

/-- Transactions of other senders pay nothing back. -/
theorem refunded_of_others {epoch : UInt64} {address : Bytes} {txs : List Transaction}
    (h : ∀ tx ∈ txs, tx.sender ≠ address) (set : ValidatorSet) :
    refunded epoch address set txs = 0 := by
  induction txs generalizing set with
  | nil => rfl
  | cons tx rest ih =>
    have hfirst : set.refund address tx = 0 := by
      unfold refund
      rw [if_neg (h tx List.mem_cons_self)]
      split <;> rfl
    rw [refunded, hfirst, ih fun other hother => h other (List.mem_cons_of_mem tx hother)]
    rfl

end ValidatorSet

namespace Chain

variable {crypto : Crypto} {host : Host} {chain chain' : Chain} {block : Block} {accepted : Bool}
  {address : Bytes}

/-- The balance of the stored account. -/
def storedBalance (chain : Chain) (address : Bytes) : UInt64 :=
  ((chain.storage.getAccount address).map Account.balance).getD 0

/-- The balance is one of the account table. -/
theorem getBalance_eq_lookup (state : State) (address : Bytes) :
    state.getBalance address = ((state.accounts.lookup address).map Account.balance).getD 0 := by
  rw [State.getBalance, State.getAccount_eq_lookup]

/-- Managing and indexing a transaction pays its refund into the overlay; the stored accounts stay. -/
theorem balance_indexTransaction (crypto : Crypto) (host : Host) (block : Block) (address : Bytes)
    (chain : Chain) (tx : Transaction) :
    (indexTransaction crypto host block chain tx).state.getBalance address =
        chain.state.getBalance address + chain.validators.refund address tx ∧
      (indexTransaction crypto host block chain tx).storedBalance address =
        chain.storedBalance address ∧
      (indexTransaction crypto host block chain tx).validators =
        chain.validators.managed block.header.epoch tx := by
  obtain ⟨storage, hindex, ⟨txIndex, historyCount, history, rfl⟩⟩ :=
    indexTransaction_frame crypto host block chain tx
  obtain ⟨pending, hmanage, -⟩ := manageValidators_frame chain block tx
  rw [hindex]
  refine ⟨?_, ?_, ?_⟩
  · change (chain.manageValidators block tx).state.getBalance address = _
    unfold manageValidators ValidatorSet.refund
    cases hdata : tx.data with
    | unregisterValidator =>
      dsimp only
      unfold ValidatorSet.unregisterValidator
      by_cases hsender : tx.sender = address
      · rw [if_pos hsender, ← hsender]
        cases chain.validators.validators.lookup tx.sender with
        | none => exact (UInt64.add_zero _).symm
        | some validator =>
          rw [State.getBalance_eq, State.getBalance_eq]
          change ((chain.state.modifyAccount tx.sender (.credit validator.stake)).accountOrNew
            tx.sender).balance = _
          rw [State.accountOrNew_modifyAccount, if_pos rfl]
          rfl
      · rw [if_neg hsender, UInt64.add_zero]
        cases chain.validators.validators.lookup tx.sender with
        | none => rfl
        | some validator =>
          rw [State.getBalance_eq, State.getBalance_eq]
          change ((chain.state.modifyAccount tx.sender (.credit validator.stake)).accountOrNew
            address).balance = _
          rw [State.accountOrNew_modifyAccount, if_neg (Ne.symm hsender)]
    | _ => exact (UInt64.add_zero _).symm
  · rw [hmanage]
    rfl
  · rw [hmanage]
    rfl

/-- Managing and indexing the transactions of a block pays their refunds into the overlay. -/
theorem balance_foldl_indexTransaction (crypto : Crypto) (host : Host) (block : Block)
    (address : Bytes) (txs : List Transaction) (chain : Chain) :
    (txs.foldl (indexTransaction crypto host block) chain).state.getBalance address =
        chain.state.getBalance address +
          ValidatorSet.refunded block.header.epoch address chain.validators txs ∧
      (txs.foldl (indexTransaction crypto host block) chain).storedBalance address =
        chain.storedBalance address := by
  induction txs generalizing chain with
  | nil => exact ⟨(UInt64.add_zero _).symm, rfl⟩
  | cons tx rest ih =>
    obtain ⟨hbalance, hstored, hvalidators⟩ :=
      balance_indexTransaction crypto host block address chain tx
    obtain ⟨hrest, hkept⟩ := ih (indexTransaction crypto host block chain tx)
    rw [List.foldl_cons]
    refine ⟨?_, hkept.trans hstored⟩
    rw [hrest, hbalance, hvalidators, ValidatorSet.refunded, UInt64.add_assoc]

/-- After a commit, finished or stopped, the balances are those of the executed state with the refunds
of an accepted block; a balance that the execution left as it was stored is stored. -/
theorem balance_of_commitOutcome {state : State}
    (h : CommitOutcome crypto host (chain.withState state) block accepted chain') (address : Bytes) :
    (accepted = true → chain'.state.getBalance address = state.getBalance address +
        ValidatorSet.refunded block.header.epoch address chain.validators block.transactions ∧
      chain'.storedBalance address = state.getBalance address) ∧
    (accepted = false → state.getBalance address = (chain.withState state).storedBalance address →
      chain'.state.getBalance address = state.getBalance address ∧
        chain'.storedBalance address = state.getBalance address) := by
  cases h with
  | blockRefused head stored =>
    refine ⟨by simp, fun _ hsame => ?_⟩
    rw [hsame]
    exact ⟨rfl, rfl⟩
  | @accountRefused head stored error after happly =>
    refine ⟨by simp, fun _ hsame => ?_⟩
    have hkept : after.getBalance address = state.getBalance address := by
      rw [getBalance_eq_lookup, (State.accounts_applyChanges happly).1, getBalance_eq_lookup]
      rfl
    refine ⟨hkept, ?_⟩
    rcases State.stored_of_applyChanges happly address with hbefore | hcurrent
    · rw [hsame]
      exact congrArg (fun account => (account.map Account.balance).getD 0) hbefore
    · rw [getBalance_eq_lookup]
      exact congrArg (fun account => (account.map Account.balance).getD 0) hcurrent
  | @finished head stored heights after happly =>
    refine ⟨fun _ => ?_, by simp⟩
    obtain ⟨trie, rfl⟩ := State.applyChanges_ok happly
    obtain ⟨hbalance, hstored⟩ := balance_foldl_indexTransaction crypto host block address
      block.transactions _
    refine ⟨hbalance.trans ?_, hstored.trans ?_⟩
    · have haccounts : (∅ : FiniteMap Bytes Account) ∪ state.accounts = state.accounts :=
        Finmap.empty_union
      refine congrArg (· + _) ?_
      rw [getBalance_eq_lookup, getBalance_eq_lookup]
      exact congrArg (fun accounts : FiniteMap Bytes Account =>
        ((accounts.lookup address).map Account.balance).getD 0) haccounts
    · rw [getBalance_eq_lookup]
      rfl

/-- The execution of a block leaves the stored balances. -/
theorem storedBalance_of_execution {result : Except String Unit} {state : State}
    (hexec : processTransactions crypto (chain.recordHeader host block).state.discardChanges
      block.transactions = (result, state)) (address : Bytes) :
    ((chain.recordHeader host block).withState state).storedBalance address =
      chain.storedBalance address := by
  obtain ⟨headers, hstorage⟩ := storage_of_execution_frame hexec
  change ((state.storage.getAccount address).map Account.balance).getD 0 = _
  rw [hstorage]
  rfl

/-- The ledger decides the balances. -/
theorem getBalance_congr {state state' : State} (h : state.ledger = state'.ledger) (address : Bytes) :
    state.getBalance address = state'.getBalance address := by
  have haccounts : state.accounts = state'.accounts := congrArg Ledger.accounts h
  rw [getBalance_eq_lookup, haccounts, getBalance_eq_lookup]

/-- A balance that no transaction touches is executed as it is stored. -/
theorem getBalance_of_execution {state : State}
    (hexec : processTransactions crypto (chain.recordHeader host block).state.discardChanges
      block.transactions = (.ok (), state))
    (huntouched : ∀ tx ∈ block.transactions,
      address ∉ tx.touched (partnersWith crypto chain.state block.transactions)) :
    state.getBalance address = chain.storedBalance address := by
  obtain ⟨hok, hledger⟩ := execution_eq hexec
  rw [getBalance_congr hledger]
  rcases hrun : processTransactions crypto chain.state.discardChanges block.transactions with ⟨result, after⟩
  rw [hrun] at hok
  obtain rfl : result = .ok () := hok
  have hholdings := holdings_of_processTransactions List.prefix_rfl hrun
  have hbalance : (after.accountOrNew address).balance = block.transactions.foldl
      (Transaction.balanceAfter (partnersWith crypto chain.state block.transactions) address)
        (chain.state.discardChanges.accountOrNew address).balance :=
    congrFun (congrArg Holdings.balance hholdings) address
  rw [State.getBalance_eq, hbalance, Transaction.foldl_balanceAfter_of_untouched huntouched,
    ← State.getBalance_eq]
  rfl

/-- A delivery that does not touch an address leaves its stored balance; executing the block brings the
balance back to the stored one, any other delivery leaves it as well. -/
theorem balance_of_delivery (h : Delivery crypto host chain block accepted chain')
    (huntouched : ∀ tx ∈ block.transactions,
      address ∉ tx.touched (partnersWith crypto chain.state block.transactions)) :
    chain'.storedBalance address = chain.storedBalance address ∧
      (chain.Executes crypto block →
        chain'.state.getBalance address = chain.storedBalance address) ∧
      (¬ chain.Executes crypto block →
        accepted = false ∧ chain'.state.getBalance address = chain.state.getBalance address) := by
  have hothers : ∀ tx ∈ block.transactions, tx.sender ≠ address :=
    fun tx htx hsender => huntouched tx htx (by simp [Transaction.touched, hsender])
  have hrecord : (chain.recordHeader host block).storedBalance address = chain.storedBalance address ∧
      (chain.recordHeader host block).state.getBalance address = chain.state.getBalance address := by
    obtain ⟨seenHeaders, headers, hrecord⟩ := recordHeader_frame host chain block
    rw [hrecord]
    exact ⟨rfl, rfl⟩
  cases h with
  | orphan hparent =>
    refine ⟨rfl, ?_, fun _ => ⟨rfl, rfl⟩⟩
    rintro ⟨parent, hstored, -⟩
    exact absurd (hparent.symm.trans hstored) (by simp)
  | equivocation hparent hexisting hne =>
    refine ⟨rfl, ?_, fun _ => ⟨rfl, rfl⟩⟩
    rintro ⟨parent, -, hconsistent, -⟩
    exact absurd (hconsistent _ hexisting) hne
  | invalid hparent hconsistent hinvalid =>
    refine ⟨hrecord.1, ?_, fun _ => ⟨rfl, hrecord.2⟩⟩
    rintro ⟨parent, hstored, -, hvalid⟩
    obtain rfl := Option.some.inj (hparent.symm.trans hstored)
    exact absurd (hinvalid.symm.trans hvalid) (by simp)
  | failed hparent hconsistent hvalid hexec | mismatch hparent hconsistent hvalid hexec =>
    have hstored := storedBalance_of_execution hexec address
    exact ⟨hstored, fun _ => hstored,
      fun hnot => absurd ⟨_, hparent, hconsistent, hvalid⟩ hnot⟩
  | @commit parent state accepted chain' hparent hconsistent hvalid hexec hroot hcommit =>
    have hexecuted := getBalance_of_execution hexec huntouched
    have hstored := storedBalance_of_execution hexec address
    obtain ⟨hfinished, hrefused⟩ := balance_of_commitOutcome
      (commitOutcome_of_commitBlock hcommit) address
    have hboth : chain'.state.getBalance address = chain.storedBalance address ∧
        chain'.storedBalance address = chain.storedBalance address := by
      cases accepted with
      | true =>
        have hafter := hfinished rfl
        rwa [ValidatorSet.refunded_of_others hothers, UInt64.add_zero, hexecuted] at hafter
      | false =>
        have hafter := hrefused rfl (hexecuted.trans hstored.symm)
        rwa [hexecuted] at hafter
    exact ⟨hboth.2, fun _ => hboth.1, fun hnot => absurd ⟨_, hparent, hconsistent, hvalid⟩ hnot⟩

/-- A delivery of a block whose transactions do not touch an address. -/
def DeliversWithout (crypto : Crypto) (address : Bytes) (call : Call Chain Request Bool) : Prop :=
  ∃ host block, call.label = .deliver host block ∧ ∀ tx ∈ block.transactions,
    address ∉ tx.touched (partnersWith crypto call.pre.state block.transactions)

/-- A call that delivers a block whose transactions are executed. -/
def ExecutesBlock (crypto : Crypto) (call : Call Chain Request Bool) : Prop :=
  ∃ block, call.label.delivered = some block ∧ call.pre.Executes crypto block

/-- Some later calls keep an amount: every state reports it as the balance of the address, and after every
accepted block it is stored. -/
def KeepsBalance (paid : Chain) (calls : List (Call Chain Request Bool)) (address : Bytes)
    (balance : UInt64) : Prop :=
  paid.state.getBalance address = balance ∧ ∀ call ∈ calls,
    call.post.state.getBalance address = balance ∧
      (call.output = true → call.post.storedBalance address = balance)

/-- Along deliveries without an address the stored balance stays; the balance stays as long as no block
is executed and is the stored one from then on. -/
theorem balance_of_run {start last : Chain} {calls : List (Call Chain Request Bool)}
    (hrun : Run (serve crypto) start calls last)
    (hcalls : ∀ call ∈ calls, DeliversWithout crypto address call) :
    last.storedBalance address = start.storedBalance address ∧
      ((∃ call ∈ calls, ExecutesBlock crypto call) →
        last.state.getBalance address = start.storedBalance address) ∧
      ((∀ call ∈ calls, ¬ ExecutesBlock crypto call) →
        (∀ call ∈ calls, call.output = false) ∧
          last.state.getBalance address = start.state.getBalance address) := by
  induction hrun with
  | nil => simp
  | @snoc calls s s' request output _ hnext ih =>
    obtain ⟨hstored, hexecuted, hidle⟩ :=
      ih fun call hcall => hcalls call (List.mem_append_left _ hcall)
    have hlast : (⟨s, request, output, s'⟩ : Call Chain Request Bool) ∈
        calls ++ [⟨s, request, output, s'⟩] := List.mem_append_right _ (List.mem_singleton_self _)
    obtain ⟨host, block, hlabel, huntouched⟩ := hcalls _ hlast
    obtain rfl : request = .deliver host block := hlabel
    obtain ⟨hstored', hexecutes, hidles⟩ := balance_of_delivery (delivery_of_addBlock hnext) huntouched
    refine ⟨hstored'.trans hstored, fun hsome => ?_, fun hnone => ?_⟩
    · by_cases hblock : s.Executes crypto block
      · exact (hexecutes hblock).trans hstored
      · obtain ⟨call, hcall, hexec⟩ := hsome
        rcases List.mem_append.mp hcall with hold | hnew
        · exact (hidles hblock).2.trans (hexecuted ⟨call, hold, hexec⟩)
        · rw [List.mem_singleton.mp hnew] at hexec
          obtain ⟨other, hdelivered, hother⟩ := hexec
          obtain rfl := Option.some.inj hdelivered
          exact absurd hother hblock
    · have hblock : ¬ s.Executes crypto block := fun hexec => hnone _ hlast ⟨block, rfl, hexec⟩
      obtain ⟨hrejected, hbalance⟩ :=
        hidle fun call hcall => hnone call (List.mem_append_left _ hcall)
      refine ⟨fun call hcall => ?_, (hidles hblock).2.trans hbalance⟩
      rcases List.mem_append.mp hcall with hold | hnew
      · exact hrejected call hold
      · rw [List.mem_singleton.mp hnew]
        exact (hidles hblock).1

/-- Right after an accepted block its refunds are on top of the executed balances, which are stored. -/
theorem balance_of_accepted (h : addBlock crypto host chain block = some (true, chain'))
    (address : Bytes) :
    chain'.state.getBalance address = (chain.stateAfter crypto block.transactions).getBalance address +
        ValidatorSet.refunded block.header.epoch address chain.validators block.transactions ∧
      chain'.storedBalance address =
        (chain.stateAfter crypto block.transactions).getBalance address := by
  obtain ⟨state, hexec, houtcome⟩ := commit_of_accepted h
  have hbalance := (balance_of_commitOutcome houtcome address).1 rfl
  rw [getBalance_congr (execution_eq hexec).2, validators_recordHeader] at hbalance
  exact hbalance

/-- In every continuation of an accepted block by deliveries that do not touch an address, the stakes that
the block paid back to it stay in its balance, and are stored by the next accepted block, exactly when
they are zero or no later block is executed. -/
theorem refund_kept_iff {paid last : Chain} {calls : List (Call Chain Request Bool)}
    (haccepted : addBlock crypto host chain block = some (true, paid))
    (hrun : Run (serve crypto) paid calls last)
    (hcalls : ∀ call ∈ calls, DeliversWithout crypto address call) :
    KeepsBalance paid calls address
        ((chain.stateAfter crypto block.transactions).getBalance address +
          ValidatorSet.refunded block.header.epoch address chain.validators block.transactions) ↔
      ValidatorSet.refunded block.header.epoch address chain.validators block.transactions = 0 ∨
        ∀ call ∈ calls, ¬ ExecutesBlock crypto call := by
  obtain ⟨hpaid, hstored⟩ := balance_of_accepted haccepted address
  constructor
  · rintro ⟨-, hkeeps⟩
    by_contra hneither
    obtain ⟨hrefund, hsome⟩ := not_or.mp hneither
    push Not at hsome
    obtain ⟨call, hcall, hexecutes⟩ := hsome
    obtain ⟨before, after, rfl, hupto⟩ := hrun.upto hcall
    have hafter := (balance_of_run hupto fun earlier hearlier =>
      hcalls earlier (List.mem_append_left _ hearlier)).2.1 ⟨call, by simp, hexecutes⟩
    rw [(hkeeps call hcall).1, hstored] at hafter
    exact hrefund (UInt64.add_eq_left.mp hafter)
  · intro hcondition
    refine ⟨hpaid, fun call hcall => ?_⟩
    obtain ⟨before, after, rfl, hupto⟩ := hrun.upto hcall
    obtain ⟨hkept, hexecuted, hidle⟩ := balance_of_run hupto fun earlier hearlier =>
      hcalls earlier (List.mem_append_left _ hearlier)
    by_cases hsome : ∃ earlier ∈ before ++ [call], ExecutesBlock crypto earlier
    · obtain ⟨earlier, hearlier, hexecutes⟩ := hsome
      have hzero := hcondition.resolve_right fun hnone =>
        hnone earlier (List.mem_append_left _ hearlier) hexecutes
      rw [hzero, UInt64.add_zero, ← hstored]
      exact ⟨hexecuted ⟨earlier, hearlier, hexecutes⟩, fun _ => hkept⟩
    · push Not at hsome
      obtain ⟨hrejected, hbalance⟩ := hidle hsome
      refine ⟨hbalance.trans hpaid, fun haccepted => ?_⟩
      rw [hrejected call (by simp)] at haccepted
      contradiction

/-- The block after the one above, in which Alice unregisters. -/
def unstakingBlock : Block :=
  Sample.block (registrationBlock 1000) 2
    [Transaction.new Crypto.plain Sample.alice Sample.alice .unregisterValidator 1 Sample.alice]

/-- Alice's registration, her unregistration and one more block, with what a check of the last two
calls finds. -/
theorem exists_unstaking (later : Block)
    (check : Call Chain Request Bool → Call Chain Request Bool → Bool)
    (h : stakingStart.any (fun opened => (trace (serve Crypto.plain) opened
      [.deliver Host.plain (registrationBlock 1000), .deliver Host.plain unstakingBlock,
        .deliver Host.plain later]).any fun recorded =>
      match recorded.1 with
      | [_, unstaking, call] => unstaking.output && check unstaking call
      | _ => false) = true) :
    ∃ opened before chain paid call, stakingStart = some opened ∧
      Run (serve Crypto.plain) opened before chain ∧
      addBlock Crypto.plain Host.plain chain unstakingBlock = some (true, paid) ∧
      Run (serve Crypto.plain) paid [call] call.post ∧ call.label = .deliver Host.plain later ∧
      check ⟨chain, .deliver Host.plain unstakingBlock, true, paid⟩ call = true := by
  obtain ⟨opened, calls, last, hstart, hrun, hlabels, hcheck⟩ := Run.exists_of_trace_from
    (serve Crypto.plain) stakingStart _ (fun _ calls _ => match calls with
      | [_, unstaking, call] => unstaking.output && check unstaking call
      | _ => false) h
  split at hcheck
  · rename_i registering unstaking call
    obtain ⟨houtput, hcheck⟩ := Bool.and_eq_true_iff.mp hcheck
    simp only [List.map_cons, List.map_nil, List.cons.injEq, and_true] at hlabels
    obtain ⟨-, hunstaking, hlabel⟩ := hlabels
    have hmem : unstaking ∈ [registering, unstaking, call] := by simp
    have hnext := hrun.next_of_mem hmem
    have hargs : unstaking =
        ⟨unstaking.pre, .deliver Host.plain unstakingBlock, true, unstaking.post⟩ := by
      rw [← hunstaking, ← houtput]
    have haround : Run (serve Crypto.plain) opened ([registering] ++ unstaking :: [call]) last := hrun
    obtain ⟨hbefore, hafter⟩ := haround.around
    have hsingle : Run (serve Crypto.plain) unstaking.post ([] ++ [call]) last := hafter
    have hlast := (Run.snoc_iff.mp hsingle).2.2
    rw [hunstaking, houtput] at hnext
    rw [hargs] at hcheck
    exact ⟨opened, [registering], unstaking.pre, unstaking.post, call, hstart, hbefore, hnext,
      hlast ▸ hafter, hlabel, hcheck⟩
  · simp at hcheck

/-- The refund of a thousand coins is gone after the next block, an empty one. -/
theorem refund_lost :
    ∃ opened before chain paid call, stakingStart = some opened ∧
      Run (serve Crypto.plain) opened before chain ∧
      addBlock Crypto.plain Host.plain chain unstakingBlock = some (true, paid) ∧
      Run (serve Crypto.plain) paid [call] call.post ∧
      (∀ other ∈ [call], DeliversWithout Crypto.plain Sample.alice other) ∧
      ValidatorSet.refunded unstakingBlock.header.epoch Sample.alice chain.validators
        unstakingBlock.transactions = 1000 ∧
      ¬ KeepsBalance paid [call] Sample.alice
        ((chain.stateAfter Crypto.plain unstakingBlock.transactions).getBalance Sample.alice + 1000) := by
  obtain ⟨opened, before, chain, paid, call, hstart, hbefore, hadd, hrun, hlabel, hcheck⟩ :=
    exists_unstaking (Sample.block unstakingBlock 3 []) (fun unstaking call => decide (
      ValidatorSet.refunded unstakingBlock.header.epoch Sample.alice unstaking.pre.validators
        unstakingBlock.transactions = 1000 ∧
      call.post.state.getBalance Sample.alice ≠
        (unstaking.pre.stateAfter Crypto.plain unstakingBlock.transactions).getBalance
          Sample.alice + 1000)) (by decide +kernel)
  obtain ⟨hrefunded, hlost⟩ := of_decide_eq_true hcheck
  refine ⟨opened, before, chain, paid, call, hstart, hbefore, hadd, hrun, ?_, hrefunded, ?_⟩
  · intro other hother
    rw [List.mem_singleton.mp hother]
    exact ⟨Host.plain, _, hlabel, by simp [Sample.transactions_block]⟩
  · exact fun hkeeps => hlost (hkeeps.2 call (List.mem_singleton_self call)).1

/-- A block without a stored parent leaves it. -/
theorem refund_kept_by_orphan :
    ∃ opened before chain paid call, stakingStart = some opened ∧
      Run (serve Crypto.plain) opened before chain ∧
      addBlock Crypto.plain Host.plain chain unstakingBlock = some (true, paid) ∧
      Run (serve Crypto.plain) paid [call] call.post ∧
      KeepsBalance paid [call] Sample.alice
        ((chain.stateAfter Crypto.plain unstakingBlock.transactions).getBalance Sample.alice +
          ValidatorSet.refunded unstakingBlock.header.epoch Sample.alice chain.validators
            unstakingBlock.transactions) := by
  let orphan : Block := Sample.block (Sample.block Sample.genesis 7 []) 8 []
  obtain ⟨opened, before, chain, paid, call, hstart, hbefore, hadd, hrun, hlabel, hcheck⟩ :=
    exists_unstaking orphan (fun _ call => decide
      (call.pre.getBlock orphan.header.parentHash = none)) (by decide +kernel)
  have hparent := of_decide_eq_true hcheck
  have hwithout : ∀ other ∈ [call], DeliversWithout Crypto.plain Sample.alice other := by
    intro other hother
    rw [List.mem_singleton.mp hother]
    exact ⟨Host.plain, orphan, hlabel, by simp [orphan, Sample.transactions_block]⟩
  refine ⟨opened, before, chain, paid, call, hstart, hbefore, hadd, hrun,
    (refund_kept_iff hadd hrun hwithout).mpr (.inr fun other hother => ?_)⟩
  rw [List.mem_singleton.mp hother]
  rintro ⟨block, hdelivered, parent, hstored, -⟩
  rw [hlabel] at hdelivered
  obtain rfl := Option.some.inj hdelivered
  exact absurd (hparent.symm.trans hstored) (by simp)

end Chain

end Nocostcoin
