import Mathlib.Algebra.GroupWithZero.Nat
import Mathlib.Data.UInt
import Nocostcoin.Library.Execution
import Nocostcoin.Ledger

/-!
# The native supply

The exact sum of all balances and of the deposits of open channels. Every successful
transaction keeps it, up to a deducted stake, except a `CloseChannel` whose final balances
wrap: the wrapped sum passes the deposit check while the payouts need not wrap with it.
-/

namespace Nocostcoin

open Execution

namespace PaymentChannel

/-- The coins that a channel holds: its deposit until it is closed. -/
def lockedDeposit (channel : PaymentChannel) : ℕ :=
  if channel.isClosed then 0 else channel.totalDeposit.toNat

end PaymentChannel

namespace State

variable {crypto : Crypto} {s s' : State} {tx : Transaction}

/-- The sum of all balances. -/
def balanceSum (state : State) : ℕ :=
  FiniteMap.sumOf (fun account : Account => account.balance.toNat) state.accounts

/-- The sum of the deposits of the channels that are not closed. -/
def depositSum (state : State) : ℕ :=
  FiniteMap.sumOf PaymentChannel.lockedDeposit state.channels

/-- All native coins: balances and open deposits, as exact integers. -/
def nativeSupply (state : State) : ℕ := state.balanceSum + state.depositSum

@[simp] theorem balanceSum_putAsset (state : State) (assetId : Bytes) (asset : Asset) :
    (state.putAsset assetId asset).balanceSum = state.balanceSum := rfl

@[simp] theorem balanceSum_putCollection (state : State) (collectionId : Bytes)
    (collection : Collection) :
    (state.putCollection collectionId collection).balanceSum = state.balanceSum := rfl

@[simp] theorem balanceSum_putChannel (state : State) (channelId : Bytes)
    (channel : PaymentChannel) :
    (state.putChannel channelId channel).balanceSum = state.balanceSum := rfl

@[simp] theorem depositSum_putAsset (state : State) (assetId : Bytes) (asset : Asset) :
    (state.putAsset assetId asset).depositSum = state.depositSum := rfl

@[simp] theorem depositSum_putCollection (state : State) (collectionId : Bytes)
    (collection : Collection) :
    (state.putCollection collectionId collection).depositSum = state.depositSum := rfl

/-- The deposits do not depend on the accounts. -/
@[simp] theorem depositSum_modifyAccount (state : State) (address : Bytes)
    (update : Account → Account) :
    (state.modifyAccount address update).depositSum = state.depositSum := rfl

/-- Rewriting one account changes the balance sum by the new balance minus the old one. -/
theorem balanceSum_modifyAccount (state : State) (address : Bytes) (update : Account → Account) :
    (state.modifyAccount address update).balanceSum + (state.accountOrNew address).balance.toNat =
      state.balanceSum + (update (state.accountOrNew address)).balance.toNat :=
  sumOf_modifyAccount (fun account => account.balance.toNat) rfl state address update

/-- An update that keeps the balance keeps the balance sum. -/
theorem balanceSum_modifyAccount_of_keep (state : State) (address : Bytes)
    (update : Account → Account) (hkeep : ∀ account, (update account).balance = account.balance) :
    (state.modifyAccount address update).balanceSum = state.balanceSum :=
  sumOf_modifyAccount_of_keep (fun account => account.balance.toNat) rfl state address update
    fun account => congrArg UInt64.toNat (hkeep account)

/-- The balances of two addresses together are at most the balance sum. -/
theorem balance_add_le_balanceSum (state : State) {address other : Bytes} (hne : other ≠ address) :
    (state.accountOrNew address).balance.toNat + (state.accountOrNew other).balance.toNat ≤
      state.balanceSum := by
  have h := FiniteMap.weightAt_add_le_sumOf (fun account : Account => account.balance.toNat)
    state.accounts hne
  rwa [weightAt_accounts _ rfl, weightAt_accounts _ rfl] at h

/-- A covered debit takes exactly its amount. -/
theorem balanceSum_debit (state : State) (address : Bytes) {amount : UInt64}
    (hfunds : amount ≤ (state.accountOrNew address).balance) :
    (state.modifyAccount address (.debit amount)).balanceSum + amount.toNat = state.balanceSum := by
  have h := state.balanceSum_modifyAccount address (.debit amount)
  have hsub : ((state.accountOrNew address).balance - amount).toNat =
      (state.accountOrNew address).balance.toNat - amount.toNat := UInt64.toNat_sub_of_le _ _ hfunds
  have hle : amount.toNat ≤ (state.accountOrNew address).balance.toNat := UInt64.le_iff_toNat_le.mp hfunds
  simp only [Account.debit] at h
  omega

/-- Whether adding two words carries out of 64 bits. -/
def carry (x y : UInt64) : ℕ := (x.toNat + y.toNat) / 2 ^ 64

/-- The exact sum of two words is the wrapped one and the carry. -/
theorem toNat_add_carry (x y : UInt64) :
    (x + y).toNat + 2 ^ 64 * carry x y = x.toNat + y.toNat := by
  rw [UInt64.toNat_add, carry]
  omega

/-- A credit adds its amount, minus `2 ^ 64` when the balance wraps. -/
theorem balanceSum_credit (state : State) (address : Bytes) (amount : UInt64) :
    (state.modifyAccount address (.credit amount)).balanceSum +
        2 ^ 64 * carry (state.accountOrNew address).balance amount =
      state.balanceSum + amount.toNat := by
  have h := state.balanceSum_modifyAccount address (.credit amount)
  have hcarry := toNat_add_carry (state.accountOrNew address).balance amount
  simp only [Account.credit] at h
  omega

/-- How often a transfer wraps the balance of its receiver. -/
def transferCarry (state : State) (tx : Transaction) : ℕ :=
  match tx.data with
  | .nativeTransfer amount => carry (state.accountOrNew tx.receiver).balance amount
  | _ => 0

/-- How many of the two payouts of a `CloseChannel` wrap the balance they are added to. -/
def payoutCarries (state : State) (tx : Transaction) : ℕ :=
  match tx.data with
  | .closeChannel channelId _ finalBalanceA finalBalanceB =>
    match state.channels.lookup channelId with
    | none => 0
    | some channel =>
      let paidA := state.modifyAccount channel.partnerA (.credit finalBalanceA)
      carry (state.accountOrNew channel.partnerA).balance finalBalanceA +
        carry (paidA.accountOrNew channel.partnerB).balance finalBalanceB
  | _ => 0

end State

namespace Transaction

/-- How often the sum of the final balances of a `CloseChannel` wraps: once or not at all. -/
def finalBalanceCarry (tx : Transaction) : ℕ :=
  match tx.data with
  | .closeChannel _ _ finalBalanceA finalBalanceB => State.carry finalBalanceA finalBalanceB
  | _ => 0

/-- Two words are too small to wrap twice. -/
theorem finalBalanceCarry_le_one (tx : Transaction) : tx.finalBalanceCarry ≤ 1 := by
  unfold finalBalanceCarry State.carry
  split
  · rename_i finalBalanceA finalBalanceB _
    have hA := finalBalanceA.toNat_lt
    have hB := finalBalanceB.toNat_lt
    omega
  · exact Nat.zero_le 1

/-- The stake that a `RegisterValidator` takes out of the balances. -/
def deductedStake (tx : Transaction) : ℕ :=
  match tx.data with
  | .registerValidator stake => stake.toNat
  | _ => 0

end Transaction

namespace State

variable {crypto : Crypto} {s s' : State} {tx : Transaction}

/-- When the sum of the final balances of a `CloseChannel` wraps, one of its two payouts wraps the
balance it is added to as well. Every other transaction meets this. -/
def PayoutsInBalance (state : State) (tx : Transaction) : Prop :=
  tx.finalBalanceCarry = 0 ∨ 0 < state.payoutCarries tx

instance (state : State) (tx : Transaction) : Decidable (state.PayoutsInBalance tx) :=
  inferInstanceAs (Decidable (_ ∨ _))

/-- Registering a channel adds its deposit to the locked ones. -/
theorem depositSum_putChannel_of_fresh (state : State) {channelId : Bytes} (channel : PaymentChannel)
    (hfresh : state.channels.lookup channelId = none) :
    (state.putChannel channelId channel).depositSum = state.depositSum + channel.lockedDeposit := by
  have h := FiniteMap.sumOf_insert PaymentChannel.lockedDeposit state.channels channelId channel
  simp only [FiniteMap.weightAt, hfresh, Option.elim_none] at h
  exact h

/-- Closing an open channel releases its deposit. -/
theorem depositSum_putChannel_closed (state : State) {channelId : Bytes} {channel : PaymentChannel}
    (hchannel : state.channels.lookup channelId = some channel) (hopen : channel.isClosed = false) :
    (state.putChannel channelId channel.closed).depositSum + channel.totalDeposit.toNat =
      state.depositSum := by
  have h := FiniteMap.sumOf_insert PaymentChannel.lockedDeposit state.channels channelId channel.closed
  simp only [FiniteMap.weightAt, hchannel, Option.elim_some, PaymentChannel.lockedDeposit, hopen,
    PaymentChannel.closed, Bool.false_eq_true, if_false, if_true, Nat.add_zero] at h
  exact h

/-- A covered transfer between two addresses keeps the balance sum, unless the receiver's balance wraps. -/
theorem balanceSum_transfer {sender receiver : Bytes} {amount : UInt64} (hne : sender ≠ receiver)
    (hfunds : amount ≤ (s.accountOrNew sender).balance) :
    ((s.modifyAccount sender (.debit amount)).modifyAccount receiver (.credit amount)).balanceSum +
      2 ^ 64 * carry (s.accountOrNew receiver).balance amount = s.balanceSum := by
  have hdebit := s.balanceSum_debit sender hfunds
  have hcredit := (s.modifyAccount sender (.debit amount)).balanceSum_credit receiver amount
  rw [accountOrNew_modifyAccount, if_neg hne.symm] at hcredit
  omega

/-- Within the bound it does not wrap, because the receiver's new balance is part of the supply. -/
theorem transferCarry_eq_zero (hbound : s.nativeSupply ≤ 2 ^ 64 - 1) (h : Effect crypto s tx s') :
    s.transferCarry tx = 0 := by
  unfold transferCarry
  cases h with
  | @nativeTransfer amount hdata hne hsender hfunds =>
    have hbalances := s.balance_add_le_balanceSum hne.symm
    have hle : amount.toNat ≤ (s.accountOrNew tx.sender).balance.toNat :=
      UInt64.le_iff_toNat_le.mp hfunds
    unfold nativeSupply at hbound
    simp only [hdata, carry]
    omega
  | _ => simp [*]

/-- A successful transaction moves the native supply by the carries of a transfer or of a `CloseChannel` and
by a deducted stake, and by nothing else. -/
theorem nativeSupply_step (h : s.applyTransaction crypto tx = (.ok (), s')) :
    s'.nativeSupply + tx.deductedStake + 2 ^ 64 * (s.payoutCarries tx + s.transferCarry tx) =
      s.nativeSupply + 2 ^ 64 * tx.finalBalanceCarry := by
  obtain ⟨-, s₁, heffect, rfl⟩ := applyTransaction_ok h
  -- counting the nonce touches no balance
  have hnonce := s₁.balanceSum_modifyAccount_of_keep tx.sender .bumpNonce fun _ => rfl
  unfold nativeSupply
  rw [hnonce, depositSum_modifyAccount]
  clear hnonce h
  simp only [payoutCarries, transferCarry, Transaction.deductedStake, Transaction.finalBalanceCarry]
  cases heffect with
  | nativeTransfer hdata hne hsender hfunds =>
    have htransfer := balanceSum_transfer hne hfunds
    simp only [hdata, depositSum_modifyAccount]
    omega
  | createAsset hdata =>
    simp [hdata, s.balanceSum_modifyAccount_of_keep tx.sender (.setAsset _ _) fun _ => rfl]
  | @transferAsset assetId amount hdata =>
    have htake := s.balanceSum_modifyAccount_of_keep tx.sender
      (fun account => account.setAsset assetId (account.assetBalance assetId - amount)) fun _ => rfl
    have hgive := balanceSum_modifyAccount_of_keep
      (s.modifyAccount tx.sender fun account =>
        account.setAsset assetId (account.assetBalance assetId - amount))
      tx.receiver
      (fun account => account.setAsset assetId (account.assetBalance assetId + amount)) fun _ => rfl
    simp [hdata, hgive, htake]
  | createCollection hdata => simp [hdata]
  | @mintNFT _ _ recipient _ _ hdata =>
    simp [hdata, s.balanceSum_modifyAccount_of_keep recipient (.addItem _ _) fun _ => rfl]
  | @transferNFT collectionId itemId _ _ hdata =>
    have hremove := s.balanceSum_modifyAccount_of_keep tx.sender (.removeItem collectionId itemId)
      (Account.balance_removeItem collectionId itemId)
    simp [hdata, hremove,
      balanceSum_modifyAccount_of_keep _ tx.receiver (.addItem _ _) fun _ => rfl]
  | @openChannel _ _ amount _ hdata hsender hfunds hid hfresh =>
    have hdebit := s.balanceSum_debit tx.sender hfunds
    simp only [hdata, balanceSum_putChannel]
    rw [depositSum_putChannel_of_fresh (s.modifyAccount tx.sender (.debit amount)) _ hfresh]
    simp only [depositSum_modifyAccount, PaymentChannel.lockedDeposit, Bool.false_eq_true, if_false]
    omega
  | @closeChannel _ _ finalBalanceA finalBalanceB channel hdata hchannel hopen hpartner hsum =>
    have hcreditA := s.balanceSum_credit channel.partnerA finalBalanceA
    have hcreditB := (s.modifyAccount channel.partnerA (.credit finalBalanceA)).balanceSum_credit
      channel.partnerB finalBalanceB
    have hdeposit := depositSum_putChannel_closed
      ((s.modifyAccount channel.partnerA (.credit finalBalanceA)).modifyAccount channel.partnerB
        (.credit finalBalanceB)) hchannel hopen
    have htotal := toNat_add_carry finalBalanceA finalBalanceB
    rw [hsum] at htotal
    simp only [depositSum_modifyAccount] at hdeposit
    simp only [hdata, hchannel, balanceSum_putChannel]
    omega
  | delegateSpend hdata =>
    simp [hdata, s.balanceSum_modifyAccount_of_keep tx.sender (.setAllowance _ _) fun _ => rfl]
  | registerValidator hdata hsender hfunds =>
    have hdebit := s.balanceSum_debit tx.sender hfunds
    simp only [hdata, depositSum_modifyAccount]
    omega
  | unregisterValidator hdata => simp [hdata]

/-- Within the bound only a `CloseChannel` moves it, a deducted stake apart. -/
theorem nativeSupply_applyTransaction (hbound : s.nativeSupply ≤ 2 ^ 64 - 1)
    (h : s.applyTransaction crypto tx = (.ok (), s')) :
    s'.nativeSupply + tx.deductedStake + 2 ^ 64 * s.payoutCarries tx =
      s.nativeSupply + 2 ^ 64 * tx.finalBalanceCarry := by
  have hstep := nativeSupply_step h
  obtain ⟨-, s₁, heffect, -⟩ := applyTransaction_ok h
  rw [transferCarry_eq_zero hbound heffect, Nat.add_zero] at hstep
  exact hstep

/-- Within the bound, a successful transaction conserves the supply exactly when its payouts are
in balance. -/
theorem nativeSupply_conserved_iff (hbound : s.nativeSupply ≤ 2 ^ 64 - 1)
    (h : s.applyTransaction crypto tx = (.ok (), s')) :
    s'.nativeSupply + tx.deductedStake = s.nativeSupply ↔ s.PayoutsInBalance tx := by
  have hstep := nativeSupply_applyTransaction hbound h
  have hcarry := tx.finalBalanceCarry_le_one
  unfold PayoutsInBalance
  omega

/-- One successful transaction: the calls of a run that only takes transactions returning `Ok`. -/
def accept (crypto : Crypto) (state : State) (tx : Transaction) : Option (Unit × State) :=
  match state.applyTransaction crypto tx with
  | (.error _, _) => none
  | (.ok (), state) => some ((), state)

/-- An accepted transaction is one that returned `Ok`. -/
theorem applyTransaction_of_accept {u : Unit} (h : s.accept crypto tx = some (u, s')) :
    s.applyTransaction crypto tx = (.ok (), s') := by
  unfold accept at h
  split at h
  · contradiction
  · rename_i hok
    rw [hok, (Prod.mk.inj (Option.some.inj h)).2]

/-- The stakes deducted by the transactions of a run. -/
def deductedStakes (calls : List (Call State Transaction Unit)) : ℕ :=
  (calls.map fun call => call.label.deductedStake).sum

/-- After every step of a run, supply and deducted stakes add up to the initial supply. -/
def SupplyConserved (start : State) (calls : List (Call State Transaction Unit)) : Prop :=
  ∀ before call after, calls = before ++ call :: after →
    call.post.nativeSupply + deductedStakes (before ++ [call]) = start.nativeSupply

/-- A run conserves the supply when the shorter run does and the last step does. -/
theorem supplyConserved_snoc {start : State} {calls : List (Call State Transaction Unit)}
    {call : Call State Transaction Unit} :
    SupplyConserved start (calls ++ [call]) ↔
      SupplyConserved start calls ∧
        call.post.nativeSupply + deductedStakes (calls ++ [call]) = start.nativeSupply := by
  constructor
  · intro hall
    refine ⟨fun before earlier after hsplit => ?_, hall calls call [] rfl⟩
    exact hall before earlier (after ++ [call]) (by rw [hsplit]; simp)
  · rintro ⟨hbefore, hlast⟩ before earlier after hsplit
    rcases List.eq_nil_or_concat after with rfl | ⟨after, last, rfl⟩
    · obtain ⟨rfl, hcall⟩ := List.append_inj' hsplit rfl
      obtain rfl := List.singleton_inj.mp hcall
      exact hlast
    · have hsplit' : calls ++ [call] = (before ++ earlier :: after) ++ [last] := by
        rw [hsplit]
        simp
      obtain ⟨rfl, -⟩ := List.append_inj' hsplit' rfl
      exact hbefore before earlier after rfl

/-- The supply at the end of a run that conserves it. -/
theorem nativeSupply_of_supplyConserved {start t : State} {calls : List (Call State Transaction Unit)}
    (hrun : Run (accept crypto) start calls t) (hconserved : SupplyConserved start calls) :
    t.nativeSupply + deductedStakes calls = start.nativeSupply := by
  cases hrun with
  | nil => rfl
  | snoc hbefore hnext => exact (supplyConserved_snoc.mp hconserved).2

/-- Along a run from a bounded supply, the supply is conserved after every step exactly when every
`CloseChannel` of the run whose final balances wrap also wraps one of its payouts. -/
theorem supplyConserved_iff {start t : State} {calls : List (Call State Transaction Unit)}
    (hbound : start.nativeSupply ≤ 2 ^ 64 - 1) (hrun : Run (accept crypto) start calls t) :
    SupplyConserved start calls ↔ ∀ call ∈ calls, call.pre.PayoutsInBalance call.label := by
  induction hrun with
  | nil => simp [SupplyConserved]
  | @snoc calls s s' tx output hbefore hnext ih =>
    rw [supplyConserved_snoc, List.forall_mem_append, List.forall_mem_singleton, ← ih]
    apply and_congr_right
    intro hconserved
    have hsupply := nativeSupply_of_supplyConserved hbefore hconserved
    have hstep := nativeSupply_conserved_iff (by omega) (applyTransaction_of_accept hnext)
    have hsum : deductedStakes (calls ++ [⟨s, tx, output, s'⟩]) =
        deductedStakes calls + tx.deductedStake := by
      simp [deductedStakes]
    rw [hsum, ← hstep]
    change s'.nativeSupply + _ = _ ↔ _
    omega

/-- Five coins on one address. -/
def fiveCoins : State := empty.setBalance (List.replicate 32 1) 5

/-- The five coins go into a channel, which is then closed with the given final balances. -/
def openThenClose (finalBalanceA finalBalanceB : UInt64) : List Transaction :=
  let alice : Bytes := List.replicate 32 1
  let bob : Bytes := List.replicate 32 2
  let channelId := Crypto.plain.sha256 (alice ++ u64ToLeBytes 0 ++ asBytes "channel")
  [{ sender := alice, receiver := [], nonce := 0, data := .openChannel bob 5 10, signature := [] },
   { sender := alice, receiver := [], nonce := 1,
     data := .closeChannel channelId [] finalBalanceA finalBalanceB, signature := [] }]

/-- Closing with `2 ^ 64 - 1` and `6` passes the deposit check and mints `2 ^ 64` coins. -/
theorem supply_not_conserved_on_wrap :
    fiveCoins.nativeSupply ≤ 2 ^ 64 - 1 ∧
      ∃ calls t, Run (accept Crypto.plain) fiveCoins calls t ∧
        calls.map Call.label = openThenClose (2 ^ 64 - 1) 6 ∧ ¬ SupplyConserved fiveCoins calls := by
  refine ⟨by decide +kernel, ?_⟩
  obtain ⟨calls, t, hrun, hlabels, hsupply⟩ := Run.exists_of_trace
    (accept Crypto.plain) fiveCoins (openThenClose (2 ^ 64 - 1) 6)
    (fun calls t => decide (t.nativeSupply + deductedStakes calls = 2 ^ 64 + 5)) (by decide +kernel)
  refine ⟨calls, t, hrun, hlabels, fun hconserved => ?_⟩
  have hstart : fiveCoins.nativeSupply = 5 := by decide +kernel
  have hend := nativeSupply_of_supplyConserved hrun hconserved
  have hminted := of_decide_eq_true hsupply
  omega

/-- An ordinary closing with `2` and `3` conserves the supply. -/
theorem supplyConserved_iff_ordinary_close :
    ∃ calls t, Run (accept Crypto.plain) fiveCoins calls t ∧
      calls.map Call.label = openThenClose 2 3 ∧ SupplyConserved fiveCoins calls := by
  obtain ⟨calls, t, hrun, hlabels, hpayouts⟩ := Run.exists_of_trace
    (accept Crypto.plain) fiveCoins (openThenClose 2 3)
    (fun calls _ => decide (∀ call ∈ calls, call.pre.PayoutsInBalance call.label))
    (by decide +kernel)
  exact ⟨calls, t, hrun, hlabels,
    (supplyConserved_iff (by decide +kernel) hrun).mpr (of_decide_eq_true hpayouts)⟩

end State

end Nocostcoin
