import Nocostcoin.Node
import Nocostcoin.Ownership

/-!
# What a failing transaction leaves behind

Of the error exits that come after a write, one is never taken in a reachable state: an item's owner has
an account. A closing with the wrong final balances has marked its channel closed, and an opening whose
channel id is taken has debited its deposit.
-/

namespace Nocostcoin

namespace State

variable {crypto : Crypto} {s s' : State} {tx : Transaction} {error : String}

/-- The same accounts and the same registries. -/
structure Unchanged (s s' : State) : Prop where
  accounts : ∀ address, s'.getAccount address = s.getAccount address
  assets : s'.assets = s.assets
  collections : s'.collections = s.collections
  channels : s'.channels = s.channels

/-- The transaction is a partner's closing of an open channel, with final balances that are not the
deposit. -/
def MisclosesChannel (state : State) (tx : Transaction) : Prop :=
  ∃ channelId balanceProof finalBalanceA finalBalanceB channel,
    tx.data = .closeChannel channelId balanceProof finalBalanceA finalBalanceB ∧
    state.channels.lookup channelId = some channel ∧ channel.isClosed = false ∧
    (tx.sender = channel.partnerA ∨ tx.sender = channel.partnerB) ∧
    finalBalanceA + finalBalanceB ≠ channel.totalDeposit

/-- The transaction opens a channel under an id in use, with a deposit that the sender has. -/
def ReopensChannel (crypto : Crypto) (state : State) (tx : Transaction) : Prop :=
  ∃ partner amount duration channelId, tx.data = .openChannel partner amount duration ∧
    amount ≠ 0 ∧ amount ≤ state.getBalance tx.sender ∧
    tx.calculateAssetId crypto = some channelId ∧ (state.channels.lookup channelId).isSome

/-- A partner's closing with other final balances than the deposit marks the channel. -/
theorem channels_of_misclosesChannel (hmiscloses : s.MisclosesChannel tx)
    (h : s.processData crypto tx = (.error error, s')) : s'.channels ≠ s.channels := by
  obtain ⟨channelId, balanceProof, finalBalanceA, finalBalanceB, channel, hdata, hchannel, hopen,
    hpartner, hsum⟩ := hmiscloses
  have hauthorized : ¬ (tx.sender ≠ channel.partnerA ∧ tx.sender ≠ channel.partnerB) := by tauto
  unfold processData closeChannel at h
  simp only [hdata, hchannel, hopen, Bool.false_eq_true, if_false, if_neg hauthorized,
    if_pos hsum] at h
  intro hsame
  rw [← (Prod.mk.inj h).2] at hsame
  have hlookup := congrArg (Finmap.lookup channelId) hsame
  dsimp only at hlookup
  rw [Finmap.lookup_insert, hchannel] at hlookup
  have hflag := congrArg PaymentChannel.isClosed (Option.some.inj hlookup)
  rw [hopen] at hflag
  exact Bool.false_ne_true hflag.symm

/-- An opening under an id in use takes the deposit. -/
theorem getAccount_of_reopensChannel (hreopens : s.ReopensChannel crypto tx)
    (h : s.processData crypto tx = (.error error, s')) :
    s'.getAccount tx.sender ≠ s.getAccount tx.sender := by
  obtain ⟨partner, amount, duration, channelId, hdata, hamount, hfunds, hid, htaken⟩ := hreopens
  cases hsender : s.getAccount tx.sender with
  | none =>
    rw [getBalance, hsender] at hfunds
    exact absurd (UInt64.le_antisymm hfunds (UInt64.zero_le)) hamount
  | some account =>
    rw [getBalance, hsender, Option.map_some, Option.getD_some] at hfunds
    have htaken' : ((s.insertPending tx.sender { account with
        balance := account.balance - amount }).channels.lookup channelId).isSome := htaken
    unfold processData openChannel at h
    simp only [hdata, hsender, if_neg (UInt64.not_lt.mpr hfunds), hid, if_pos htaken'] at h
    rw [← (Prod.mk.inj h).2, getAccount_insertPending, if_pos rfl]
    intro hsame
    have hbalance := congrArg (fun account => account.balance + amount) (Option.some.inj hsame)
    dsimp only at hbalance
    rw [UInt64.sub_add_cancel] at hbalance
    exact hamount (UInt64.add_eq_left.mp hbalance.symm)

/-- A failed arm that neither miscloses a channel nor reopens one changed nothing, where owners have
accounts. -/
theorem unchanged_of_processData (hkept : s.OwnershipKept)
    (h : s.processData crypto tx = (.error error, s')) (hcloses : ¬ s.MisclosesChannel tx)
    (hreopens : ¬ s.ReopensChannel crypto tx) : s.Unchanged s' := by
  cases residue_of_processData h with
  | unchanged => exact ⟨fun _ => rfl, rfl, rfl, rfl⟩
  | @debited partner channelId amount duration hdata hid hcollision hfunds =>
    obtain rfl : amount = 0 := by
      by_contra hamount
      rw [← getBalance_eq] at hfunds
      exact hreopens ⟨partner, amount, duration, channelId, hdata, hamount, hfunds, hid, hcollision⟩
    unfold processData at h
    rw [hdata] at h
    rcases openChannel_error hdata h with heq | ⟨-, hsender, -⟩
    · rw [heq]
      exact ⟨fun _ => rfl, rfl, rfl, rfl⟩
    · obtain ⟨account, haccount⟩ := Option.isSome_iff_exists.mp hsender
      refine ⟨fun address => ?_, rfl, rfl, rfl⟩
      rw [modifyAccount, getAccount_insertPending, accountOrNew_of_getAccount haccount]
      split
      · rename_i heq
        rw [heq, haccount, Account.debit, UInt64.sub_zero]
      · rfl
  | markedClosed hdata hchannel hopen hpartner hsum =>
    exact absurd ⟨_, _, _, _, _, hdata, hchannel, hopen, hpartner, hsum⟩ hcloses
  | @ownerChanged collectionId itemId collection item hdata hcollection hitem howner hsender =>
    have hregistered : s.ownerOf collectionId itemId = some tx.sender := by
      rw [ownerOf, hcollection, Option.bind_some, hitem, Option.map_some, howner]
    obtain ⟨account, haccount, -⟩ := hkept.account_of_owner hregistered
    rw [hsender] at haccount
    contradiction

/-- In every reachable state a failing transaction changed nothing exactly if it does not arrive, with
the sender's nonce, as a misclosing or a reopening of a channel. -/
theorem unchanged_of_error_iff (hreachable : Reachable crypto s)
    (h : s.applyTransaction crypto tx = (.error error, s')) :
    s.Unchanged s' ↔ tx.nonce = s.getNonce tx.sender →
      ¬ s.MisclosesChannel tx ∧ ¬ s.ReopensChannel crypto tx := by
  unfold applyTransaction at h
  by_cases hnonce : tx.nonce = s.getNonce tx.sender
  · rw [if_neg (not_not.mpr hnonce)] at h
    have hfailed : s.processData crypto tx = (.error error, s') := by
      split at h
      · rename_i hprocess
        rw [hprocess, h]
      · simp at h
    constructor
    · rintro hunchanged -
      exact ⟨fun hcloses => channels_of_misclosesChannel hcloses hfailed hunchanged.channels,
        fun hreopens => getAccount_of_reopensChannel hreopens hfailed (hunchanged.accounts tx.sender)⟩
    · intro hneither
      obtain ⟨hcloses, hreopens⟩ := hneither hnonce
      exact unchanged_of_processData hreachable.ownershipKept hfailed hcloses hreopens
  · rw [if_pos hnonce] at h
    rw [← (Prod.mk.inj h).2]
    exact iff_of_true ⟨fun _ => rfl, rfl, rfl, rfl⟩ fun heq => absurd heq hnonce

/-- Alice opens a channel with Bob over ten coins. -/
def opening : Transaction :=
  Transaction.new Crypto.plain Sample.alice Sample.bob (.openChannel Sample.bob 10 100) 0 Sample.alice

/-- Alice closes that channel with two coins in all. -/
def shortClosing : Transaction :=
  Transaction.new Crypto.plain Sample.alice Sample.bob
    (.closeChannel ((opening.calculateAssetId Crypto.plain).getD []) [] 1 1) 1 Sample.alice

/-- The channel is open for Alice and Bob. -/
def channelOpened : State :=
  ((State.empty.setBalance Sample.alice 100).applyTransaction Crypto.plain opening).2

/-- That state is reachable. -/
theorem reachable_channelOpened : Reachable Crypto.plain channelOpened :=
  .applyTransaction opening (.setBalance Sample.alice 100 .empty)

/-- The refused closing has closed the channel: the deposit is out of reach. -/
theorem not_unchanged_of_shortClosing :
    Reachable Crypto.plain channelOpened ∧
      ∃ error s', channelOpened.applyTransaction Crypto.plain shortClosing = (.error error, s') ∧
        ¬ channelOpened.Unchanged s' := by
  refine ⟨reachable_channelOpened, ?_⟩
  have hfailed : (channelOpened.applyTransaction Crypto.plain shortClosing).1 =
      .error "Balance mismatch: total does not match deposit" := by decide +kernel
  have hchannels : (channelOpened.applyTransaction Crypto.plain shortClosing).2.channels ≠
      channelOpened.channels := by decide +kernel
  exact ⟨_, _, Prod.fst_eq_iff.mp hfailed, fun hunchanged => hchannels hunchanged.channels⟩

/-- A transfer of more than Alice has fails and changes nothing. -/
theorem unchanged_of_error_iff_overdraft :
    ∃ error s', channelOpened.applyTransaction Crypto.plain (Sample.transfer 1000 1) =
      (.error error, s') ∧ channelOpened.Unchanged s' := by
  have hfailed : (channelOpened.applyTransaction Crypto.plain (Sample.transfer 1000 1)).1 =
      .error "Insufficient native balance" := by decide +kernel
  have hresult := Prod.fst_eq_iff.mp hfailed
  refine ⟨_, _, hresult,
    (unchanged_of_error_iff reachable_channelOpened hresult).mpr fun _ => ⟨?_, ?_⟩⟩
  · rintro ⟨_, _, _, _, _, hdata, -⟩
    exact absurd hdata (by simp [Sample.data_transfer])
  · rintro ⟨_, _, _, _, hdata, -⟩
    exact absurd hdata (by simp [Sample.data_transfer])

end State

end Nocostcoin
