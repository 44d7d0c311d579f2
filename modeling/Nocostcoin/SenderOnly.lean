import Nocostcoin.NativeSupply
import Nocostcoin.AssetSupply

/-!
# Only the sender can lose

What a successful transaction does to the holdings of addresses other than its sender. Every
credit to a counterparty stays below `2 ^ 64` because it is covered by a bounded supply, except
the payouts of a `CloseChannel`, whose amounts are checked only through their wrapped sum.
-/

namespace Nocostcoin

namespace Account

/-- Nothing was lost between two versions of an account. -/
structure Keeps (before after : Account) : Prop where
  balance : before.balance ≤ after.balance
  assets : ∀ assetId, before.assetBalance assetId ≤ after.assetBalance assetId
  items : ∀ collectionId, ∀ itemId ∈ before.itemsOf collectionId, itemId ∈ after.itemsOf collectionId
  nonce : after.nonce = before.nonce
  allowance : after.delegatedAllowance = before.delegatedAllowance

namespace Keeps

variable {a b c : Account}

theorem refl (a : Account) : a.Keeps a :=
  ⟨UInt64.le_refl _, fun _ => UInt64.le_refl _, fun _ _ h => h, rfl, rfl⟩

theorem trans (hab : a.Keeps b) (hbc : b.Keeps c) : a.Keeps c where
  balance := UInt64.le_trans hab.balance hbc.balance
  assets assetId := UInt64.le_trans (hab.assets assetId) (hbc.assets assetId)
  items collectionId itemId h := hbc.items collectionId itemId (hab.items collectionId itemId h)
  nonce := hbc.nonce.trans hab.nonce
  allowance := hbc.allowance.trans hab.allowance

end Keeps

/-- Adding to a word does not shrink it exactly when the sum fits. -/
theorem le_add_iff (x y : UInt64) : x ≤ x + y ↔ x.toNat + y.toNat < 2 ^ 64 := by
  have hx := x.toNat_lt
  have hy := y.toNat_lt
  rw [UInt64.le_iff_toNat_le, UInt64.toNat_add]
  omega

/-- A credit loses nothing exactly when the new balance fits. -/
theorem keeps_credit_iff (account : Account) (amount : UInt64) :
    account.Keeps (account.credit amount) ↔ account.balance.toNat + amount.toNat < 2 ^ 64 := by
  rw [← le_add_iff]
  constructor
  · intro h
    exact h.balance
  · intro h
    exact ⟨h, fun _ => UInt64.le_refl _, fun _ _ hitem => hitem, rfl, rfl⟩

/-- A credit of an asset whose new balance fits loses nothing. -/
theorem keeps_setAsset {account : Account} {assetId : Bytes} {amount : UInt64}
    (h : (account.assetBalance assetId).toNat + amount.toNat < 2 ^ 64) :
    account.Keeps (account.setAsset assetId (account.assetBalance assetId + amount)) := by
  refine ⟨UInt64.le_refl _, fun other => ?_, fun _ _ hitem => hitem, rfl, rfl⟩
  rw [assetBalance_setAsset]
  split
  · rename_i heq
    rw [heq]
    exact (le_add_iff _ _).mpr h
  · exact UInt64.le_refl _

/-- Listing one more item loses nothing. -/
theorem keeps_addItem (account : Account) (collectionId : Bytes) (itemId : UInt64) :
    account.Keeps (account.addItem collectionId itemId) := by
  refine ⟨UInt64.le_refl _, fun _ => UInt64.le_refl _, fun other item hitem => ?_, rfl, rfl⟩
  unfold itemsOf addItem at *
  rw [FiniteMap.lookup_insert_ite]
  split
  · rename_i heq
    rw [Option.getD_some]
    apply List.mem_append_left
    rwa [← heq]
  · exact hitem

end Account

namespace State

variable {crypto : Crypto} {s s' : State} {tx : Transaction}

/-- The registered owner of an item. -/
def ownerOf (state : State) (collectionId : Bytes) (itemId : UInt64) : Option Bytes :=
  ((state.collections.lookup collectionId).bind fun collection =>
    collection.items.lookup itemId).map NFTItem.owner

/-- An address lost nothing between two states: neither in its account nor as the registered
owner of an item. -/
structure KeepsHoldings (before after : State) (address : Bytes) : Prop where
  account : (before.accountOrNew address).Keeps (after.accountOrNew address)
  owned : ∀ collectionId itemId, before.ownerOf collectionId itemId = some address →
    after.ownerOf collectionId itemId = some address

/-- The credits that a `CloseChannel` of a known channel makes. -/
def channelPayouts (state : State) (tx : Transaction) : List (Bytes × UInt64) :=
  match tx.data with
  | .closeChannel channelId _ finalBalanceA finalBalanceB =>
    match state.channels.lookup channelId with
    | none => []
    | some channel => [(channel.partnerA, finalBalanceA), (channel.partnerB, finalBalanceB)]
  | _ => []

/-- The partners of the channel being closed, other than the sender, can take their payouts
without passing `2 ^ 64 - 1`. Every other transaction meets this. -/
def PartnersInRange (state : State) (tx : Transaction) : Prop :=
  ∀ payout ∈ state.channelPayouts tx, payout.1 ≠ tx.sender →
    (state.getBalance payout.1).toNat + payout.2.toNat < 2 ^ 64

instance (state : State) (tx : Transaction) : Decidable (state.PartnersInRange tx) :=
  inferInstanceAs (Decidable (∀ payout ∈ state.channelPayouts tx, _))

/-- An account keeps what it has if the update of its own address does. -/
theorem keeps_modifyAccount (state : State) (address other : Bytes) (update : Account → Account)
    (h : other = address → (state.accountOrNew address).Keeps (update (state.accountOrNew address))) :
    (state.accountOrNew other).Keeps ((state.modifyAccount address update).accountOrNew other) := by
  rw [accountOrNew_modifyAccount]
  split
  · rename_i heq
    rw [heq]
    exact h heq
  · exact .refl _

/-- Entering a fresh collection takes no item from its owner. -/
theorem ownerOf_putCollection_of_fresh {collectionId : Bytes} (collection : Collection)
    (hfresh : s.collections.lookup collectionId = none) {other owner : Bytes} {itemId : UInt64}
    (h : s.ownerOf other itemId = some owner) :
    (s.putCollection collectionId collection).ownerOf other itemId = some owner := by
  unfold ownerOf putCollection at *
  rw [FiniteMap.lookup_insert_ite]
  split
  · rename_i heq
    rw [heq, hfresh] at h
    simp at h
  · exact h

/-- Entering an item in a collection changes the owner of that item only. -/
theorem ownerOf_putItem {collectionId : Bytes} {collection : Collection}
    (hcollection : s.collections.lookup collectionId = some collection) (itemId : UInt64)
    (item : NFTItem) (other : Bytes) (otherItem : UInt64) :
    (s.putCollection collectionId (collection.putItem itemId item)).ownerOf other otherItem =
      if other = collectionId ∧ otherItem = itemId then some item.owner
      else s.ownerOf other otherItem := by
  unfold ownerOf putCollection Collection.putItem
  rw [FiniteMap.lookup_insert_ite]
  by_cases hother : other = collectionId
  · subst hother
    rw [if_pos rfl, hcollection, Option.bind_some, Option.bind_some, FiniteMap.lookup_insert_ite]
    by_cases hitem : otherItem = itemId
    · simp [hitem]
    · simp [hitem]
  · simp [hother]

/-- The holdings of the other addresses survive every effect, if the payouts to partners fit. -/
theorem keepsHoldings_of_effect (hbacked : s.AssetsBacked) (hbound : s.nativeSupply ≤ 2 ^ 64 - 1)
    (hrange : s.PartnersInRange tx) (h : Effect crypto s tx s') {address : Bytes}
    (hne : address ≠ tx.sender) : s.KeepsHoldings s' address := by
  have hsender : ∀ (state : State) (update : Account → Account),
      (state.accountOrNew address).Keeps
        ((state.modifyAccount tx.sender update).accountOrNew address) :=
    fun state update => state.keeps_modifyAccount _ _ _ fun heq => absurd heq hne
  have hadd : ∀ (state : State) (recipient collectionId : Bytes) (itemId : UInt64),
      (state.accountOrNew address).Keeps
        ((state.modifyAccount recipient (.addItem collectionId itemId)).accountOrNew address) :=
    fun state recipient collectionId itemId =>
      state.keeps_modifyAccount _ _ _ fun _ => Account.keeps_addItem _ _ _
  cases h with
  | @nativeTransfer amount hdata hdiff hexists hfunds =>
    refine ⟨(hsender s _).trans (keeps_modifyAccount _ _ _ _ fun _ => ?_), fun _ _ howned => howned⟩
    have hbalances := s.balance_add_le_balanceSum hdiff.symm
    have hle := UInt64.le_iff_toNat_le.mp hfunds
    rw [Account.keeps_credit_iff, accountOrNew_modifyAccount, if_neg hdiff.symm]
    unfold nativeSupply at hbound
    omega
  | createAsset => exact ⟨hsender s _, fun _ _ howned => howned⟩
  | @transferAsset assetId amount hdata hasset hexists hfunds =>
    refine ⟨(hsender s _).trans (keeps_modifyAccount _ _ _ _ fun heq => ?_),
      fun _ _ howned => howned⟩
    apply Account.keeps_setAsset
    have hdiff : tx.receiver ≠ tx.sender := heq ▸ hne
    have hbalances := s.assetBalance_add_le_assetSum assetId hdiff
    have hsupply := s.registeredSupply_lt assetId
    have hle := UInt64.le_iff_toNat_le.mp hfunds
    rw [hbacked assetId] at hbalances
    rw [accountOrNew_modifyAccount, if_neg hdiff]
    omega
  | createCollection hdata hid hfresh =>
    exact ⟨.refl _, fun _ _ howned => ownerOf_putCollection_of_fresh _ hfresh howned⟩
  | @mintNFT collectionId _ recipient itemId collection hdata hcollection hissuer hfresh =>
    refine ⟨hadd s _ _ _, fun other otherItem howned => ?_⟩
    refine (ownerOf_putItem (s := s.modifyAccount recipient (.addItem collectionId itemId))
      hcollection itemId _ other otherItem).trans ?_
    rw [if_neg]
    · exact howned
    · rintro ⟨rfl, rfl⟩
      simp [ownerOf, hcollection, hfresh] at howned
  | @transferNFT collectionId itemId collection item hdata hcollection hitem howner =>
    refine ⟨(hsender s _).trans (hadd _ _ _ _), fun other otherItem howned => ?_⟩
    refine (ownerOf_putItem (s := (s.modifyAccount tx.sender (.removeItem collectionId
      itemId)).modifyAccount tx.receiver (.addItem collectionId itemId))
      hcollection itemId _ other otherItem).trans ?_
    rw [if_neg]
    · exact howned
    · rintro ⟨rfl, rfl⟩
      -- the moved item belonged to the sender
      simp only [ownerOf, hcollection, Option.bind_some, hitem, Option.map_some, howner,
        Option.some.injEq] at howned
      exact hne howned.symm
  | openChannel => exact ⟨hsender s _, fun _ _ howned => howned⟩
  | @closeChannel channelId _ finalBalanceA finalBalanceB channel hdata hchannel hopen hpartner =>
    simp only [PartnersInRange, channelPayouts, hdata, hchannel, getBalance_eq,
      List.forall_mem_cons] at hrange
    obtain ⟨hrangeA, hrangeB, -⟩ := hrange
    refine ⟨(s.keeps_modifyAccount channel.partnerA _ _ fun heq => ?_).trans
      (keeps_modifyAccount _ channel.partnerB _ _ fun heq => ?_), fun _ _ howned => howned⟩
    · exact (Account.keeps_credit_iff _ _).mpr (hrangeA (heq ▸ hne))
    · rw [Account.keeps_credit_iff, accountOrNew_modifyAccount]
      rw [if_neg]
      · exact hrangeB (heq ▸ hne)
      · -- the sender is a partner, so the partners of an address other than it differ
        intro hsame
        rcases hpartner with hA | hB
        · exact hne (heq.trans (hsame.trans hA.symm))
        · exact hne (heq.trans hB.symm)
  | delegateSpend => exact ⟨hsender s _, fun _ _ howned => howned⟩
  | registerValidator => exact ⟨hsender s _, fun _ _ howned => howned⟩
  | unregisterValidator => exact ⟨.refl _, fun _ _ howned => howned⟩

/-- The nonce counted for the sender takes nothing from another address. -/
theorem KeepsHoldings.bumpNonce_iff {s₁ : State} {sender address : Bytes} (hne : address ≠ sender) :
    s.KeepsHoldings (s₁.modifyAccount sender .bumpNonce) address ↔ s.KeepsHoldings s₁ address := by
  have haccount : (s₁.modifyAccount sender .bumpNonce).accountOrNew address =
      s₁.accountOrNew address := by
    rw [accountOrNew_modifyAccount, if_neg hne]
  constructor
  · rintro ⟨hkeeps, howned⟩
    exact ⟨haccount ▸ hkeeps, howned⟩
  · rintro ⟨hkeeps, howned⟩
    exact ⟨haccount.symm ▸ hkeeps, howned⟩

/-- A closing that costs no other address anything paid its partners in range. -/
theorem partnersInRange_of_keepsHoldings (h : Effect crypto s tx s')
    (hkeeps : ∀ address, address ≠ tx.sender → s.KeepsHoldings s' address) :
    s.PartnersInRange tx := by
  cases h with
  | @closeChannel channelId _ finalBalanceA finalBalanceB channel hdata hchannel hopen hpartner =>
    simp only [PartnersInRange, channelPayouts, hdata, hchannel, getBalance_eq,
      List.forall_mem_cons]
    refine ⟨fun hA => ?_, fun hB => ?_, by simp⟩
    · have hB : channel.partnerA ≠ channel.partnerB := by
        rcases hpartner with hsender | hsender
        · exact absurd hsender.symm hA
        · exact fun hsame => hA (hsame.trans hsender.symm)
      have hbalance := (hkeeps channel.partnerA hA).account.balance
      rw [accountOrNew_putChannel, accountOrNew_modifyAccount, if_neg hB, accountOrNew_modifyAccount,
        if_pos rfl] at hbalance
      exact (Account.le_add_iff _ _).mp hbalance
    · have hA : channel.partnerB ≠ channel.partnerA := by
        rcases hpartner with hsender | hsender
        · exact fun hsame => hB (hsame.trans hsender.symm)
        · exact absurd hsender.symm hB
      have hbalance := (hkeeps channel.partnerB hB).account.balance
      rw [accountOrNew_putChannel, accountOrNew_modifyAccount, if_pos rfl, accountOrNew_modifyAccount,
        if_neg hA] at hbalance
      exact (Account.le_add_iff _ _).mp hbalance
  | nativeTransfer hdata => simp [PartnersInRange, channelPayouts, hdata]
  | createAsset hdata => simp [PartnersInRange, channelPayouts, hdata]
  | transferAsset hdata => simp [PartnersInRange, channelPayouts, hdata]
  | createCollection hdata => simp [PartnersInRange, channelPayouts, hdata]
  | mintNFT hdata => simp [PartnersInRange, channelPayouts, hdata]
  | transferNFT hdata => simp [PartnersInRange, channelPayouts, hdata]
  | openChannel hdata => simp [PartnersInRange, channelPayouts, hdata]
  | delegateSpend hdata => simp [PartnersInRange, channelPayouts, hdata]
  | registerValidator hdata => simp [PartnersInRange, channelPayouts, hdata]
  | unregisterValidator hdata => simp [PartnersInRange, channelPayouts, hdata]

/-- In every reachable state with a bounded supply, a successful transaction costs no address but
its sender anything exactly when it is not a `CloseChannel` that wraps another partner's balance. -/
theorem only_sender_loses_iff (hreachable : Reachable crypto s)
    (hbound : s.nativeSupply ≤ 2 ^ 64 - 1) (h : s.applyTransaction crypto tx = (.ok (), s')) :
    (∀ address, address ≠ tx.sender → s.KeepsHoldings s' address) ↔ s.PartnersInRange tx := by
  obtain ⟨-, s₁, heffect, rfl⟩ := applyTransaction_ok h
  constructor
  · intro hkeeps
    apply partnersInRange_of_keepsHoldings heffect
    intro address hne
    exact (KeepsHoldings.bumpNonce_iff hne).mp (hkeeps address hne)
  · intro hrange address hne
    exact (KeepsHoldings.bumpNonce_iff hne).mpr
      (keepsHoldings_of_effect hreachable.assetsBacked hbound hrange heffect hne)

/-- Twenty coins of a partner, and a channel that another address opened with it for five. -/
def channelWithPartner : State :=
  let alice : Bytes := List.replicate 32 1
  let bob : Bytes := List.replicate 32 2
  ((((empty.setBalance alice 20).setBalance bob 5).applyTransaction Crypto.plain
    { sender := bob, receiver := [], nonce := 0, data := .openChannel alice 5 10,
      signature := [] })).2

/-- The closing of that channel by its opener, with the given final balances. -/
def closeByOpener (finalBalanceA finalBalanceB : UInt64) : Transaction :=
  let bob : Bytes := List.replicate 32 2
  { sender := bob, receiver := [], nonce := 1, signature := [],
    data := .closeChannel (Crypto.plain.sha256 (bob ++ u64ToLeBytes 0 ++ asBytes "channel")) []
      finalBalanceA finalBalanceB }

/-- The state above is reachable. -/
theorem reachable_channelWithPartner : Reachable Crypto.plain channelWithPartner :=
  .applyTransaction _ (.setBalance _ _ (.setBalance _ _ .empty))

/-- The opener's final balance of `15` and the partner's of `2 ^ 64 - 10` pass the deposit check;
the partner is left with ten coins of twenty. -/
theorem partner_drained_on_wrap :
    Reachable Crypto.plain channelWithPartner ∧ channelWithPartner.nativeSupply ≤ 2 ^ 64 - 1 ∧
      (channelWithPartner.applyTransaction Crypto.plain (closeByOpener 15 (2 ^ 64 - 10))).1 = .ok () ∧
      ¬ ∀ address, address ≠ (closeByOpener 15 (2 ^ 64 - 10)).sender →
        channelWithPartner.KeepsHoldings (channelWithPartner.applyTransaction Crypto.plain
          (closeByOpener 15 (2 ^ 64 - 10))).2 address := by
  refine ⟨reachable_channelWithPartner, by decide +kernel, by decide +kernel, fun hkeeps => ?_⟩
  have hbalance := (hkeeps (List.replicate 32 1) (by decide)).account.balance
  revert hbalance
  decide +kernel

/-- With `2` and `3` nobody loses anything. -/
theorem only_sender_loses_ordinary_close :
    ∃ s', channelWithPartner.applyTransaction Crypto.plain (closeByOpener 2 3) = (.ok (), s') ∧
      ∀ address, address ≠ (closeByOpener 2 3).sender → channelWithPartner.KeepsHoldings s' address := by
  have hok : (channelWithPartner.applyTransaction Crypto.plain (closeByOpener 2 3)).1 = .ok () := by
    decide +kernel
  have hbound : channelWithPartner.nativeSupply ≤ 2 ^ 64 - 1 := by decide +kernel
  have hrange : channelWithPartner.PartnersInRange (closeByOpener 2 3) := by decide +kernel
  generalize hresult : channelWithPartner.applyTransaction Crypto.plain (closeByOpener 2 3) = result
    at hok
  obtain ⟨outcome, s'⟩ := result
  obtain rfl : outcome = .ok () := hok
  exact ⟨s', rfl, (only_sender_loses_iff reachable_channelWithPartner hbound hresult).mpr hrange⟩

end State

end Nocostcoin
