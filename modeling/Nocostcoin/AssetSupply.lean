import Nocostcoin.Commit

/-!
# The supply of an asset

The exact sum of the balances of an asset over all accounts is its registered total supply, and
zero for an id that is not registered. This holds in every state that a node reaches from an
empty database with `set_balance`, transactions of any outcome and commits.
-/

namespace Nocostcoin

namespace Account

/-- Reading an asset balance after one was written. -/
theorem assetBalance_setAsset (assetId other : Bytes) (balance : UInt64) (account : Account) :
    (account.setAsset assetId balance).assetBalance other =
      if other = assetId then balance else account.assetBalance other := by
  unfold assetBalance setAsset
  rw [FiniteMap.lookup_insert_ite]
  split <;> rfl

/-- Dropping an item keeps the asset balances. -/
theorem assetBalance_removeItem (collectionId assetId : Bytes) (itemId : UInt64) (account : Account) :
    (account.removeItem collectionId itemId).assetBalance assetId = account.assetBalance assetId := by
  unfold assetBalance
  rw [assets_removeItem]

end Account

namespace State

variable {crypto : Crypto} {s s' : State} {tx : Transaction}

/-- The sum of the balances of an asset. -/
def assetSum (state : State) (assetId : Bytes) : ℕ :=
  FiniteMap.sumOf (fun account : Account => (account.assetBalance assetId).toNat) state.accounts

/-- The registered supply of an asset, zero when there is none. -/
def registeredSupply (state : State) (assetId : Bytes) : ℕ :=
  (state.assets.lookup assetId).elim 0 fun asset => asset.totalSupply.toNat

/-- The balances of every asset add up to its registered supply. -/
def AssetsBacked (state : State) : Prop :=
  ∀ assetId, state.assetSum assetId = state.registeredSupply assetId

/-- A registered supply is a word. -/
theorem registeredSupply_lt (state : State) (assetId : Bytes) :
    state.registeredSupply assetId < 2 ^ 64 := by
  unfold registeredSupply
  cases state.assets.lookup assetId with
  | none => exact Nat.two_pow_pos 64
  | some asset => exact asset.totalSupply.toNat_lt

/-- Rewriting one account changes an asset sum by the new balance minus the old one. -/
theorem assetSum_modifyAccount (state : State) (assetId address : Bytes) (update : Account → Account) :
    (state.modifyAccount address update).assetSum assetId +
        ((state.accountOrNew address).assetBalance assetId).toNat =
      state.assetSum assetId +
        ((update (state.accountOrNew address)).assetBalance assetId).toNat :=
  sumOf_modifyAccount (fun account => (account.assetBalance assetId).toNat) rfl state address update

/-- An update that keeps an asset balance keeps the asset's sum. -/
theorem assetSum_modifyAccount_of_keep (state : State) (assetId address : Bytes)
    (update : Account → Account)
    (hkeep : ∀ account, (update account).assetBalance assetId = account.assetBalance assetId) :
    (state.modifyAccount address update).assetSum assetId = state.assetSum assetId :=
  sumOf_modifyAccount_of_keep (fun account => (account.assetBalance assetId).toNat) rfl state address
    update fun account => congrArg UInt64.toNat (hkeep account)

/-- The balances of an asset at two addresses together are at most the asset's sum. -/
theorem assetBalance_add_le_assetSum (state : State) (assetId : Bytes) {address other : Bytes}
    (hne : other ≠ address) :
    ((state.accountOrNew address).assetBalance assetId).toNat +
        ((state.accountOrNew other).assetBalance assetId).toNat ≤ state.assetSum assetId := by
  have h := FiniteMap.weightAt_add_le_sumOf
    (fun account : Account => (account.assetBalance assetId).toNat) state.accounts hne
  rwa [weightAt_accounts _ rfl, weightAt_accounts _ rfl] at h

/-- The balance of an asset at one address is at most the asset's sum. -/
theorem assetBalance_le_assetSum (state : State) (assetId address : Bytes) :
    ((state.accountOrNew address).assetBalance assetId).toNat ≤ state.assetSum assetId := by
  have h := FiniteMap.weightAt_le_sumOf
    (fun account : Account => (account.assetBalance assetId).toNat) state.accounts address
  rwa [weightAt_accounts _ rfl] at h

/-- The state before the receiver's credit in an asset transfer. -/
def takeAsset (state : State) (sender assetId : Bytes) (amount : UInt64) : State :=
  state.modifyAccount sender fun account =>
    account.setAsset assetId (account.assetBalance assetId - amount)

/-- The receiver's credit of an asset transfer. -/
def giveAsset (state : State) (receiver assetId : Bytes) (amount : UInt64) : State :=
  state.modifyAccount receiver fun account =>
    account.setAsset assetId (account.assetBalance assetId + amount)

/-- A covered transfer of an asset keeps the sum of every asset, also from an address to itself. -/
theorem assetSum_transfer (state : State) {sender receiver assetId : Bytes} {amount : UInt64}
    (hfunds : amount ≤ (state.accountOrNew sender).assetBalance assetId)
    (hbound : state.assetSum assetId < 2 ^ 64) (other : Bytes) :
    ((state.takeAsset sender assetId amount).giveAsset receiver assetId amount).assetSum other =
      state.assetSum other := by
  by_cases hother : other = assetId
  · subst hother
    have htake := state.assetSum_modifyAccount other sender
      fun account => account.setAsset other (account.assetBalance other - amount)
    have hgive := (state.takeAsset sender other amount).assetSum_modifyAccount other receiver
      fun account => account.setAsset other (account.assetBalance other + amount)
    have hreceiver := (state.takeAsset sender other amount).assetBalance_le_assetSum other receiver
    have hle := UInt64.le_iff_toNat_le.mp hfunds
    simp only [Account.assetBalance_setAsset, if_true] at htake hgive
    rw [UInt64.toNat_sub_of_le _ _ hfunds] at htake
    rw [UInt64.toNat_add] at hgive
    unfold giveAsset
    unfold takeAsset at hgive hreceiver ⊢
    -- the receiver's new balance is part of the sum, so it does not wrap
    omega
  · have hkeep : ∀ (balance : UInt64) (account : Account),
        (account.setAsset assetId balance).assetBalance other = account.assetBalance other := by
      intro balance account
      rw [Account.assetBalance_setAsset, if_neg hother]
    unfold giveAsset takeAsset
    rw [assetSum_modifyAccount_of_keep _ _ _ _ fun account => hkeep _ account,
      assetSum_modifyAccount_of_keep _ _ _ _ fun account => hkeep _ account]

/-- Rewriting an account without its asset balances keeps every asset backed. -/
theorem AssetsBacked.modifyAccount (hbacked : s.AssetsBacked) (address : Bytes)
    (update : Account → Account)
    (hkeep : ∀ assetId account,
      (update account).assetBalance assetId = account.assetBalance assetId) :
    (s.modifyAccount address update).AssetsBacked := by
  intro assetId
  rw [assetSum_modifyAccount_of_keep _ _ _ _ (hkeep assetId)]
  exact hbacked assetId

@[simp] theorem assetsBacked_putCollection (state : State) (collectionId : Bytes)
    (collection : Collection) :
    (state.putCollection collectionId collection).AssetsBacked ↔ state.AssetsBacked := Iff.rfl

@[simp] theorem assetsBacked_putChannel (state : State) (channelId : Bytes)
    (channel : PaymentChannel) :
    (state.putChannel channelId channel).AssetsBacked ↔ state.AssetsBacked := Iff.rfl

/-- Creating an asset under a fresh id gives its whole supply to the issuer. -/
theorem AssetsBacked.createAsset (hbacked : s.AssetsBacked) (issuer : Bytes) {assetId : Bytes}
    (asset : Asset) (hfresh : s.assets.lookup assetId = none) :
    ((s.modifyAccount issuer (.setAsset assetId asset.totalSupply)).putAsset assetId
      asset).AssetsBacked := by
  intro other
  have hsum := s.assetSum_modifyAccount other issuer (.setAsset assetId asset.totalSupply)
  rw [Account.assetBalance_setAsset] at hsum
  change (s.modifyAccount issuer _).assetSum other =
    ((s.assets.insert assetId asset).lookup other).elim 0 fun asset => asset.totalSupply.toNat
  rw [FiniteMap.lookup_insert_ite]
  by_cases hother : other = assetId
  · subst hother
    -- nobody held the fresh id before
    have hzero : s.assetSum other = 0 := by
      rw [hbacked other, registeredSupply, hfresh, Option.elim_none]
    have hissuer := s.assetBalance_le_assetSum other issuer
    rw [if_pos rfl] at hsum ⊢
    rw [Option.elim_some]
    omega
  · rw [if_neg hother] at hsum ⊢
    have hold := hbacked other
    unfold registeredSupply at hold
    omega

/-- A credit keeps every asset backed. -/
theorem AssetsBacked.credit (hbacked : s.AssetsBacked) (address : Bytes) (amount : UInt64) :
    (s.modifyAccount address (.credit amount)).AssetsBacked :=
  hbacked.modifyAccount address (.credit amount) fun _ _ => rfl

/-- A debit keeps every asset backed. -/
theorem AssetsBacked.debit (hbacked : s.AssetsBacked) (address : Bytes) (amount : UInt64) :
    (s.modifyAccount address (.debit amount)).AssetsBacked :=
  hbacked.modifyAccount address (.debit amount) fun _ _ => rfl

/-- Listing an item keeps every asset backed. -/
theorem AssetsBacked.addItem (hbacked : s.AssetsBacked) (address collectionId : Bytes)
    (itemId : UInt64) : (s.modifyAccount address (.addItem collectionId itemId)).AssetsBacked :=
  hbacked.modifyAccount address (.addItem collectionId itemId) fun _ _ => rfl

/-- A successful transaction keeps every asset backed. -/
theorem AssetsBacked.effect (hbacked : s.AssetsBacked) (h : Effect crypto s tx s') :
    s'.AssetsBacked := by
  cases h with
  | nativeTransfer => exact (hbacked.debit _ _).credit _ _
  | @createAsset name symbol supply decimals metadata assetId hdata hid hfresh =>
    exact hbacked.createAsset tx.sender
      { id := assetId, issuer := tx.sender, name, symbol, totalSupply := supply, decimals, metadata }
      hfresh
  | @transferAsset assetId amount hdata hasset hsender hfunds =>
    intro other
    have hbound : s.assetSum assetId < 2 ^ 64 := by
      rw [hbacked assetId]
      exact s.registeredSupply_lt assetId
    exact (s.assetSum_transfer hfunds hbound other).trans (hbacked other)
  | createCollection => exact (assetsBacked_putCollection _ _ _).mpr hbacked
  | mintNFT => exact (assetsBacked_putCollection _ _ _).mpr (hbacked.addItem _ _ _)
  | @transferNFT collectionId itemId =>
    have hremove := hbacked.modifyAccount tx.sender (.removeItem collectionId itemId)
      fun assetId => Account.assetBalance_removeItem collectionId assetId itemId
    exact (assetsBacked_putCollection _ _ _).mpr (hremove.addItem _ _ _)
  | openChannel => exact (assetsBacked_putChannel _ _ _).mpr (hbacked.debit _ _)
  | closeChannel => exact (assetsBacked_putChannel _ _ _).mpr ((hbacked.credit _ _).credit _ _)
  | @delegateSpend delegate allowance =>
    exact hbacked.modifyAccount tx.sender (.setAllowance delegate allowance) fun _ _ => rfl
  | registerValidator => exact hbacked.debit _ _
  | unregisterValidator => exact hbacked

/-- A failed transaction keeps every asset backed. -/
theorem AssetsBacked.residue (hbacked : s.AssetsBacked) (h : Residue crypto s tx s') :
    s'.AssetsBacked := by
  cases h with
  | unchanged => exact hbacked
  | debited => exact hbacked.debit _ _
  | markedClosed => exact (assetsBacked_putChannel _ _ _).mpr hbacked
  | ownerChanged => exact (assetsBacked_putCollection _ _ _).mpr hbacked

/-- A transaction of any outcome keeps every asset backed. -/
theorem AssetsBacked.applyTransaction (hbacked : s.AssetsBacked) (tx : Transaction) :
    (s.applyTransaction crypto tx).2.AssetsBacked := by
  rcases s.applyTransaction_cases crypto tx with ⟨s₁, heffect, hpost⟩ | hresidue
  · rw [hpost]
    exact (hbacked.effect heffect).modifyAccount tx.sender .bumpNonce fun _ _ => rfl
  · exact hbacked.residue hresidue

/-- The states that a node reaches from an empty database. Each commit meets a host of its own,
whose database may refuse writes. -/
inductive Reachable (crypto : Crypto) : State → Prop
  | empty : Reachable crypto .empty
  | setBalance {s : State} (address : Bytes) (balance : UInt64) :
      Reachable crypto s → Reachable crypto (s.setBalance address balance)
  | applyTransaction {s : State} (tx : Transaction) :
      Reachable crypto s → Reachable crypto (s.applyTransaction crypto tx).2
  | applyChanges {s s' : State} {host : Host} {result : Except String Unit} :
      Reachable crypto s → s.applyChanges crypto host = some (result, s') → Reachable crypto s'

/-- In every reachable state the balances of each asset add up to its registered supply. -/
theorem Reachable.assetsBacked (h : Reachable crypto s) : s.AssetsBacked := by
  induction h with
  | empty => exact fun _ => rfl
  | setBalance address balance _ ih =>
    exact ih.modifyAccount address (fun account => { account with balance }) fun _ _ => rfl
  | applyTransaction tx _ ih => exact ih.applyTransaction tx
  | applyChanges _ hcommit ih =>
    obtain ⟨haccounts, hassets, -, -⟩ := accounts_applyChanges hcommit
    intro assetId
    unfold assetSum registeredSupply
    rw [haccounts, hassets]
    exact ih assetId

/-- Nobody has a balance of an asset that is not registered. -/
theorem AssetsBacked.assetBalance_eq_zero (hbacked : s.AssetsBacked) {assetId : Bytes}
    (hnone : s.assets.lookup assetId = none) (address : Bytes) :
    (s.accountOrNew address).assetBalance assetId = 0 := by
  have hbalance := s.assetBalance_le_assetSum assetId address
  rw [hbacked assetId, registeredSupply, hnone, Option.elim_none] at hbalance
  exact UInt64.toNat_inj.mp (Nat.eq_zero_of_le_zero hbalance)

/-- The receiver's balance and the amount of a covered transfer are part of the asset's sum. -/
theorem assetBalance_takeAsset_add_le (state : State) (receiver : Bytes) {sender assetId : Bytes} {amount : UInt64}
    (hfunds : amount ≤ (state.accountOrNew sender).assetBalance assetId) :
    (((state.takeAsset sender assetId amount).accountOrNew receiver).assetBalance assetId).toNat +
      amount.toNat ≤ state.assetSum assetId := by
  have htake := state.assetSum_modifyAccount assetId sender
    fun account => account.setAsset assetId (account.assetBalance assetId - amount)
  have hreceiver := (state.takeAsset sender assetId amount).assetBalance_le_assetSum assetId receiver
  have hle := UInt64.le_iff_toNat_le.mp hfunds
  rw [Account.assetBalance_setAsset, if_pos rfl, UInt64.toNat_sub_of_le _ _ hfunds] at htake
  unfold takeAsset at hreceiver ⊢
  omega

/-- In every reachable state the balances of a registered asset add up to its total supply, nobody has a
balance of another id, and the credit of an asset transfer does not exceed a word. -/
theorem asset_supply_conserved (h : Reachable crypto s) :
    (∀ assetId asset, s.assets.lookup assetId = some asset →
        s.assetSum assetId = asset.totalSupply.toNat) ∧
      (∀ assetId, s.assets.lookup assetId = none → ∀ address account,
        s.getAccount address = some account → account.assetBalance assetId = 0) ∧
      ∀ sender receiver assetId amount s', s.transferAsset sender receiver assetId amount = (.ok (), s') →
        (((s.takeAsset sender assetId amount).accountOrNew receiver).assetBalance assetId).toNat +
          amount.toNat ≤ 2 ^ 64 - 1 := by
  refine ⟨fun assetId asset hasset => ?_, fun assetId hnone address account haccount => ?_, ?_⟩
  · rw [h.assetsBacked assetId, registeredSupply, hasset, Option.elim_some]
  · rw [← accountOrNew_of_getAccount haccount]
    exact h.assetsBacked.assetBalance_eq_zero hnone address
  · intro sender receiver assetId amount s' hok
    obtain ⟨-, -, hfunds, -⟩ := transferAsset_ok hok
    have hsum := s.assetBalance_takeAsset_add_le receiver hfunds
    have hbound := s.registeredSupply_lt assetId
    rw [h.assetsBacked assetId] at hsum
    omega

/-- The issuing of a thousand units of an asset. -/
def issueThousand : Transaction :=
  { sender := List.replicate 32 1, receiver := [], nonce := 0, signature := [],
    data := .createAsset "Gold" "GLD" 1000 8 [] }

/-- After it the units add up to the registered supply. -/
theorem asset_supply_of_issueThousand :
    ∃ assetId asset, (empty.applyTransaction Crypto.plain issueThousand).2.assets.lookup assetId =
        some asset ∧ asset.totalSupply = 1000 ∧
      (empty.applyTransaction Crypto.plain issueThousand).2.assetSum assetId =
        asset.totalSupply.toNat := by
  let id := (issueThousand.calculateAssetId Crypto.plain).getD []
  have hregistered : ((empty.applyTransaction Crypto.plain issueThousand).2.assets.lookup id).map
      Asset.totalSupply = some 1000 := by
    decide +kernel
  obtain ⟨asset, hasset, hsupply⟩ := Option.map_eq_some_iff.mp hregistered
  exact ⟨id, asset, hasset, hsupply,
    (asset_supply_conserved (.applyTransaction issueThousand .empty)).1 id asset hasset⟩

end State

end Nocostcoin
