import Nocostcoin.Ownership
import Nocostcoin.Registries

/-!
# What a list of transactions asks of the state it meets

Each transaction of a block needs the next nonce of its sender and, by its kind, funds, records or
ownership. What it finds is what the state shows with the movements of the earlier transactions of the
block added, so the whole list can be judged from the state before it, without executing anything.
-/

namespace Nocostcoin

/-- What a state shows of its holdings: all that the checks of a transaction read beside nonces. -/
@[ext] structure Holdings where
  /-- Whether an address has an account. -/
  known : Bytes → Bool
  balance : Bytes → UInt64
  /-- The balance of an asset at an address. -/
  assetBalance : Bytes → Bytes → UInt64
  /-- Whether an asset is registered. -/
  registered : Bytes → Bool
  /-- The issuer of a collection. -/
  issuer : Bytes → Option Bytes
  /-- The owner of an item of a collection. -/
  owner : Bytes → UInt64 → Option Bytes
  channel : Bytes → Option PaymentChannel

/-- The holdings that a state shows. -/
def State.holdings (state : State) : Holdings where
  known address := (state.getAccount address).isSome
  balance address := (state.accountOrNew address).balance
  assetBalance assetId address := (state.accountOrNew address).assetBalance assetId
  registered assetId := (state.assets.lookup assetId).isSome
  issuer collectionId := (state.collections.lookup collectionId).map Collection.issuer
  owner := state.ownerOf
  channel := state.channels.lookup

namespace Account

variable (assetId other : Bytes) (account : Account)

/-- The other updates of an account keep its asset balances. -/
theorem assetBalance_debit (amount : UInt64) :
    (account.debit amount).assetBalance assetId = account.assetBalance assetId := rfl

theorem assetBalance_credit (amount : UInt64) :
    (account.credit amount).assetBalance assetId = account.assetBalance assetId := rfl

theorem assetBalance_addItem (itemId : UInt64) :
    (account.addItem other itemId).assetBalance assetId = account.assetBalance assetId := rfl

theorem assetBalance_setAllowance (allowance : UInt64) :
    (account.setAllowance other allowance).assetBalance assetId = account.assetBalance assetId := rfl

end Account

/-- The partners of a channel. -/
def PaymentChannel.partners (channel : PaymentChannel) : Bytes × Bytes :=
  (channel.partnerA, channel.partnerB)

namespace Transaction

/-- What the transaction asks of the holdings it meets, by its kind. -/
def Requirement (crypto : Crypto) (holdings : Holdings) (tx : Transaction) : Prop :=
  match tx.data with
  | .nativeTransfer amount =>
      tx.sender ≠ tx.receiver ∧ holdings.known tx.sender ∧ amount ≤ holdings.balance tx.sender
  | .createAsset _ _ _ _ _ =>
      ∀ assetId, tx.calculateAssetId crypto = some assetId → ¬ holdings.registered assetId
  | .transferAsset assetId amount =>
      holdings.registered assetId ∧ holdings.known tx.sender ∧
        amount ≤ holdings.assetBalance assetId tx.sender
  | .createCollection _ _ _ =>
      ∀ collectionId, tx.calculateAssetId crypto = some collectionId →
        holdings.issuer collectionId = none
  | .mintNFT collectionId itemId _ _ =>
      holdings.issuer collectionId = some tx.sender ∧ holdings.owner collectionId itemId = none
  | .transferNFT collectionId itemId =>
      holdings.owner collectionId itemId = some tx.sender ∧ holdings.known tx.sender
  | .openChannel _ amount _ =>
      holdings.known tx.sender ∧ amount ≤ holdings.balance tx.sender ∧
        ∀ channelId, tx.calculateAssetId crypto = some channelId → holdings.channel channelId = none
  | .closeChannel channelId _ finalBalanceA finalBalanceB =>
      ∃ channel, holdings.channel channelId = some channel ∧ channel.isClosed = false ∧
        (tx.sender = channel.partnerA ∨ tx.sender = channel.partnerB) ∧
        finalBalanceA + finalBalanceB = channel.totalDeposit
  | .delegateSpend _ _ _ => True
  | .registerValidator stake => holdings.known tx.sender ∧ stake ≤ holdings.balance tx.sender
  | .unregisterValidator => holdings.known tx.sender

end Transaction

namespace State

variable {crypto : Crypto} {s : State} {tx : Transaction}

/-- A native transfer succeeds between different addresses when the funds are there. -/
theorem transferNative_isOk_iff {sender receiver : Bytes} {amount : UInt64} :
    (s.transferNative sender receiver amount).1 = .ok () ↔
      sender ≠ receiver ∧ s.holdings.known sender ∧ amount ≤ s.holdings.balance sender := by
  unfold transferNative
  by_cases hself : sender = receiver
  · simp [hself]
  · cases haccount : s.getAccount sender with
    | none => simp [hself, holdings, haccount]
    | some account =>
      have hbalance : s.holdings.balance sender = account.balance :=
        congrArg Account.balance (accountOrNew_of_getAccount haccount)
      rw [hbalance, ← UInt64.not_lt]
      by_cases hfunds : account.balance < amount <;> simp [hself, holdings, haccount, hfunds]

/-- An asset creation succeeds under a fresh id. -/
theorem createAsset_isOk_iff {issuer assetId : Bytes} {name symbol : String} {supply : UInt64}
    {decimals : UInt8} {metadata : Bytes} (hid : tx.calculateAssetId crypto = some assetId) :
    (s.createAsset crypto issuer tx name symbol supply decimals metadata).1 = .ok () ↔
      ¬ s.holdings.registered assetId := by
  unfold createAsset
  rw [hid]
  by_cases hfresh : (s.assets.lookup assetId).isSome <;> simp [holdings, hfresh]

/-- A transfer of a registered asset succeeds when the funds are there. -/
theorem transferAsset_isOk_iff {sender receiver assetId : Bytes} {amount : UInt64} :
    (s.transferAsset sender receiver assetId amount).1 = .ok () ↔
      s.holdings.registered assetId ∧ s.holdings.known sender ∧
        amount ≤ s.holdings.assetBalance assetId sender := by
  unfold transferAsset
  cases hasset : s.assets.lookup assetId with
  | none => simp [holdings, hasset]
  | some asset =>
    cases haccount : s.getAccount sender with
    | none => simp [holdings, hasset, haccount]
    | some account =>
      have hbalance : s.holdings.assetBalance assetId sender =
          (account.assets.lookup assetId).getD 0 :=
        congrArg (Account.assetBalance assetId) (accountOrNew_of_getAccount haccount)
      rw [hbalance, ← UInt64.not_lt]
      by_cases hfunds : (account.assets.lookup assetId).getD 0 < amount <;>
        simp [holdings, hasset, haccount, hfunds]

/-- A collection creation succeeds under a fresh id. -/
theorem createCollection_isOk_iff {issuer collectionId : Bytes} {name symbol : String}
    {metadata : Bytes} (hid : tx.calculateAssetId crypto = some collectionId) :
    (s.createCollection crypto issuer tx name symbol metadata).1 = .ok () ↔
      s.holdings.issuer collectionId = none := by
  unfold createCollection
  rw [hid]
  cases hfresh : s.collections.lookup collectionId <;> simp [holdings, hfresh]

/-- A mint succeeds for the issuer and a fresh item. -/
theorem mintNFT_isOk_iff {sender collectionId itemMetadata recipient : Bytes} {itemId : UInt64} :
    (s.mintNFT sender collectionId itemId itemMetadata recipient).1 = .ok () ↔
      s.holdings.issuer collectionId = some sender ∧ s.holdings.owner collectionId itemId = none := by
  unfold mintNFT
  cases hcollection : s.collections.lookup collectionId with
  | none => simp [holdings, hcollection]
  | some collection =>
    by_cases hissuer : collection.issuer = sender
    · cases hitem : collection.items.lookup itemId <;>
        simp [holdings, ownerOf, hcollection, hissuer, hitem]
    · simp [holdings, hcollection, hissuer]

/-- The collections do not matter to the accounts. -/
@[simp] theorem getAccount_with_collections (state : State)
    (collections : FiniteMap Bytes Collection) (address : Bytes) :
    getAccount { state with collections } address = state.getAccount address := rfl

/-- An item transfer succeeds for an owner with an account. -/
theorem transferNFT_isOk_iff {sender receiver collectionId : Bytes} {itemId : UInt64} :
    (s.transferNFT sender receiver collectionId itemId).1 = .ok () ↔
      s.holdings.owner collectionId itemId = some sender ∧ s.holdings.known sender := by
  unfold transferNFT
  cases hcollection : s.collections.lookup collectionId with
  | none => simp [holdings, ownerOf, hcollection]
  | some collection =>
    cases hitem : collection.items.lookup itemId with
    | none => simp [holdings, ownerOf, hcollection, hitem]
    | some item =>
      by_cases howner : item.owner = sender
      · cases haccount : s.getAccount sender <;>
          simp [holdings, ownerOf, hcollection, hitem, howner, haccount]
      · simp [holdings, ownerOf, hcollection, hitem, howner]

/-- An opening succeeds when the deposit is there and the id is fresh. -/
theorem openChannel_isOk_iff {sender partner channelId : Bytes} {amount duration : UInt64}
    (hid : tx.calculateAssetId crypto = some channelId) :
    (s.openChannel crypto sender partner amount duration tx).1 = .ok () ↔
      s.holdings.known sender ∧ amount ≤ s.holdings.balance sender ∧
        s.holdings.channel channelId = none := by
  unfold openChannel
  cases haccount : s.getAccount sender with
  | none => simp [holdings, haccount]
  | some account =>
    have hbalance : s.holdings.balance sender = account.balance :=
      congrArg Account.balance (accountOrNew_of_getAccount haccount)
    rw [hbalance, ← UInt64.not_lt, hid]
    by_cases hfunds : account.balance < amount
    · simp [hfunds]
    · cases hfresh : s.channels.lookup channelId <;>
        simp [holdings, insertPending, haccount, hfunds, hfresh]

/-- A closing by a partner succeeds with final balances that add up to the deposit. -/
theorem closeChannel_isOk_iff {sender channelId : Bytes} {finalBalanceA finalBalanceB : UInt64} :
    (s.closeChannel sender channelId finalBalanceA finalBalanceB).1 = .ok () ↔
      ∃ channel, s.holdings.channel channelId = some channel ∧ channel.isClosed = false ∧
        (sender = channel.partnerA ∨ sender = channel.partnerB) ∧
        finalBalanceA + finalBalanceB = channel.totalDeposit := by
  unfold closeChannel
  cases hchannel : s.channels.lookup channelId with
  | none => simp [holdings, hchannel]
  | some channel =>
    cases hopen : channel.isClosed with
    | true => simp [holdings, hchannel, hopen]
    | false =>
      by_cases hpartner : sender = channel.partnerA ∨ sender = channel.partnerB
      · have hauthorized : ¬ (sender ≠ channel.partnerA ∧ sender ≠ channel.partnerB) :=
          fun hneither => hpartner.elim hneither.1 hneither.2
        by_cases hsum : finalBalanceA + finalBalanceB = channel.totalDeposit <;>
          simp [holdings, hchannel, hopen, hauthorized, hpartner, hsum]
      · simp [holdings, hchannel, hopen, not_or.mp hpartner]

/-- A registration succeeds when the stake is there. -/
theorem deductStake_isOk_iff {sender : Bytes} {stake : UInt64} :
    (s.deductStake sender stake).1 = .ok () ↔
      s.holdings.known sender ∧ stake ≤ s.holdings.balance sender := by
  unfold deductStake
  cases haccount : s.getAccount sender with
  | none => simp [holdings, haccount]
  | some account =>
    have hbalance : s.holdings.balance sender = account.balance :=
      congrArg Account.balance (accountOrNew_of_getAccount haccount)
    rw [hbalance, ← UInt64.not_lt]
    by_cases hfunds : account.balance < stake <;> simp [holdings, haccount, hfunds]

/-- The arm of a transaction succeeds exactly when its requirement is met. -/
theorem processData_isOk_iff :
    (s.processData crypto tx).1 = .ok () ↔ tx.Requirement crypto s.holdings := by
  unfold processData Transaction.Requirement
  cases hdata : tx.data with
  | nativeTransfer amount => exact transferNative_isOk_iff
  | createAsset name symbol supply decimals metadata =>
    obtain ⟨assetId, hid⟩ : ∃ assetId, tx.calculateAssetId crypto = some assetId := by
      simp [Transaction.calculateAssetId, hdata]
    rw [createAsset_isOk_iff hid]
    simp [hid]
  | transferAsset assetId amount => exact transferAsset_isOk_iff
  | createCollection name symbol metadata =>
    obtain ⟨collectionId, hid⟩ : ∃ collectionId, tx.calculateAssetId crypto = some collectionId := by
      simp [Transaction.calculateAssetId, hdata]
    rw [createCollection_isOk_iff hid]
    simp [hid]
  | mintNFT collectionId itemId itemMetadata recipient => exact mintNFT_isOk_iff
  | transferNFT collectionId itemId => exact transferNFT_isOk_iff
  | openChannel partner amount duration =>
    obtain ⟨channelId, hid⟩ : ∃ channelId, tx.calculateAssetId crypto = some channelId := by
      simp [Transaction.calculateAssetId, hdata]
    rw [openChannel_isOk_iff hid]
    simp [hid]
  | closeChannel channelId balanceProof finalBalanceA finalBalanceB => exact closeChannel_isOk_iff
  | delegateSpend delegate allowance expiry => simp [delegateSpend]
  | registerValidator stake => exact deductStake_isOk_iff
  | unregisterValidator =>
    unfold requireAccount
    cases haccount : s.getAccount tx.sender <;> simp [holdings, haccount]

/-- A transaction succeeds exactly with its sender's nonce and its requirement met. -/
theorem applyTransaction_isOk_iff :
    (s.applyTransaction crypto tx).1 = .ok () ↔
      tx.nonce = s.getNonce tx.sender ∧ tx.Requirement crypto s.holdings := by
  rw [← processData_isOk_iff]
  unfold applyTransaction
  by_cases hnonce : tx.nonce = s.getNonce tx.sender
  · rw [if_neg (not_not.mpr hnonce)]
    rcases s.processData crypto tx with ⟨error | ⟨⟨⟩⟩, s'⟩ <;> simp [hnonce]
  · simp [hnonce]

end State

namespace Transaction

/-- The native coins that leave the sender's balance. -/
def spent (tx : Transaction) : UInt64 :=
  match tx.data with
  | .nativeTransfer amount => amount
  | .openChannel _ amount _ => amount
  | .registerValidator stake => stake
  | _ => 0

/-- The native coins that an address receives, given the partners of the channels. -/
def received (partners : Bytes → Option (Bytes × Bytes)) (address : Bytes) (tx : Transaction) : UInt64 :=
  match tx.data with
  | .nativeTransfer amount => if tx.receiver = address then amount else 0
  | .closeChannel channelId _ finalBalanceA finalBalanceB =>
    match partners channelId with
    | some (partnerA, partnerB) =>
        (if partnerA = address then finalBalanceA else 0) +
          (if partnerB = address then finalBalanceB else 0)
    | none => 0
  | _ => 0

/-- A balance after the transaction: less what the address spends, more what it receives. -/
def balanceAfter (partners : Bytes → Option (Bytes × Bytes)) (address : Bytes) (balance : UInt64)
    (tx : Transaction) : UInt64 :=
  (if tx.sender = address then balance - tx.spent else balance) + tx.received partners address

/-- The addresses that have an account after the transaction, if not before. -/
def touched (partners : Bytes → Option (Bytes × Bytes)) (tx : Transaction) : List Bytes :=
  tx.sender :: match tx.data with
    | .nativeTransfer _ => [tx.receiver]
    | .transferAsset _ _ => [tx.receiver]
    | .transferNFT _ _ => [tx.receiver]
    | .mintNFT _ _ _ recipient => [recipient]
    | .closeChannel channelId _ _ _ =>
      match partners channelId with
      | some (partnerA, partnerB) => [partnerA, partnerB]
      | none => []
    | _ => []

/-- Whether the transaction registers an asset under an id. -/
def registers (crypto : Crypto) (assetId : Bytes) (tx : Transaction) : Bool :=
  match tx.data with
  | .createAsset _ _ _ _ _ => tx.calculateAssetId crypto = some assetId
  | _ => false

/-- The balance of an asset after the transaction. -/
def assetBalanceAfter (crypto : Crypto) (assetId address : Bytes) (balance : UInt64)
    (tx : Transaction) : UInt64 :=
  match tx.data with
  | .createAsset _ _ supply _ _ =>
      if tx.sender = address ∧ tx.calculateAssetId crypto = some assetId then supply else balance
  | .transferAsset assetId' amount =>
      if assetId' = assetId then
        (if tx.sender = address then balance - amount else balance) +
          (if tx.receiver = address then amount else 0)
      else balance
  | _ => balance

/-- The issuer of the collection that the transaction creates under an id. -/
def founder (crypto : Crypto) (collectionId : Bytes) (tx : Transaction) : Option Bytes :=
  match tx.data with
  | .createCollection _ _ _ =>
      if tx.calculateAssetId crypto = some collectionId then some tx.sender else none
  | _ => none

/-- The owner of an item after the transaction. -/
def itemOwnerAfter (collectionId : Bytes) (itemId : UInt64) (owner : Option Bytes) (tx : Transaction) :
    Option Bytes :=
  match tx.data with
  | .mintNFT collectionId' itemId' _ recipient =>
      if collectionId = collectionId' ∧ itemId = itemId' then some recipient else owner
  | .transferNFT collectionId' itemId' =>
      if collectionId = collectionId' ∧ itemId = itemId' then some tx.receiver else owner
  | _ => owner

/-- The partners of the channel that the transaction opens under an id. -/
def openedBy (crypto : Crypto) (channelId : Bytes) (tx : Transaction) : Option (Bytes × Bytes) :=
  match tx.data with
  | .openChannel partner _ _ =>
      if tx.calculateAssetId crypto = some channelId then some (tx.sender, partner) else none
  | _ => none

/-- A channel after the transaction. -/
def channelAfter (crypto : Crypto) (channelId : Bytes) (channel : Option PaymentChannel)
    (tx : Transaction) : Option PaymentChannel :=
  match tx.data with
  | .openChannel partner amount duration =>
      if tx.calculateAssetId crypto = some channelId then
        some { id := channelId, partnerA := tx.sender, partnerB := partner, totalDeposit := amount,
               expiry := duration, isClosed := false }
      else channel
  | .closeChannel channelId' _ _ _ =>
      if channelId' = channelId then channel.map PaymentChannel.closed else channel
  | _ => channel

end Transaction

/-- Holdings after a transaction that succeeds. -/
def Holdings.after (crypto : Crypto) (partners : Bytes → Option (Bytes × Bytes)) (holdings : Holdings)
    (tx : Transaction) : Holdings where
  known address := holdings.known address || decide (address ∈ tx.touched partners)
  balance address := tx.balanceAfter partners address (holdings.balance address)
  assetBalance assetId address :=
    tx.assetBalanceAfter crypto assetId address (holdings.assetBalance assetId address)
  registered assetId := holdings.registered assetId || tx.registers crypto assetId
  issuer collectionId := (holdings.issuer collectionId).or (tx.founder crypto collectionId)
  owner collectionId itemId :=
    tx.itemOwnerAfter collectionId itemId (holdings.owner collectionId itemId)
  channel channelId := tx.channelAfter crypto channelId (holdings.channel channelId)

namespace State

variable {crypto : Crypto} {partners : Bytes → Option (Bytes × Bytes)} {s s' : State}
  {tx : Transaction}

/-- The partners that a state's channels have. -/
def PartnersOf (s : State) (partners : Bytes → Option (Bytes × Bytes)) : Prop :=
  ∀ channelId channel, s.channels.lookup channelId = some channel →
    partners channelId = some channel.partners

@[simp] theorem getAccount_putAsset (state : State) (assetId address : Bytes) (asset : Asset) :
    (state.putAsset assetId asset).getAccount address = state.getAccount address := rfl

@[simp] theorem getAccount_putCollection (state : State) (collectionId address : Bytes)
    (collection : Collection) :
    (state.putCollection collectionId collection).getAccount address = state.getAccount address := rfl

@[simp] theorem getAccount_putChannel (state : State) (channelId address : Bytes)
    (channel : PaymentChannel) :
    (state.putChannel channelId channel).getAccount address = state.getAccount address := rfl

@[simp] theorem accountOrNew_putAsset (state : State) (assetId address : Bytes) (asset : Asset) :
    (state.putAsset assetId asset).accountOrNew address = state.accountOrNew address := rfl

@[simp] theorem accountOrNew_putCollection (state : State) (collectionId address : Bytes)
    (collection : Collection) :
    (state.putCollection collectionId collection).accountOrNew address = state.accountOrNew address :=
  rfl

/-- The accounts that exist after an effect. -/
theorem known_of_effect (hpartners : s.PartnersOf partners) (h : Effect crypto s tx s')
    (address : Bytes) :
    ((s'.modifyAccount tx.sender .bumpNonce).getAccount address).isSome =
      ((s.getAccount address).isSome || decide (address ∈ tx.touched partners)) := by
  rw [isSome_getAccount_modifyAccount]
  cases h with
  | closeChannel hdata hchannel =>
    simp [isSome_getAccount_modifyAccount, Transaction.touched, hdata, hpartners _ _ hchannel,
      PaymentChannel.partners]
    grind
  | nativeTransfer hdata | createAsset hdata | transferAsset hdata | createCollection hdata
  | mintNFT hdata | transferNFT hdata | openChannel hdata | delegateSpend hdata
  | registerValidator hdata | unregisterValidator hdata =>
    simp [isSome_getAccount_modifyAccount, Transaction.touched, hdata]
    grind

/-- The balances after an effect. -/
theorem balance_of_effect (hpartners : s.PartnersOf partners) (h : Effect crypto s tx s')
    (address : Bytes) :
    ((s'.modifyAccount tx.sender .bumpNonce).accountOrNew address).balance =
      tx.balanceAfter partners address (s.accountOrNew address).balance := by
  rw [field_accountOrNew_modifyAccount Account.balance s' tx.sender address .bumpNonce fun _ => rfl]
  unfold Transaction.balanceAfter Transaction.spent Transaction.received
  cases h with
  | nativeTransfer hdata hne =>
    simp only [hdata, accountOrNew_modifyAccount]
    grind [Account.debit, Account.credit]
  | openChannel hdata =>
    simp only [hdata, accountOrNew_putChannel, accountOrNew_modifyAccount]
    grind [Account.debit]
  | registerValidator hdata =>
    simp only [hdata, accountOrNew_modifyAccount]
    grind [Account.debit]
  | closeChannel hdata hchannel =>
    simp only [hdata, hpartners _ _ hchannel, PaymentChannel.partners, accountOrNew_putChannel,
      accountOrNew_modifyAccount]
    grind [Account.credit]
  | createAsset hdata | transferAsset hdata | createCollection hdata | mintNFT hdata
  | transferNFT hdata | delegateSpend hdata | unregisterValidator hdata =>
    simp only [hdata, accountOrNew_putAsset, accountOrNew_putCollection, accountOrNew_modifyAccount]
    grind [Account.setAsset, Account.addItem, Account.balance_removeItem, Account.setAllowance]

/-- The balances of assets after an effect. -/
theorem assetBalance_of_effect (h : Effect crypto s tx s') (assetId address : Bytes) :
    ((s'.modifyAccount tx.sender .bumpNonce).accountOrNew address).assetBalance assetId =
      tx.assetBalanceAfter crypto assetId address
        ((s.accountOrNew address).assetBalance assetId) := by
  rw [field_accountOrNew_modifyAccount (Account.assetBalance assetId) s' tx.sender address .bumpNonce
    fun _ => rfl]
  unfold Transaction.assetBalanceAfter
  cases h with
  | createAsset hdata hid =>
    simp only [hdata, hid, accountOrNew_putAsset, accountOrNew_modifyAccount]
    grind [Account.assetBalance_setAsset]
  | transferAsset hdata =>
    simp only [hdata, accountOrNew_modifyAccount]
    grind [Account.assetBalance_setAsset]
  | nativeTransfer hdata | mintNFT hdata | transferNFT hdata | openChannel hdata | closeChannel hdata
  | delegateSpend hdata | registerValidator hdata =>
    simp only [hdata, accountOrNew_putChannel, accountOrNew_putCollection, accountOrNew_modifyAccount]
    grind [Account.assetBalance_debit, Account.assetBalance_credit, Account.assetBalance_addItem,
      Account.assetBalance_removeItem, Account.assetBalance_setAllowance]
  | createCollection hdata | unregisterValidator hdata => simp [hdata]

/-- The registered assets after an effect. -/
theorem registered_of_effect (h : Effect crypto s tx s') (assetId : Bytes) :
    (s'.assets.lookup assetId).isSome =
      ((s.assets.lookup assetId).isSome || tx.registers crypto assetId) := by
  unfold Transaction.registers
  cases h with
  | createAsset hdata hid hfresh =>
    simp only [hdata, hid, putAsset, assets_modifyAccount]
    rw [FiniteMap.lookup_insert_ite]
    grind
  | nativeTransfer hdata | transferAsset hdata | createCollection hdata | mintNFT hdata
  | transferNFT hdata | openChannel hdata | closeChannel hdata | delegateSpend hdata
  | registerValidator hdata | unregisterValidator hdata =>
    simp [hdata, putCollection, putChannel]

/-- The issuers of collections after an effect. -/
theorem issuer_of_effect (h : Effect crypto s tx s') (collectionId : Bytes) :
    (s'.collections.lookup collectionId).map Collection.issuer =
      ((s.collections.lookup collectionId).map Collection.issuer).or
        (tx.founder crypto collectionId) := by
  unfold Transaction.founder
  cases h with
  | createCollection hdata hid hfresh =>
    simp only [hdata, hid, putCollection]
    rw [FiniteMap.lookup_insert_ite]
    grind
  | mintNFT hdata hcollection | transferNFT hdata hcollection =>
    simp only [hdata, putCollection, Collection.putItem, collections_modifyAccount]
    rw [FiniteMap.lookup_insert_ite]
    grind
  | nativeTransfer hdata | createAsset hdata | transferAsset hdata | openChannel hdata
  | closeChannel hdata | delegateSpend hdata | registerValidator hdata
  | unregisterValidator hdata =>
    simp [hdata, putAsset, putChannel]

/-- The owners of items after an effect. -/
theorem owner_of_effect (h : Effect crypto s tx s') (collectionId : Bytes) (itemId : UInt64) :
    s'.ownerOf collectionId itemId =
      tx.itemOwnerAfter collectionId itemId (s.ownerOf collectionId itemId) := by
  unfold Transaction.itemOwnerAfter
  cases h with
  | createCollection hdata hid hfresh =>
    simp only [hdata]
    exact ownerOf_putCollection_fresh hfresh rfl _ _
  | mintNFT hdata hcollection | transferNFT hdata hcollection =>
    simp only [hdata]
    exact ownerOf_putItem hcollection _ _ _ _
  | nativeTransfer hdata | createAsset hdata | transferAsset hdata | openChannel hdata
  | closeChannel hdata | delegateSpend hdata | registerValidator hdata =>
    simp only [hdata]
    rfl
  | unregisterValidator hdata => simp only [hdata]

/-- The channels after an effect. -/
theorem channel_of_effect (h : Effect crypto s tx s') (channelId : Bytes) :
    s'.channels.lookup channelId =
      tx.channelAfter crypto channelId (s.channels.lookup channelId) := by
  unfold Transaction.channelAfter
  cases h with
  | openChannel hdata hsender hfunds hid hfresh =>
    simp only [hdata, hid, putChannel, channels_modifyAccount]
    rw [FiniteMap.lookup_insert_ite]
    grind
  | closeChannel hdata hchannel =>
    simp only [hdata, putChannel, channels_modifyAccount]
    rw [FiniteMap.lookup_insert_ite]
    grind
  | nativeTransfer hdata | createAsset hdata | transferAsset hdata | createCollection hdata
  | mintNFT hdata | transferNFT hdata | delegateSpend hdata | registerValidator hdata
  | unregisterValidator hdata =>
    simp [hdata, putAsset, putCollection]

/-- A transaction that succeeds changes the holdings by its own movements. -/
theorem holdings_of_effect (hpartners : s.PartnersOf partners) (h : Effect crypto s tx s') :
    (s'.modifyAccount tx.sender .bumpNonce).holdings = s.holdings.after crypto partners tx := by
  apply Holdings.ext
  · funext address
    exact known_of_effect hpartners h address
  · funext address
    exact balance_of_effect hpartners h address
  · funext assetId address
    exact assetBalance_of_effect h assetId address
  · funext assetId
    exact registered_of_effect h assetId
  · funext collectionId
    exact issuer_of_effect h collectionId
  · funext collectionId itemId
    exact owner_of_effect h collectionId itemId
  · funext channelId
    exact channel_of_effect h channelId

/-- Opening a fresh channel and closing keep track of the partners. -/
theorem partners_of_effect (h : Effect crypto s tx s') (channelId : Bytes) :
    (s'.channels.lookup channelId).map PaymentChannel.partners =
      ((s.channels.lookup channelId).map PaymentChannel.partners).or (tx.openedBy crypto channelId) := by
  rw [channel_of_effect h]
  unfold Transaction.channelAfter Transaction.openedBy
  cases h with
  | openChannel hdata hsender hfunds hid hfresh =>
    simp only [hdata, hid]
    grind [PaymentChannel.partners]
  | closeChannel hdata =>
    simp only [hdata]
    grind [PaymentChannel.partners, PaymentChannel.closed]
  | nativeTransfer hdata | createAsset hdata | transferAsset hdata | createCollection hdata
  | mintNFT hdata | transferNFT hdata | delegateSpend hdata | registerValidator hdata
  | unregisterValidator hdata => simp [hdata]

end State

/-- The partners of a channel that a state has or that one of the transactions opens. -/
def partnersWith (crypto : Crypto) (state : State) (txs : List Transaction) (channelId : Bytes) :
    Option (Bytes × Bytes) :=
  ((state.channels.lookup channelId).map PaymentChannel.partners).or
    (txs.findSome? (Transaction.openedBy crypto channelId))

/-- The holdings that a state shows with the movements of some transactions added: accounts and
records exist that were there or that one of them makes, balances, owners and channels are moved by each
in turn. -/
def State.holdingsWith (crypto : Crypto) (state : State) (partners : Bytes → Option (Bytes × Bytes))
    (txs : List Transaction) : Holdings where
  known address := state.holdings.known address || txs.any fun tx => decide (address ∈ tx.touched partners)
  balance address := txs.foldl (Transaction.balanceAfter partners address) (state.holdings.balance address)
  assetBalance assetId address :=
    txs.foldl (Transaction.assetBalanceAfter crypto assetId address)
      (state.holdings.assetBalance assetId address)
  registered assetId := state.holdings.registered assetId || txs.any (Transaction.registers crypto assetId)
  issuer collectionId :=
    (state.holdings.issuer collectionId).or (txs.findSome? (Transaction.founder crypto collectionId))
  owner collectionId itemId :=
    txs.foldl (Transaction.itemOwnerAfter collectionId itemId) (state.holdings.owner collectionId itemId)
  channel channelId :=
    txs.foldl (Transaction.channelAfter crypto channelId) (state.holdings.channel channelId)

namespace State

variable {crypto : Crypto} {s t : State} {txs : List Transaction}

@[simp] theorem holdingsWith_nil (crypto : Crypto) (s : State)
    (partners : Bytes → Option (Bytes × Bytes)) : s.holdingsWith crypto partners [] = s.holdings := by
  simp [holdingsWith]

/-- One more transaction moves the holdings on. -/
theorem holdingsWith_append (crypto : Crypto) (s : State) (partners : Bytes → Option (Bytes × Bytes))
    (txs : List Transaction) (tx : Transaction) :
    s.holdingsWith crypto partners (txs ++ [tx]) =
      (s.holdingsWith crypto partners txs).after crypto partners tx := by
  simp [holdingsWith, Holdings.after, Bool.or_assoc, Option.or_assoc]

end State

/-- What a list of transactions needs of a state to be executed in its order: the nonces of each sender
follow on one another from the state's, and every transaction finds its requirement met by the state with
the movements of the earlier ones added. -/
structure Ready (crypto : Crypto) (state : State) (txs : List Transaction) : Prop where
  nonces : ∀ address, noncesOf address txs = nonceRange (state.getNonce address) (sentBy address txs)
  met : ∀ earlier tx later, txs = earlier ++ tx :: later →
    tx.Requirement crypto (state.holdingsWith crypto (partnersWith crypto state txs) earlier)

/-- In consecutive nonces each transaction carries the next one of its sender. -/
theorem nonce_of_consecutive {address : Bytes} {first : UInt64} {earlier later : List Transaction}
    {tx : Transaction} (hsender : tx.sender = address)
    (h : noncesOf address (earlier ++ tx :: later) =
      nonceRange first (sentBy address (earlier ++ tx :: later))) :
    tx.nonce = first + UInt64.ofNat (sentBy address earlier) := by
  have hsplit : noncesOf address (earlier ++ tx :: later) =
      noncesOf address earlier ++ tx.nonce :: noncesOf address later := by
    rw [noncesOf_append, noncesOf_cons, if_pos hsender]
  have hplace : (noncesOf address (earlier ++ tx :: later))[sentBy address earlier]? = some tx.nonce := by
    rw [hsplit, sentBy, List.getElem?_append_right le_rfl, Nat.sub_self]
    rfl
  have hcount : sentBy address earlier < sentBy address (earlier ++ tx :: later) := by
    rw [sentBy, sentBy, hsplit, List.length_append, List.length_cons]
    omega
  rw [h, nonceRange, List.getElem?_map, List.getElem?_range hcount] at hplace
  exact (Option.some.inj hplace).symm

/-- Partners that are known after some transactions stay known. -/
theorem partnersWith_of_prefix {crypto : Crypto} {s : State} {txs all : List Transaction}
    {channelId : Bytes} {pair : Bytes × Bytes} (hinit : txs <+: all)
    (h : partnersWith crypto s txs channelId = some pair) :
    partnersWith crypto s all channelId = some pair := by
  obtain ⟨later, rfl⟩ := hinit
  rw [partnersWith, List.findSome?_append, ← Option.or_assoc]
  rw [partnersWith] at h
  rw [h, Option.some_or]

namespace Chain

variable {crypto : Crypto} {s t : State} {txs later : List Transaction}

/-- If a list succeeds, its first part does. -/
theorem processTransactions_of_append
    (h : (processTransactions crypto s (txs ++ later)).1 = .ok ()) :
    ∃ t, processTransactions crypto s txs = (.ok (), t) := by
  induction txs generalizing s with
  | nil => exact ⟨s, rfl⟩
  | cons tx rest ih =>
    rw [List.cons_append, processTransactions] at h
    rw [processTransactions]
    split at h
    · simp at h
    · exact ih h

/-- After some of the transactions the state shows the holdings with their movements added. -/
theorem holdings_of_processTransactions {all : List Transaction} (hinit : txs <+: all)
    (h : processTransactions crypto s txs = (.ok (), t)) :
    t.holdings = s.holdingsWith crypto (partnersWith crypto s all) txs := by
  suffices hboth : (t.holdings = s.holdingsWith crypto (partnersWith crypto s all) txs) ∧
      ∀ channelId, (t.channels.lookup channelId).map PaymentChannel.partners =
        partnersWith crypto s txs channelId from hboth.1
  refine processTransactions_invariant
    (fun before state => before <+: all →
      state.holdings = s.holdingsWith crypto (partnersWith crypto s all) before ∧
        ∀ channelId, (state.channels.lookup channelId).map PaymentChannel.partners =
          partnersWith crypto s before channelId)
    (fun before tx s₁ s₂ hbefore heffect hall => ?_) [] (fun _ => ⟨?_, fun channelId => ?_⟩) h hinit
  · obtain ⟨hholdings, hpartners⟩ := hbefore ((List.prefix_append before [tx]).trans hall)
    have hof : s₁.PartnersOf (partnersWith crypto s all) := by
      intro channelId channel hchannel
      apply partnersWith_of_prefix ((List.prefix_append before [tx]).trans hall)
      rw [← hpartners, hchannel]
      rfl
    constructor
    · rw [State.holdings_of_effect hof heffect, hholdings, State.holdingsWith_append]
    · intro channelId
      change (s₂.channels.lookup channelId).map PaymentChannel.partners = _
      rw [State.partners_of_effect heffect, hpartners, partnersWith, partnersWith,
        List.findSome?_append, List.findSome?_singleton, Option.or_assoc]
  · rw [State.holdingsWith_nil]
  · simp [partnersWith]

/-- A valid transaction that meets its nonce and its requirement is processed. -/
theorem processTransaction_isOk_iff {tx : Transaction} (hvalid : tx.validate crypto = .ok ()) :
    (processTransaction crypto s tx).1 = .ok () ↔
      tx.nonce = s.getNonce tx.sender ∧ tx.Requirement crypto s.holdings := by
  rw [processTransaction, hvalid]
  exact State.applyTransaction_isOk_iff

/-- Valid transactions are executed in their order exactly when the state is ready for them. -/
theorem processTransactions_isOk_iff (hvalid : ∀ tx ∈ txs, tx.validate crypto = .ok ()) :
    (processTransactions crypto s txs).1 = .ok () ↔ Ready crypto s txs := by
  constructor
  · intro hok
    refine ⟨fun address => ?_, fun earlier tx later hsplit => ?_⟩
    · have happend : (processTransactions crypto s (txs ++ [])).1 = .ok () := by
        rwa [List.append_nil]
      obtain ⟨t, ht⟩ := processTransactions_of_append happend
      exact (nonces_of_processTransactions ht address).1
    · have htx : tx.validate crypto = .ok () := hvalid tx (by simp [hsplit])
      rw [hsplit] at hok
      obtain ⟨t, ht⟩ := processTransactions_of_append hok
      rw [processTransactions_append ht, processTransactions] at hok
      rw [← holdings_of_processTransactions ⟨tx :: later, hsplit.symm⟩ ht]
      have hfirst : (processTransaction crypto t tx).1 = .ok () := by
        split at hok
        · simp at hok
        · rename_i next hnext
          rw [hnext]
      exact ((processTransaction_isOk_iff htx).mp hfirst).2
  · intro hready
    suffices hrest : ∀ (later earlier : List Transaction) (t : State), txs = earlier ++ later →
        processTransactions crypto s earlier = (.ok (), t) →
          (processTransactions crypto t later).1 = .ok () from hrest txs [] s rfl rfl
    intro later
    induction later with
    | nil => exact fun _ _ _ _ => rfl
    | cons tx rest ih =>
      intro earlier t hsplit ht
      have htx : tx.validate crypto = .ok () := hvalid tx (by simp [hsplit])
      have hnonce : tx.nonce = t.getNonce tx.sender := by
        rw [(nonces_of_processTransactions ht tx.sender).2]
        have hnonces := hready.nonces tx.sender
        rw [hsplit] at hnonces
        exact nonce_of_consecutive rfl hnonces
      have hmet := hready.met earlier tx rest hsplit
      rw [← holdings_of_processTransactions ⟨tx :: rest, hsplit.symm⟩ ht] at hmet
      have hok := (processTransaction_isOk_iff htx).mpr ⟨hnonce, hmet⟩
      rw [processTransactions]
      rcases hprocess : processTransaction crypto t tx with ⟨error | ⟨⟨⟩⟩, next⟩
      · rw [hprocess] at hok
        contradiction
      · refine ih (earlier ++ [tx]) next (by rw [hsplit, List.append_cons]) ?_
        rw [processTransactions_append ht, processTransactions, hprocess]
        rfl

end Chain

end Nocostcoin
