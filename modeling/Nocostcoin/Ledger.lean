import Nocostcoin.State

/-!
# What a transaction does to the ledger

`getAccount` reads one account table, the pending changes over the stored accounts. Every arm
of `apply_transaction` updates at most two entries of it and one registry; `Effect` says so
once for all eleven kinds, and the invariants of the ledger are read off it.
-/

namespace Nocostcoin

namespace State

/-- The account table that `getAccount` reads: pending over stored. -/
def accounts (state : State) : FiniteMap Bytes Account :=
  state.pendingChanges ∪ state.storage.accounts

/-- Reading an account is a lookup in the account table. -/
theorem getAccount_eq_lookup (state : State) (address : Bytes) :
    state.getAccount address = state.accounts.lookup address := by
  rw [accounts, FiniteMap.lookup_union_or, getAccount, Storage.getAccount]
  cases state.pendingChanges.lookup address <;> rfl

/-- A pending write is a write to the account table. -/
@[simp] theorem accounts_insertPending (state : State) (address : Bytes) (account : Account) :
    (state.insertPending address account).accounts = state.accounts.insert address account :=
  Finmap.insert_union.symm

/-- Reading after a pending write. -/
theorem getAccount_insertPending (state : State) (address other : Bytes) (account : Account) :
    (state.insertPending address account).getAccount other =
      if other = address then some account else state.getAccount other := by
  rw [getAccount_eq_lookup, getAccount_eq_lookup, accounts_insertPending,
    FiniteMap.lookup_insert_ite]

/-- An existing account is what `accountOrNew` returns. -/
theorem accountOrNew_of_getAccount {state : State} {address : Bytes} {account : Account}
    (h : state.getAccount address = some account) : state.accountOrNew address = account := by
  rw [accountOrNew, h, Option.getD_some]

/-- A missing account has balance zero, as a new one has. -/
theorem getBalance_eq (state : State) (address : Bytes) :
    state.getBalance address = (state.accountOrNew address).balance := by
  unfold getBalance accountOrNew
  cases state.getAccount address <;> rfl

/-- A missing account has nonce zero, as a new one has. -/
theorem getNonce_eq (state : State) (address : Bytes) :
    state.getNonce address = (state.accountOrNew address).nonce := by
  unfold getNonce accountOrNew
  cases state.getAccount address <;> rfl

/-- Rewrite the account of an address, a new one if there is none. -/
def modifyAccount (state : State) (address : Bytes) (update : Account → Account) : State :=
  state.insertPending address (update (state.accountOrNew address))

/-- Reading an account after another account was rewritten, or the account itself. -/
theorem accountOrNew_modifyAccount (state : State) (address other : Bytes)
    (update : Account → Account) :
    (state.modifyAccount address update).accountOrNew other =
      if other = address then update (state.accountOrNew address) else state.accountOrNew other := by
  rw [accountOrNew, modifyAccount, getAccount_insertPending]
  split <;> rfl

/-- The rewritten account exists, the other accounts exist as before. -/
theorem isSome_getAccount_modifyAccount (state : State) (address other : Bytes)
    (update : Account → Account) :
    ((state.modifyAccount address update).getAccount other).isSome =
      (decide (other = address) || (state.getAccount other).isSome) := by
  rw [modifyAccount, getAccount_insertPending]
  by_cases h : other = address <;> simp [h]

/-- A field that an update keeps is kept in every account. -/
theorem field_accountOrNew_modifyAccount {β : Type} (field : Account → β) (state : State)
    (address other : Bytes) (update : Account → Account)
    (hkeep : ∀ account, field (update account) = field account) :
    field ((state.modifyAccount address update).accountOrNew other) =
      field (state.accountOrNew other) := by
  rw [accountOrNew_modifyAccount]
  split
  · rename_i heq
    rw [hkeep, heq]
  · rfl

@[simp] theorem assets_modifyAccount (state : State) (address : Bytes) (update : Account → Account) :
    (state.modifyAccount address update).assets = state.assets := rfl

@[simp] theorem collections_modifyAccount (state : State) (address : Bytes)
    (update : Account → Account) :
    (state.modifyAccount address update).collections = state.collections := rfl

@[simp] theorem channels_modifyAccount (state : State) (address : Bytes)
    (update : Account → Account) :
    (state.modifyAccount address update).channels = state.channels := rfl

@[simp] theorem storage_modifyAccount (state : State) (address : Bytes)
    (update : Account → Account) :
    (state.modifyAccount address update).storage = state.storage := rfl

@[simp] theorem trie_modifyAccount (state : State) (address : Bytes) (update : Account → Account) :
    (state.modifyAccount address update).trie = state.trie := rfl

/-- The weight of an address in a sum over the accounts; a missing account weighs as a new one. -/
theorem weightAt_accounts (weight : Account → ℕ) (hnew : weight (Account.new 0) = 0) (state : State)
    (address : Bytes) :
    FiniteMap.weightAt weight state.accounts address = weight (state.accountOrNew address) := by
  rw [FiniteMap.weightAt, accountOrNew, getAccount_eq_lookup]
  cases state.accounts.lookup address with
  | none => exact hnew.symm
  | some account => rfl

/-- Rewriting one account changes a sum over the accounts by the new weight minus the old one. -/
theorem sumOf_modifyAccount (weight : Account → ℕ) (hnew : weight (Account.new 0) = 0)
    (state : State) (address : Bytes) (update : Account → Account) :
    FiniteMap.sumOf weight (state.modifyAccount address update).accounts +
        weight (state.accountOrNew address) =
      FiniteMap.sumOf weight state.accounts + weight (update (state.accountOrNew address)) := by
  rw [← weightAt_accounts weight hnew, modifyAccount, accounts_insertPending]
  exact FiniteMap.sumOf_insert _ _ _ _

/-- An update that keeps the weight of every account keeps the sum over the accounts. -/
theorem sumOf_modifyAccount_of_keep (weight : Account → ℕ) (hnew : weight (Account.new 0) = 0)
    (state : State) (address : Bytes) (update : Account → Account)
    (hkeep : ∀ account, weight (update account) = weight account) :
    FiniteMap.sumOf weight (state.modifyAccount address update).accounts =
      FiniteMap.sumOf weight state.accounts := by
  have h := sumOf_modifyAccount weight hnew state address update
  rw [hkeep] at h
  omega

/-- Enter an asset in the registry. -/
def putAsset (state : State) (assetId : Bytes) (asset : Asset) : State :=
  { state with assets := state.assets.insert assetId asset }

/-- Enter a collection in the registry, or replace it. -/
def putCollection (state : State) (collectionId : Bytes) (collection : Collection) : State :=
  { state with collections := state.collections.insert collectionId collection }

/-- Enter a channel in the registry, or replace it. -/
def putChannel (state : State) (channelId : Bytes) (channel : PaymentChannel) : State :=
  { state with channels := state.channels.insert channelId channel }

@[simp] theorem accountOrNew_putChannel (state : State) (channelId address : Bytes)
    (channel : PaymentChannel) :
    (state.putChannel channelId channel).accountOrNew address = state.accountOrNew address := rfl

end State

namespace Account

/-- Native coins leave the balance. -/
def debit (amount : UInt64) (account : Account) : Account :=
  { account with balance := account.balance - amount }

/-- Native coins enter the balance, modulo `2 ^ 64`. -/
def credit (amount : UInt64) (account : Account) : Account :=
  { account with balance := account.balance + amount }

/-- The balance of an asset, zero when it is not listed. -/
def assetBalance (assetId : Bytes) (account : Account) : UInt64 :=
  (account.assets.lookup assetId).getD 0

/-- Write the balance of an asset. -/
def setAsset (assetId : Bytes) (balance : UInt64) (account : Account) : Account :=
  { account with assets := account.assets.insert assetId balance }

/-- The items listed under a collection. -/
def itemsOf (collectionId : Bytes) (account : Account) : List UInt64 :=
  (account.nfts.lookup collectionId).getD []

/-- List an item under a collection. -/
def addItem (collectionId : Bytes) (itemId : UInt64) (account : Account) : Account :=
  { account with nfts := account.nfts.insert collectionId (account.itemsOf collectionId ++ [itemId]) }

/-- Drop an item from the list of a collection, if there is a list. -/
def removeItem (collectionId : Bytes) (itemId : UInt64) (account : Account) : Account :=
  match account.nfts.lookup collectionId with
  | none => account
  | some nfts =>
      { account with nfts := account.nfts.insert collectionId (nfts.filter fun x => x ≠ itemId) }

/-- Set the allowance of a delegate. -/
def setAllowance (delegate : Bytes) (allowance : UInt64) (account : Account) : Account :=
  { account with delegatedAllowance := account.delegatedAllowance.insert delegate allowance }

/-- Count one more transaction. -/
def bumpNonce (account : Account) : Account := { account with nonce := account.nonce + 1 }

theorem balance_removeItem (collectionId : Bytes) (itemId : UInt64) (account : Account) :
    (account.removeItem collectionId itemId).balance = account.balance := by
  unfold removeItem
  split <;> rfl

theorem nonce_debit (amount : UInt64) (account : Account) :
    (account.debit amount).nonce = account.nonce := rfl

theorem nonce_credit (amount : UInt64) (account : Account) :
    (account.credit amount).nonce = account.nonce := rfl

theorem nonce_setAsset (assetId : Bytes) (balance : UInt64) (account : Account) :
    (account.setAsset assetId balance).nonce = account.nonce := rfl

theorem nonce_addItem (collectionId : Bytes) (itemId : UInt64) (account : Account) :
    (account.addItem collectionId itemId).nonce = account.nonce := rfl

theorem nonce_setAllowance (delegate : Bytes) (allowance : UInt64) (account : Account) :
    (account.setAllowance delegate allowance).nonce = account.nonce := rfl

theorem nonce_removeItem (collectionId : Bytes) (itemId : UInt64) (account : Account) :
    (account.removeItem collectionId itemId).nonce = account.nonce := by
  unfold removeItem
  split <;> rfl

theorem assets_removeItem (collectionId : Bytes) (itemId : UInt64) (account : Account) :
    (account.removeItem collectionId itemId).assets = account.assets := by
  unfold removeItem
  split <;> rfl

end Account

/-- Enter an item in a collection, or replace it. -/
def Collection.putItem (collection : Collection) (itemId : UInt64) (item : NFTItem) : Collection :=
  { collection with items := collection.items.insert itemId item }

/-- The item under another owner. -/
def NFTItem.ownedBy (item : NFTItem) (owner : Bytes) : NFTItem := { item with owner }

/-- The channel after its closing. -/
def PaymentChannel.closed (channel : PaymentChannel) : PaymentChannel :=
  { channel with isClosed := true }

namespace State

variable {crypto : Crypto} {s s' : State} {tx : Transaction}

/-- A successful native transfer moves coins between two different addresses. -/
theorem transferNative_ok {sender receiver : Bytes} {amount : UInt64}
    (h : s.transferNative sender receiver amount = (.ok (), s')) :
    sender ≠ receiver ∧ (s.getAccount sender).isSome ∧ amount ≤ (s.accountOrNew sender).balance ∧
      s' = (s.modifyAccount sender (.debit amount)).modifyAccount receiver (.credit amount) := by
  unfold transferNative at h
  split at h
  · simp at h
  · rename_i hne
    split at h
    · simp at h
    · rename_i account haccount
      split at h
      · simp at h
      · rename_i hfunds
        obtain rfl := accountOrNew_of_getAccount haccount
        exact ⟨hne, by simp [haccount], UInt64.not_lt.mp hfunds, (Prod.mk.inj h).2.symm⟩

/-- A successful asset creation credits the issuer and registers a fresh id. -/
theorem createAsset_ok {issuer : Bytes} {name symbol : String} {supply : UInt64} {decimals : UInt8}
    {metadata : Bytes}
    (h : s.createAsset crypto issuer tx name symbol supply decimals metadata = (.ok (), s')) :
    ∃ assetId, tx.calculateAssetId crypto = some assetId ∧ s.assets.lookup assetId = none ∧
      s' = (s.modifyAccount issuer (.setAsset assetId supply)).putAsset assetId
        { id := assetId, issuer, name, symbol, totalSupply := supply, decimals, metadata } := by
  unfold createAsset at h
  split at h
  · simp at h
  · rename_i assetId hid
    split at h
    · simp at h
    · rename_i hfresh
      exact ⟨assetId, hid, by simpa using hfresh, (Prod.mk.inj h).2.symm⟩

/-- A successful asset transfer moves a registered asset; both ends may be one address. -/
theorem transferAsset_ok {sender receiver assetId : Bytes} {amount : UInt64}
    (h : s.transferAsset sender receiver assetId amount = (.ok (), s')) :
    (s.assets.lookup assetId).isSome ∧ (s.getAccount sender).isSome ∧
      amount ≤ (s.accountOrNew sender).assetBalance assetId ∧
      s' = (s.modifyAccount sender
          (fun account => account.setAsset assetId (account.assetBalance assetId - amount))).modifyAccount
        receiver (fun account => account.setAsset assetId (account.assetBalance assetId + amount)) := by
  unfold transferAsset at h
  split at h
  · simp at h
  · rename_i hasset
    split at h
    · simp at h
    · rename_i account haccount
      dsimp only at h
      split at h
      · simp at h
      · rename_i hfunds
        obtain rfl := accountOrNew_of_getAccount haccount
        exact ⟨by simpa [Option.isSome_iff_ne_none] using hasset, by simp [haccount],
          UInt64.not_lt.mp hfunds, (Prod.mk.inj h).2.symm⟩

/-- A successful collection creation registers a fresh, empty collection. -/
theorem createCollection_ok {issuer : Bytes} {name symbol : String} {metadata : Bytes}
    (h : s.createCollection crypto issuer tx name symbol metadata = (.ok (), s')) :
    ∃ collectionId, tx.calculateAssetId crypto = some collectionId ∧
      s.collections.lookup collectionId = none ∧
      s' = s.putCollection collectionId
        { id := collectionId, issuer, name, symbol, metadata, items := ∅ } := by
  unfold createCollection at h
  split at h
  · simp at h
  · rename_i collectionId hid
    split at h
    · simp at h
    · rename_i hfresh
      exact ⟨collectionId, hid, by simpa using hfresh, (Prod.mk.inj h).2.symm⟩

/-- A successful mint adds a fresh item to the registry and to the recipient's list. -/
theorem mintNFT_ok {sender collectionId itemMetadata recipient : Bytes} {itemId : UInt64}
    (h : s.mintNFT sender collectionId itemId itemMetadata recipient = (.ok (), s')) :
    ∃ collection, s.collections.lookup collectionId = some collection ∧
      collection.issuer = sender ∧ collection.items.lookup itemId = none ∧
      s' = (s.modifyAccount recipient (.addItem collectionId itemId)).putCollection collectionId
        (collection.putItem itemId
          { id := itemId, owner := recipient, metadata := itemMetadata }) := by
  unfold mintNFT at h
  split at h
  · simp at h
  · rename_i collection hcollection
    split at h
    · simp at h
    · rename_i hissuer
      split at h
      · simp at h
      · rename_i hfresh
        exact ⟨collection, hcollection, not_not.mp hissuer, by simpa using hfresh,
          (Prod.mk.inj h).2.symm⟩

/-- A successful item transfer changes the registered owner and both accounts' lists. -/
theorem transferNFT_ok {sender receiver collectionId : Bytes} {itemId : UInt64}
    (h : s.transferNFT sender receiver collectionId itemId = (.ok (), s')) :
    ∃ collection item, s.collections.lookup collectionId = some collection ∧
      collection.items.lookup itemId = some item ∧ item.owner = sender ∧
      (s.getAccount sender).isSome ∧
      s' = ((s.modifyAccount sender (.removeItem collectionId itemId)).modifyAccount receiver
          (.addItem collectionId itemId)).putCollection collectionId
        (collection.putItem itemId (item.ownedBy receiver)) := by
  unfold transferNFT at h
  split at h
  · simp at h
  · rename_i collection hcollection
    split at h
    · simp at h
    · rename_i item hitem
      split at h
      · simp at h
      · rename_i howner
        dsimp only at h
        split at h
        · simp at h
        · rename_i account haccount
          have haccount' : s.getAccount sender = some account := haccount
          obtain rfl := accountOrNew_of_getAccount haccount'
          exact ⟨collection, item, hcollection, hitem, not_not.mp howner, by simp [haccount'],
            (Prod.mk.inj h).2.symm⟩

/-- A successful opening moves the deposit into a fresh channel. -/
theorem openChannel_ok {sender partner : Bytes} {amount duration : UInt64}
    (h : s.openChannel crypto sender partner amount duration tx = (.ok (), s')) :
    ∃ channelId, (s.getAccount sender).isSome ∧ amount ≤ (s.accountOrNew sender).balance ∧
      tx.calculateAssetId crypto = some channelId ∧ s.channels.lookup channelId = none ∧
      s' = (s.modifyAccount sender (.debit amount)).putChannel channelId
        { id := channelId, partnerA := sender, partnerB := partner, totalDeposit := amount,
          expiry := duration, isClosed := false } := by
  unfold openChannel at h
  split at h
  · simp at h
  · rename_i account haccount
    split at h
    · simp at h
    · rename_i hfunds
      dsimp only at h
      split at h
      · simp at h
      · rename_i channelId hid
        split at h
        · simp at h
        · rename_i hfresh
          obtain rfl := accountOrNew_of_getAccount haccount
          exact ⟨channelId, by simp [haccount], UInt64.not_lt.mp hfunds, hid,
            by simpa [insertPending] using hfresh, (Prod.mk.inj h).2.symm⟩

/-- A successful closing pays out final balances whose wrapped sum is the deposit. -/
theorem closeChannel_ok {sender channelId : Bytes} {finalBalanceA finalBalanceB : UInt64}
    (h : s.closeChannel sender channelId finalBalanceA finalBalanceB = (.ok (), s')) :
    ∃ channel, s.channels.lookup channelId = some channel ∧ channel.isClosed = false ∧
      (sender = channel.partnerA ∨ sender = channel.partnerB) ∧
      finalBalanceA + finalBalanceB = channel.totalDeposit ∧
      s' = ((s.modifyAccount channel.partnerA (.credit finalBalanceA)).modifyAccount channel.partnerB
          (.credit finalBalanceB)).putChannel channelId channel.closed := by
  unfold closeChannel at h
  split at h
  · simp at h
  · rename_i channel hchannel
    split at h
    · simp at h
    · rename_i hopen
      split at h
      · simp at h
      · rename_i hpartner
        dsimp only at h
        split at h
        · simp at h
        · rename_i hsum
          refine ⟨channel, hchannel, by simpa using hopen, ?_, not_not.mp hsum,
            (Prod.mk.inj h).2.symm⟩
          by_contra hneither
          exact hpartner (not_or.mp hneither)

/-- A failed native transfer changed nothing. -/
theorem transferNative_error {sender receiver : Bytes} {amount : UInt64} {error : String}
    (h : s.transferNative sender receiver amount = (.error error, s')) : s' = s := by
  unfold transferNative at h
  repeat' split at h
  all_goals first | exact (Prod.mk.inj h).2.symm | simp at h

/-- A failed asset creation changed nothing. -/
theorem createAsset_error {issuer : Bytes} {name symbol : String} {supply : UInt64}
    {decimals : UInt8} {metadata : Bytes} {error : String}
    (h : s.createAsset crypto issuer tx name symbol supply decimals metadata = (.error error, s')) :
    s' = s := by
  unfold createAsset at h
  repeat' split at h
  all_goals first | exact (Prod.mk.inj h).2.symm | simp at h

/-- A failed asset transfer changed nothing. -/
theorem transferAsset_error {sender receiver assetId : Bytes} {amount : UInt64} {error : String}
    (h : s.transferAsset sender receiver assetId amount = (.error error, s')) : s' = s := by
  unfold transferAsset at h
  dsimp only at h
  repeat' split at h
  all_goals first | exact (Prod.mk.inj h).2.symm | simp at h

/-- A failed collection creation changed nothing. -/
theorem createCollection_error {issuer : Bytes} {name symbol : String} {metadata : Bytes}
    {error : String}
    (h : s.createCollection crypto issuer tx name symbol metadata = (.error error, s')) : s' = s := by
  unfold createCollection at h
  repeat' split at h
  all_goals first | exact (Prod.mk.inj h).2.symm | simp at h

/-- A failed mint changed nothing. -/
theorem mintNFT_error {sender collectionId itemMetadata recipient : Bytes} {itemId : UInt64}
    {error : String}
    (h : s.mintNFT sender collectionId itemId itemMetadata recipient = (.error error, s')) :
    s' = s := by
  unfold mintNFT at h
  repeat' split at h
  all_goals first | exact (Prod.mk.inj h).2.symm | simp at h

/-- A failed registration changed nothing. -/
theorem deductStake_error {sender : Bytes} {stake : UInt64} {error : String}
    (h : s.deductStake sender stake = (.error error, s')) : s' = s := by
  unfold deductStake at h
  repeat' split at h
  all_goals first | exact (Prod.mk.inj h).2.symm | simp at h

/-- A failed unregistration changed nothing. -/
theorem requireAccount_error {sender : Bytes} {error : String}
    (h : s.requireAccount sender = (.error error, s')) : s' = s := by
  unfold requireAccount at h
  split at h
  · exact (Prod.mk.inj h).2.symm
  · simp at h

/-- A failed item transfer either changed nothing or changed the owner of an item whose owner has
no account. -/
theorem transferNFT_error {sender receiver collectionId : Bytes} {itemId : UInt64} {error : String}
    (h : s.transferNFT sender receiver collectionId itemId = (.error error, s')) :
    s' = s ∨ ∃ collection item, s.collections.lookup collectionId = some collection ∧
      collection.items.lookup itemId = some item ∧ item.owner = sender ∧ s.getAccount sender = none ∧
      s' = s.putCollection collectionId (collection.putItem itemId (item.ownedBy receiver)) := by
  unfold transferNFT at h
  split at h
  · exact .inl (Prod.mk.inj h).2.symm
  · rename_i collection hcollection
    split at h
    · exact .inl (Prod.mk.inj h).2.symm
    · rename_i item hitem
      split at h
      · exact .inl (Prod.mk.inj h).2.symm
      · rename_i howner
        dsimp only at h
        split at h
        · rename_i hnone
          exact .inr ⟨collection, item, hcollection, hitem, not_not.mp howner, hnone,
            (Prod.mk.inj h).2.symm⟩
        · simp at h

/-- A failed opening either changed nothing or debited a deposit for a channel id in use. -/
theorem openChannel_error {sender partner : Bytes} {amount duration : UInt64} {error : String}
    (hdata : tx.data = .openChannel partner amount duration)
    (h : s.openChannel crypto sender partner amount duration tx = (.error error, s')) :
    s' = s ∨ ∃ channelId, (s.getAccount sender).isSome ∧ tx.calculateAssetId crypto = some channelId ∧
      (s.channels.lookup channelId).isSome ∧ amount ≤ (s.accountOrNew sender).balance ∧
      s' = s.modifyAccount sender (.debit amount) := by
  unfold openChannel at h
  split at h
  · exact .inl (Prod.mk.inj h).2.symm
  · rename_i account haccount
    split at h
    · exact .inl (Prod.mk.inj h).2.symm
    · rename_i hfunds
      dsimp only at h
      split at h
      · rename_i hnone
        simp [Transaction.calculateAssetId, hdata] at hnone
      · rename_i channelId hid
        split at h
        · rename_i hcollision
          obtain rfl := accountOrNew_of_getAccount haccount
          exact .inr ⟨channelId, by simp [haccount], hid, hcollision, UInt64.not_lt.mp hfunds,
            (Prod.mk.inj h).2.symm⟩
        · simp at h

/-- A failed closing either changed nothing or marked a channel closed without paying out. -/
theorem closeChannel_error {sender channelId : Bytes} {finalBalanceA finalBalanceB : UInt64}
    {error : String}
    (h : s.closeChannel sender channelId finalBalanceA finalBalanceB = (.error error, s')) :
    s' = s ∨ ∃ channel, s.channels.lookup channelId = some channel ∧ channel.isClosed = false ∧
      (sender = channel.partnerA ∨ sender = channel.partnerB) ∧
      finalBalanceA + finalBalanceB ≠ channel.totalDeposit ∧
      s' = s.putChannel channelId channel.closed := by
  unfold closeChannel at h
  split at h
  · exact .inl (Prod.mk.inj h).2.symm
  · rename_i channel hchannel
    split at h
    · exact .inl (Prod.mk.inj h).2.symm
    · rename_i hopen
      split at h
      · exact .inl (Prod.mk.inj h).2.symm
      · rename_i hpartner
        dsimp only at h
        split at h
        · rename_i hsum
          refine .inr ⟨channel, hchannel, by simpa using hopen, ?_, hsum, (Prod.mk.inj h).2.symm⟩
          by_contra hneither
          exact hpartner (not_or.mp hneither)
        · simp at h

/-- A successful registration takes the stake from the balance. -/
theorem deductStake_ok {sender : Bytes} {stake : UInt64}
    (h : s.deductStake sender stake = (.ok (), s')) :
    (s.getAccount sender).isSome ∧ stake ≤ (s.accountOrNew sender).balance ∧
      s' = s.modifyAccount sender (.debit stake) := by
  unfold deductStake at h
  split at h
  · simp at h
  · rename_i account haccount
    split at h
    · simp at h
    · rename_i hfunds
      obtain rfl := accountOrNew_of_getAccount haccount
      exact ⟨by simp [haccount], UInt64.not_lt.mp hfunds, (Prod.mk.inj h).2.symm⟩

/-- A successful unregistration changes nothing in the state. -/
theorem requireAccount_ok {sender : Bytes} (h : s.requireAccount sender = (.ok (), s')) :
    (s.getAccount sender).isSome ∧ s' = s := by
  unfold requireAccount at h
  split at h
  · simp at h
  · rename_i hsome
    exact ⟨by simpa [Option.isSome_iff_ne_none] using hsome, (Prod.mk.inj h).2.symm⟩

end State

/-- What the arm of a successful transaction did, before the nonce is counted. -/
inductive Effect (crypto : Crypto) (s : State) (tx : Transaction) : State → Prop
  | nativeTransfer {amount : UInt64} (hdata : tx.data = .nativeTransfer amount)
      (hne : tx.sender ≠ tx.receiver) (hsender : (s.getAccount tx.sender).isSome)
      (hfunds : amount ≤ (s.accountOrNew tx.sender).balance) :
      Effect crypto s tx ((s.modifyAccount tx.sender (.debit amount)).modifyAccount tx.receiver
        (.credit amount))
  | createAsset {name symbol : String} {supply : UInt64} {decimals : UInt8} {metadata assetId : Bytes}
      (hdata : tx.data = .createAsset name symbol supply decimals metadata)
      (hid : tx.calculateAssetId crypto = some assetId) (hfresh : s.assets.lookup assetId = none) :
      Effect crypto s tx
        ((s.modifyAccount tx.sender (.setAsset assetId supply)).putAsset assetId
          { id := assetId, issuer := tx.sender, name, symbol, totalSupply := supply, decimals,
            metadata })
  | transferAsset {assetId : Bytes} {amount : UInt64} (hdata : tx.data = .transferAsset assetId amount)
      (hasset : (s.assets.lookup assetId).isSome) (hsender : (s.getAccount tx.sender).isSome)
      (hfunds : amount ≤ (s.accountOrNew tx.sender).assetBalance assetId) :
      Effect crypto s tx ((s.modifyAccount tx.sender
          (fun account => account.setAsset assetId (account.assetBalance assetId - amount))).modifyAccount
        tx.receiver (fun account => account.setAsset assetId (account.assetBalance assetId + amount)))
  | createCollection {name symbol : String} {metadata collectionId : Bytes}
      (hdata : tx.data = .createCollection name symbol metadata)
      (hid : tx.calculateAssetId crypto = some collectionId)
      (hfresh : s.collections.lookup collectionId = none) :
      Effect crypto s tx
        (s.putCollection collectionId
          { id := collectionId, issuer := tx.sender, name, symbol, metadata, items := ∅ })
  | mintNFT {collectionId itemMetadata recipient : Bytes} {itemId : UInt64} {collection : Collection}
      (hdata : tx.data = .mintNFT collectionId itemId itemMetadata recipient)
      (hcollection : s.collections.lookup collectionId = some collection)
      (hissuer : collection.issuer = tx.sender) (hfresh : collection.items.lookup itemId = none) :
      Effect crypto s tx
        ((s.modifyAccount recipient (.addItem collectionId itemId)).putCollection collectionId
          (collection.putItem itemId
            { id := itemId, owner := recipient, metadata := itemMetadata }))
  | transferNFT {collectionId : Bytes} {itemId : UInt64} {collection : Collection} {item : NFTItem}
      (hdata : tx.data = .transferNFT collectionId itemId)
      (hcollection : s.collections.lookup collectionId = some collection)
      (hitem : collection.items.lookup itemId = some item) (howner : item.owner = tx.sender)
      (hsender : (s.getAccount tx.sender).isSome) :
      Effect crypto s tx
        (((s.modifyAccount tx.sender (.removeItem collectionId itemId)).modifyAccount tx.receiver
            (.addItem collectionId itemId)).putCollection collectionId
          (collection.putItem itemId (item.ownedBy tx.receiver)))
  | openChannel {partner channelId : Bytes} {amount duration : UInt64}
      (hdata : tx.data = .openChannel partner amount duration)
      (hsender : (s.getAccount tx.sender).isSome)
      (hfunds : amount ≤ (s.accountOrNew tx.sender).balance)
      (hid : tx.calculateAssetId crypto = some channelId)
      (hfresh : s.channels.lookup channelId = none) :
      Effect crypto s tx
        ((s.modifyAccount tx.sender (.debit amount)).putChannel channelId
          { id := channelId, partnerA := tx.sender, partnerB := partner, totalDeposit := amount,
            expiry := duration, isClosed := false })
  | closeChannel {channelId balanceProof : Bytes} {finalBalanceA finalBalanceB : UInt64}
      {channel : PaymentChannel}
      (hdata : tx.data = .closeChannel channelId balanceProof finalBalanceA finalBalanceB)
      (hchannel : s.channels.lookup channelId = some channel) (hopen : channel.isClosed = false)
      (hpartner : tx.sender = channel.partnerA ∨ tx.sender = channel.partnerB)
      (hsum : finalBalanceA + finalBalanceB = channel.totalDeposit) :
      Effect crypto s tx
        (((s.modifyAccount channel.partnerA (.credit finalBalanceA)).modifyAccount channel.partnerB
            (.credit finalBalanceB)).putChannel channelId channel.closed)
  | delegateSpend {delegate : Bytes} {allowance expiry : UInt64}
      (hdata : tx.data = .delegateSpend delegate allowance expiry) :
      Effect crypto s tx (s.modifyAccount tx.sender (.setAllowance delegate allowance))
  | registerValidator {stake : UInt64} (hdata : tx.data = .registerValidator stake)
      (hsender : (s.getAccount tx.sender).isSome)
      (hfunds : stake ≤ (s.accountOrNew tx.sender).balance) :
      Effect crypto s tx (s.modifyAccount tx.sender (.debit stake))
  | unregisterValidator (hdata : tx.data = .unregisterValidator)
      (hsender : (s.getAccount tx.sender).isSome) : Effect crypto s tx s

/-- What a failed transaction leaves behind. Three error exits come after a write. -/
inductive Residue (crypto : Crypto) (s : State) (tx : Transaction) : State → Prop
  | unchanged : Residue crypto s tx s
  | debited {partner channelId : Bytes} {amount duration : UInt64}
      (hdata : tx.data = .openChannel partner amount duration)
      (hid : tx.calculateAssetId crypto = some channelId)
      (hcollision : (s.channels.lookup channelId).isSome)
      (hfunds : amount ≤ (s.accountOrNew tx.sender).balance) :
      Residue crypto s tx (s.modifyAccount tx.sender (.debit amount))
  | markedClosed {channelId balanceProof : Bytes} {finalBalanceA finalBalanceB : UInt64}
      {channel : PaymentChannel}
      (hdata : tx.data = .closeChannel channelId balanceProof finalBalanceA finalBalanceB)
      (hchannel : s.channels.lookup channelId = some channel) (hopen : channel.isClosed = false)
      (hpartner : tx.sender = channel.partnerA ∨ tx.sender = channel.partnerB)
      (hsum : finalBalanceA + finalBalanceB ≠ channel.totalDeposit) :
      Residue crypto s tx
        (s.putChannel channelId channel.closed)
  | ownerChanged {collectionId : Bytes} {itemId : UInt64} {collection : Collection} {item : NFTItem}
      (hdata : tx.data = .transferNFT collectionId itemId)
      (hcollection : s.collections.lookup collectionId = some collection)
      (hitem : collection.items.lookup itemId = some item) (howner : item.owner = tx.sender)
      (hsender : s.getAccount tx.sender = none) :
      Residue crypto s tx
        (s.putCollection collectionId (collection.putItem itemId (item.ownedBy tx.receiver)))

namespace State

variable {crypto : Crypto} {s s' : State} {tx : Transaction}

/-- A successful arm has the effect of its kind. -/
theorem effect_of_processData (h : s.processData crypto tx = (.ok (), s')) : Effect crypto s tx s' := by
  unfold processData at h
  split at h
  case h_1 amount hdata =>
    obtain ⟨hne, hsender, hfunds, rfl⟩ := transferNative_ok h
    exact .nativeTransfer hdata hne hsender hfunds
  case h_2 name symbol supply decimals metadata hdata =>
    obtain ⟨assetId, hid, hfresh, rfl⟩ := createAsset_ok h
    exact .createAsset hdata hid hfresh
  case h_3 assetId amount hdata =>
    obtain ⟨hasset, hsender, hfunds, rfl⟩ := transferAsset_ok h
    exact .transferAsset hdata hasset hsender hfunds
  case h_4 name symbol metadata hdata =>
    obtain ⟨collectionId, hid, hfresh, rfl⟩ := createCollection_ok h
    exact .createCollection hdata hid hfresh
  case h_5 collectionId itemId itemMetadata recipient hdata =>
    obtain ⟨collection, hcollection, hissuer, hfresh, rfl⟩ := mintNFT_ok h
    exact .mintNFT hdata hcollection hissuer hfresh
  case h_6 collectionId itemId hdata =>
    obtain ⟨collection, item, hcollection, hitem, howner, hsender, rfl⟩ := transferNFT_ok h
    exact .transferNFT hdata hcollection hitem howner hsender
  case h_7 partner amount duration hdata =>
    obtain ⟨channelId, hsender, hfunds, hid, hfresh, rfl⟩ := openChannel_ok h
    exact .openChannel hdata hsender hfunds hid hfresh
  case h_8 channelId balanceProof finalBalanceA finalBalanceB hdata =>
    obtain ⟨channel, hchannel, hopen, hpartner, hsum, rfl⟩ := closeChannel_ok h
    exact .closeChannel hdata hchannel hopen hpartner hsum
  case h_9 delegate allowance expiry hdata =>
    rw [← (Prod.mk.inj h).2]
    exact .delegateSpend hdata
  case h_10 stake hdata =>
    obtain ⟨hsender, hfunds, rfl⟩ := deductStake_ok h
    exact .registerValidator hdata hsender hfunds
  case h_11 hdata =>
    obtain ⟨hsender, rfl⟩ := requireAccount_ok h
    exact .unregisterValidator hdata hsender

/-- A successful transaction carried the sender's nonce, had the effect of its kind, and
counted itself in the sender's nonce. -/
theorem applyTransaction_ok (h : s.applyTransaction crypto tx = (.ok (), s')) :
    tx.nonce = s.getNonce tx.sender ∧
      ∃ s₁, Effect crypto s tx s₁ ∧ s' = s₁.modifyAccount tx.sender .bumpNonce := by
  unfold applyTransaction at h
  split at h
  · simp at h
  · rename_i hnonce
    split at h
    · simp at h
    · rename_i s₁ heffect
      exact ⟨not_not.mp hnonce, s₁, effect_of_processData heffect, (Prod.mk.inj h).2.symm⟩

/-- A failed arm leaves one of the residues. -/
theorem residue_of_processData {error : String} (h : s.processData crypto tx = (.error error, s')) :
    Residue crypto s tx s' := by
  unfold processData at h
  split at h
  case h_6 collectionId itemId hdata =>
    obtain rfl | ⟨collection, item, hcollection, hitem, howner, hnone, rfl⟩ := transferNFT_error h
    · exact .unchanged
    · exact .ownerChanged hdata hcollection hitem howner hnone
  case h_7 partner amount duration hdata =>
    obtain rfl | ⟨channelId, -, hid, hcollision, hfunds, rfl⟩ := openChannel_error hdata h
    · exact .unchanged
    · exact .debited hdata hid hcollision hfunds
  case h_8 channelId balanceProof finalBalanceA finalBalanceB hdata =>
    obtain rfl | ⟨channel, hchannel, hopen, hpartner, hsum, rfl⟩ := closeChannel_error h
    · exact .unchanged
    · exact .markedClosed hdata hchannel hopen hpartner hsum
  -- every other error exit comes before the first write
  case h_1 => rw [transferNative_error h]; exact .unchanged
  case h_2 => rw [createAsset_error h]; exact .unchanged
  case h_3 => rw [transferAsset_error h]; exact .unchanged
  case h_4 => rw [createCollection_error h]; exact .unchanged
  case h_5 => rw [mintNFT_error h]; exact .unchanged
  case h_9 => simp [delegateSpend] at h
  case h_10 => rw [deductStake_error h]; exact .unchanged
  case h_11 => rw [requireAccount_error h]; exact .unchanged

/-- A failed transaction leaves one of the residues. -/
theorem applyTransaction_error {error : String} (h : s.applyTransaction crypto tx = (.error error, s')) :
    Residue crypto s tx s' := by
  unfold applyTransaction at h
  split at h
  · rw [← (Prod.mk.inj h).2]
    exact .unchanged
  · split at h
    · rename_i hprocess
      obtain rfl := (Prod.mk.inj h).2
      exact residue_of_processData hprocess
    · simp at h

/-- Any transaction, successful or not, ends in an effect with the nonce counted or in a residue. -/
theorem applyTransaction_cases (crypto : Crypto) (s : State) (tx : Transaction) :
    (∃ s₁, Effect crypto s tx s₁ ∧
      (s.applyTransaction crypto tx).2 = s₁.modifyAccount tx.sender .bumpNonce) ∨
    Residue crypto s tx (s.applyTransaction crypto tx).2 := by
  rcases h : s.applyTransaction crypto tx with ⟨error | ⟨⟨⟩⟩, s'⟩
  · exact .inr (applyTransaction_error h)
  · exact .inl (applyTransaction_ok h).2

/-- No arm of a transaction writes to the database or to the trie. -/
theorem storage_of_effect (h : Effect crypto s tx s') :
    s'.storage = s.storage ∧ s'.trie = s.trie := by
  cases h <;> exact ⟨rfl, rfl⟩

/-- Neither does a failing arm. -/
theorem storage_of_residue (h : Residue crypto s tx s') :
    s'.storage = s.storage ∧ s'.trie = s.trie := by
  cases h <;> exact ⟨rfl, rfl⟩

/-- A transaction of any outcome writes neither to the database nor to the trie. -/
theorem storage_applyTransaction (crypto : Crypto) (s : State) (tx : Transaction) :
    (s.applyTransaction crypto tx).2.storage = s.storage ∧
      (s.applyTransaction crypto tx).2.trie = s.trie := by
  rcases s.applyTransaction_cases crypto tx with ⟨s₁, heffect, hpost⟩ | hresidue
  · rw [hpost, storage_modifyAccount, trie_modifyAccount]
    exact storage_of_effect heffect
  · exact storage_of_residue hresidue

end State

end Nocostcoin
