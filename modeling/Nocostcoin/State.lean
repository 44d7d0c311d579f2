import Nocostcoin.Storage

/-!
# The ledger state

`state.rs`: accounts as an overlay of pending changes over the stored ones, the trie of the
committed accounts, and the registries of assets, collections and channels. A method that
returns `Result<(), String>` on `&mut self` returns the result beside the state it leaves:
on an error the writes made before it stay.
-/

namespace Nocostcoin

/-- `State`. The registries live in memory only. -/
structure State where
  storage : Storage
  pendingChanges : FiniteMap Bytes Account
  trie : MerklePatriciaTrie
  assets : FiniteMap Bytes Asset
  collections : FiniteMap Bytes Collection
  channels : FiniteMap Bytes PaymentChannel

/-- The result of a fallible method and the state after it. -/
abbrev Outcome (σ : Type) := Except String Unit × σ

namespace State

/-- `State::new`: the trie is rebuilt from the stored accounts, the registries start empty. -/
def new (crypto : Crypto) (host : Host) (storage : Storage) : Option State := do
  let trie ← storage.getAllAccounts.foldlM
    (fun trie entry => trie.insert crypto entry.1 (host.encode entry.2)) MerklePatriciaTrie.new
  some { storage, pendingChanges := ∅, trie, assets := ∅, collections := ∅, channels := ∅ }

/-- The state over an empty database. -/
def empty : State :=
  { storage := .empty, pendingChanges := ∅, trie := .new, assets := ∅, collections := ∅,
    channels := ∅ }

/-- A node on an empty database starts in the empty state. -/
theorem new_empty (crypto : Crypto) (host : Host) : new crypto host .empty = some empty := rfl

/-- `get_account`: the pending account, else the stored one. -/
def getAccount (state : State) (address : Bytes) : Option Account :=
  match state.pendingChanges.lookup address with
  | some account => some account
  | none => state.storage.getAccount address

/-- `get_balance`. -/
def getBalance (state : State) (address : Bytes) : UInt64 :=
  ((state.getAccount address).map Account.balance).getD 0

/-- `get_nonce`. -/
def getNonce (state : State) (address : Bytes) : UInt64 :=
  ((state.getAccount address).map Account.nonce).getD 0

/-- `get_account(..).unwrap_or(Account::new(0))`. -/
def accountOrNew (state : State) (address : Bytes) : Account :=
  (state.getAccount address).getD (Account.new 0)

/-- `pending_changes.insert`. -/
def insertPending (state : State) (address : Bytes) (account : Account) : State :=
  { state with pendingChanges := state.pendingChanges.insert address account }

/-- `set_balance`. -/
def setBalance (state : State) (address : Bytes) (balance : UInt64) : State :=
  state.insertPending address { state.accountOrNew address with balance }

/-- `transfer_native`. -/
def transferNative (state : State) (sender receiver : Bytes) (amount : UInt64) : Outcome State :=
  if sender = receiver then (.error "Cannot send tokens to yourself", state) else
  match state.getAccount sender with
  | none => (.error "Sender account not found", state)
  | some fromAccount =>
    if fromAccount.balance < amount then (.error "Insufficient native balance", state) else
    let state := state.insertPending sender { fromAccount with balance := fromAccount.balance - amount }
    let toAccount := state.accountOrNew receiver
    (.ok (), state.insertPending receiver { toAccount with balance := toAccount.balance + amount })

/-- `create_asset`. -/
def createAsset (crypto : Crypto) (state : State) (issuer : Bytes) (tx : Transaction)
    (name symbol : String) (supply : UInt64) (decimals : UInt8) (metadata : Bytes) : Outcome State :=
  match tx.calculateAssetId crypto with
  | none => (.error "Failed to calculate asset ID", state)
  | some assetId =>
    if (state.assets.lookup assetId).isSome then (.error "Asset already exists", state) else
    let asset : Asset := { id := assetId, issuer, name, symbol, totalSupply := supply, decimals, metadata }
    let issuerAccount := state.accountOrNew issuer
    let state := state.insertPending issuer
      { issuerAccount with assets := issuerAccount.assets.insert assetId supply }
    (.ok (), { state with assets := state.assets.insert assetId asset })

/-- `transfer_asset`. -/
def transferAsset (state : State) (sender receiver assetId : Bytes) (amount : UInt64) : Outcome State :=
  if (state.assets.lookup assetId).isNone then (.error "Asset does not exist", state) else
  match state.getAccount sender with
  | none => (.error "Sender account not found", state)
  | some fromAccount =>
    let balance := (fromAccount.assets.lookup assetId).getD 0
    if balance < amount then (.error "Insufficient asset balance", state) else
    let state := state.insertPending sender
      { fromAccount with assets := fromAccount.assets.insert assetId (balance - amount) }
    let toAccount := state.accountOrNew receiver
    let toBalance := (toAccount.assets.lookup assetId).getD 0
    (.ok (), state.insertPending receiver
      { toAccount with assets := toAccount.assets.insert assetId (toBalance + amount) })

/-- `create_collection`. -/
def createCollection (crypto : Crypto) (state : State) (issuer : Bytes) (tx : Transaction)
    (name symbol : String) (metadata : Bytes) : Outcome State :=
  match tx.calculateAssetId crypto with
  | none => (.error "Failed to calc ID", state)
  | some collectionId =>
    if (state.collections.lookup collectionId).isSome then (.error "Collection already exists", state)
    else
      let collection : Collection := { id := collectionId, issuer, name, symbol, metadata, items := ∅ }
      (.ok (), { state with collections := state.collections.insert collectionId collection })

/-- `mint_nft`. -/
def mintNFT (state : State) (sender collectionId : Bytes) (itemId : UInt64)
    (itemMetadata recipient : Bytes) : Outcome State :=
  match state.collections.lookup collectionId with
  | none => (.error "Collection not found", state)
  | some collection =>
    if collection.issuer ≠ sender then (.error "Only issuer can mint", state)
    else if (collection.items.lookup itemId).isSome then (.error "Item ID already exists", state)
    else
      let item : NFTItem := { id := itemId, owner := recipient, metadata := itemMetadata }
      let collection := { collection with items := collection.items.insert itemId item }
      let state := { state with collections := state.collections.insert collectionId collection }
      let recipientAccount := state.accountOrNew recipient
      let myNfts := (recipientAccount.nfts.lookup collectionId).getD []
      (.ok (), state.insertPending recipient
        { recipientAccount with nfts := recipientAccount.nfts.insert collectionId (myNfts ++ [itemId]) })

/-- `transfer_nft`. The registry's owner is changed before the sender's account is read. -/
def transferNFT (state : State) (sender receiver collectionId : Bytes) (itemId : UInt64) : Outcome State :=
  match state.collections.lookup collectionId with
  | none => (.error "Collection not found", state)
  | some collection =>
    match collection.items.lookup itemId with
    | none => (.error "Item not found", state)
    | some item =>
      if item.owner ≠ sender then (.error "Sender does not own this NFT", state) else
      let item := { item with owner := receiver }
      let collection := { collection with items := collection.items.insert itemId item }
      let state := { state with collections := state.collections.insert collectionId collection }
      match state.getAccount sender with
      | none => (.error "Sender account not found", state)
      | some fromAccount =>
        let fromAccount := match fromAccount.nfts.lookup collectionId with
          | none => fromAccount
          | some nfts => { fromAccount with
              nfts := fromAccount.nfts.insert collectionId (nfts.filter fun x => x ≠ itemId) }
        let state := state.insertPending sender fromAccount
        let toAccount := state.accountOrNew receiver
        let destNfts := (toAccount.nfts.lookup collectionId).getD []
        (.ok (), state.insertPending receiver
          { toAccount with nfts := toAccount.nfts.insert collectionId (destNfts ++ [itemId]) })

/-- `open_channel`. The deposit is deducted before the id is computed and checked. -/
def openChannel (crypto : Crypto) (state : State) (sender partner : Bytes) (amount duration : UInt64)
    (tx : Transaction) : Outcome State :=
  match state.getAccount sender with
  | none => (.error "Sender account not found", state)
  | some senderAccount =>
    if senderAccount.balance < amount then (.error "Insufficient balance for channel deposit", state)
    else
      let state := state.insertPending sender
        { senderAccount with balance := senderAccount.balance - amount }
      match tx.calculateAssetId crypto with
      | none => (.error "Failed to calc Channel ID", state)
      | some channelId =>
        if (state.channels.lookup channelId).isSome then (.error "Channel ID collision", state)
        else
          let channel : PaymentChannel :=
            { id := channelId, partnerA := sender, partnerB := partner, totalDeposit := amount,
              expiry := duration, isClosed := false }
          (.ok (), { state with channels := state.channels.insert channelId channel })

/-- `close_channel`. The channel is marked closed before the final balances are checked, and
their sum wraps modulo `2 ^ 64`. -/
def closeChannel (state : State) (sender channelId : Bytes) (finalBalanceA finalBalanceB : UInt64) :
    Outcome State :=
  match state.channels.lookup channelId with
  | none => (.error "Channel not found", state)
  | some channel =>
    if channel.isClosed then (.error "Channel already closed", state)
    else if sender ≠ channel.partnerA ∧ sender ≠ channel.partnerB then
      (.error "Not authorized to close channel", state)
    else
      let state :=
        { state with channels := state.channels.insert channelId { channel with isClosed := true } }
      if finalBalanceA + finalBalanceB ≠ channel.totalDeposit then
        (.error "Balance mismatch: total does not match deposit", state)
      else
        let accountA := state.accountOrNew channel.partnerA
        let state := state.insertPending channel.partnerA
          { accountA with balance := accountA.balance + finalBalanceA }
        let accountB := state.accountOrNew channel.partnerB
        (.ok (), state.insertPending channel.partnerB
          { accountB with balance := accountB.balance + finalBalanceB })

/-- `delegate_spend`. -/
def delegateSpend (state : State) (owner delegate : Bytes) (allowance : UInt64) : Outcome State :=
  let ownerAccount := state.accountOrNew owner
  (.ok (), state.insertPending owner
    { ownerAccount with delegatedAllowance := ownerAccount.delegatedAllowance.insert delegate allowance })

/-- The `RegisterValidator` arm: the stake leaves the balance, `Chain` registers it later. -/
def deductStake (state : State) (sender : Bytes) (stake : UInt64) : Outcome State :=
  match state.getAccount sender with
  | none => (.error "Account not found", state)
  | some account =>
    if account.balance < stake then (.error "Insufficient balance for stake", state)
    else (.ok (), state.insertPending sender { account with balance := account.balance - stake })

/-- The `UnregisterValidator` arm: only the account's existence is checked here. -/
def requireAccount (state : State) (sender : Bytes) : Outcome State :=
  if (state.getAccount sender).isNone then (.error "Account not found", state) else (.ok (), state)

/-- Step 2 of `apply_transaction`: the arm of the transaction's kind. -/
def processData (crypto : Crypto) (state : State) (tx : Transaction) : Outcome State :=
  match tx.data with
  | .nativeTransfer amount => state.transferNative tx.sender tx.receiver amount
  | .createAsset name symbol supply decimals metadata =>
      state.createAsset crypto tx.sender tx name symbol supply decimals metadata
  | .transferAsset assetId amount => state.transferAsset tx.sender tx.receiver assetId amount
  | .createCollection name symbol metadata =>
      state.createCollection crypto tx.sender tx name symbol metadata
  | .mintNFT collectionId itemId itemMetadata recipient =>
      state.mintNFT tx.sender collectionId itemId itemMetadata recipient
  | .transferNFT collectionId itemId => state.transferNFT tx.sender tx.receiver collectionId itemId
  | .openChannel partner amount duration => state.openChannel crypto tx.sender partner amount duration tx
  | .closeChannel channelId _ finalBalanceA finalBalanceB =>
      state.closeChannel tx.sender channelId finalBalanceA finalBalanceB
  | .delegateSpend delegate allowance _ => state.delegateSpend tx.sender delegate allowance
  | .registerValidator stake => state.deductStake tx.sender stake
  | .unregisterValidator => state.requireAccount tx.sender

/-- `increment_nonce`. -/
def incrementNonce (state : State) (address : Bytes) : State :=
  let account := state.accountOrNew address
  state.insertPending address { account with nonce := account.nonce + 1 }

/-- `apply_transaction`: nonce check, the kind's own effect, then the nonce. -/
def applyTransaction (crypto : Crypto) (state : State) (tx : Transaction) : Outcome State :=
  if tx.nonce ≠ state.getNonce tx.sender then
    (.error s!"Invalid nonce. Expected {state.getNonce tx.sender}, got {tx.nonce}", state)
  else
    match state.processData crypto tx with
    | (.error error, state) => (.error error, state)
    | (.ok (), state) => (.ok (), state.incrementNonce tx.sender)

/-- The loop of `apply_changes` over the addresses still to walk. A refused write ends it with
the earlier ones made; a trie that panics ends the call without a result. -/
def storeChanges (crypto : Crypto) (host : Host) : List Bytes → State → Option (Outcome State)
  | [], state => some (.ok (), state)
  | address :: rest, state =>
    match state.pendingChanges.lookup address with
    | none => storeChanges crypto host rest state
    | some account =>
      match state.storage.storeAccount host.disk address account with
      | (.error error, storage) =>
          some (.error ("Failed to store account: " ++ error), { state with storage })
      | (.ok (), storage) => do
          let trie ← state.trie.insert crypto address (host.encode account)
          storeChanges crypto host rest { state with storage, trie }

/-- `apply_changes`: store every pending account, then clear the overlay. -/
def applyChanges (crypto : Crypto) (host : Host) (state : State) : Option (Outcome State) := do
  match ← storeChanges crypto host (host.order state.pendingChanges.keys) state with
  | (.error error, state) => some (.error error, state)
  | (.ok (), state) => some (.ok (), { state with pendingChanges := ∅ })

/-- `discard_changes`: only the accounts are rolled back. -/
def discardChanges (state : State) : State := { state with pendingChanges := ∅ }

/-- `get_root_hash`: the root over the committed accounts. -/
def getRootHash (state : State) : String := state.trie.rootHash

end State

end Nocostcoin
