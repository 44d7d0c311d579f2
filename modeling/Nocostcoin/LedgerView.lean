import Nocostcoin.Ledger
import Nocostcoin.Chain

/-!
# The ledger apart from its storage

A `Ledger` is what accounts, assets, collections and channels hold, wherever the accounts are
kept. Executing transactions on a state does to its ledger what executing them on the bare ledger
does: neither the results nor the holdings depend on the split between overlay and database.
-/

namespace Nocostcoin

/-- The holdings that a state answers for. -/
structure Ledger where
  accounts : FiniteMap Bytes Account
  assets : FiniteMap Bytes Asset
  collections : FiniteMap Bytes Collection
  channels : FiniteMap Bytes PaymentChannel
  deriving DecidableEq

namespace State

variable {crypto : Crypto}

/-- The ledger of a state. -/
def ledger (state : State) : Ledger :=
  { accounts := state.accounts, assets := state.assets, collections := state.collections,
    channels := state.channels }

/-- The state with its whole account table in the overlay, over an empty database. -/
def flat (state : State) : State :=
  { empty with
    pendingChanges := state.accounts
    assets := state.assets
    collections := state.collections
    channels := state.channels }

/-- Flattening keeps the ledger. -/
@[simp] theorem ledger_flat (state : State) : state.flat.ledger = state.ledger := by
  have haccounts : state.flat.accounts = state.accounts := Finmap.union_empty
  unfold ledger
  rw [haccounts]
  rfl

@[simp] theorem getAccount_flat (state : State) (address : Bytes) :
    state.flat.getAccount address = state.getAccount address := by
  rw [getAccount_eq_lookup, getAccount_eq_lookup]
  exact congrArg (fun l : Ledger => l.accounts.lookup address) (ledger_flat state)

@[simp] theorem accountOrNew_flat (state : State) (address : Bytes) :
    state.flat.accountOrNew address = state.accountOrNew address := by
  rw [accountOrNew, getAccount_flat, accountOrNew]

@[simp] theorem getNonce_flat (state : State) (address : Bytes) :
    state.flat.getNonce address = state.getNonce address := by
  rw [getNonce_eq, getNonce_eq, accountOrNew_flat]

/-- A pending write commutes with flattening. -/
@[simp] theorem insertPending_flat (state : State) (address : Bytes) (account : Account) :
    state.flat.insertPending address account = (state.insertPending address account).flat := by
  unfold flat
  rw [accounts_insertPending]
  rfl

@[simp] theorem assets_flat (state : State) : state.flat.assets = state.assets := rfl

@[simp] theorem collections_flat (state : State) : state.flat.collections = state.collections := rfl

@[simp] theorem channels_flat (state : State) : state.flat.channels = state.channels := rfl

/-- Moving the data of a state in a way that its methods cannot tell: reads answer alike, and writes
commute with the move. -/
structure Unseen (move : State → State) : Prop where
  getAccount : ∀ state address, (move state).getAccount address = state.getAccount address
  insertPending : ∀ state address account,
    (move state).insertPending address account = move (state.insertPending address account)
  assets : ∀ state, (move state).assets = state.assets
  collections : ∀ state, (move state).collections = state.collections
  channels : ∀ state, (move state).channels = state.channels
  with_assets : ∀ (state : State) (assets : FiniteMap Bytes Asset),
    { move state with assets } = move { state with assets }
  with_collections : ∀ (state : State) (collections : FiniteMap Bytes Collection),
    { move state with collections } = move { state with collections }
  with_channels : ∀ (state : State) (channels : FiniteMap Bytes PaymentChannel),
    { move state with channels } = move { state with channels }

/-- Flattening goes unseen. -/
theorem unseen_flat : Unseen flat where
  getAccount := getAccount_flat
  insertPending := insertPending_flat
  assets _ := rfl
  collections _ := rfl
  channels _ := rfl
  with_assets _ _ := rfl
  with_collections _ _ := rfl
  with_channels _ _ := rfl

/-- The state over other records beside the accounts. -/
def withRecords (records : Storage) (state : State) : State :=
  { state with storage := { records with accounts := state.storage.accounts } }

/-- Other records beside the accounts go unseen. -/
theorem unseen_withRecords (records : Storage) : Unseen (withRecords records) where
  getAccount _ _ := rfl
  insertPending _ _ _ := rfl
  assets _ := rfl
  collections _ := rfl
  channels _ := rfl
  with_assets _ _ := rfl
  with_collections _ _ := rfl
  with_channels _ _ := rfl

/-- The result of a method with its state moved. -/
def movedOutcome (move : State → State) (outcome : Outcome State) : Outcome State :=
  (outcome.1, move outcome.2)

/-- The result of a method with its state flattened. -/
def flatOutcome (outcome : Outcome State) : Outcome State := (outcome.1, outcome.2.flat)

namespace Unseen

variable {move : State → State} (hmove : Unseen move)

include hmove

theorem accountOrNew (state : State) (address : Bytes) :
    (move state).accountOrNew address = state.accountOrNew address := by
  rw [State.accountOrNew, hmove.getAccount, State.accountOrNew]

theorem getNonce (state : State) (address : Bytes) :
    (move state).getNonce address = state.getNonce address := by
  rw [getNonce_eq, getNonce_eq, hmove.accountOrNew]

/-- An arm that reads and writes the moved state as it does the state has moved outcomes. -/
theorem transferNative (state : State) (sender receiver : Bytes) (amount : UInt64) :
    (move state).transferNative sender receiver amount =
      movedOutcome move (state.transferNative sender receiver amount) := by
  unfold State.transferNative
  simp only [hmove.getAccount, hmove.insertPending, hmove.accountOrNew]
  split
  · rfl
  · split
    · rfl
    · split <;> rfl

theorem createAsset (state : State) (issuer : Bytes) (tx : Transaction) (name symbol : String)
    (supply : UInt64) (decimals : UInt8) (metadata : Bytes) :
    (move state).createAsset crypto issuer tx name symbol supply decimals metadata =
      movedOutcome move (state.createAsset crypto issuer tx name symbol supply decimals metadata) := by
  unfold State.createAsset
  simp only [hmove.assets, hmove.insertPending, hmove.accountOrNew, hmove.with_assets]
  split
  · rfl
  · split <;> rfl

theorem transferAsset (state : State) (sender receiver assetId : Bytes) (amount : UInt64) :
    (move state).transferAsset sender receiver assetId amount =
      movedOutcome move (state.transferAsset sender receiver assetId amount) := by
  unfold State.transferAsset
  simp only [hmove.assets, hmove.getAccount, hmove.insertPending, hmove.accountOrNew]
  split
  · rfl
  · split
    · rfl
    · split <;> rfl

theorem createCollection (state : State) (issuer : Bytes) (tx : Transaction)
    (name symbol : String) (metadata : Bytes) :
    (move state).createCollection crypto issuer tx name symbol metadata =
      movedOutcome move (state.createCollection crypto issuer tx name symbol metadata) := by
  unfold State.createCollection
  simp only [hmove.collections, hmove.with_collections]
  split
  · rfl
  · split <;> rfl

theorem mintNFT (state : State) (sender collectionId : Bytes) (itemId : UInt64)
    (itemMetadata recipient : Bytes) :
    (move state).mintNFT sender collectionId itemId itemMetadata recipient =
      movedOutcome move (state.mintNFT sender collectionId itemId itemMetadata recipient) := by
  unfold State.mintNFT
  simp only [hmove.collections, hmove.with_collections, hmove.insertPending, hmove.accountOrNew]
  split
  · rfl
  · split
    · rfl
    · split <;> rfl

theorem transferNFT (state : State) (sender receiver collectionId : Bytes) (itemId : UInt64) :
    (move state).transferNFT sender receiver collectionId itemId =
      movedOutcome move (state.transferNFT sender receiver collectionId itemId) := by
  unfold State.transferNFT
  simp only [hmove.collections, hmove.with_collections, hmove.getAccount, hmove.insertPending,
    hmove.accountOrNew]
  split
  · rfl
  · split
    · rfl
    · split
      · rfl
      · split <;> rfl

theorem openChannel (state : State) (sender partner : Bytes) (amount duration : UInt64)
    (tx : Transaction) :
    (move state).openChannel crypto sender partner amount duration tx =
      movedOutcome move (state.openChannel crypto sender partner amount duration tx) := by
  unfold State.openChannel
  simp only [hmove.getAccount, hmove.insertPending, hmove.channels, hmove.with_channels]
  split
  · rfl
  · split
    · rfl
    · split
      · rfl
      · split <;> rfl

theorem closeChannel (state : State) (sender channelId : Bytes)
    (finalBalanceA finalBalanceB : UInt64) :
    (move state).closeChannel sender channelId finalBalanceA finalBalanceB =
      movedOutcome move (state.closeChannel sender channelId finalBalanceA finalBalanceB) := by
  unfold State.closeChannel
  simp only [hmove.channels, hmove.with_channels, hmove.insertPending, hmove.accountOrNew]
  split
  · rfl
  · split
    · rfl
    · split
      · rfl
      · split <;> rfl

theorem deductStake (state : State) (sender : Bytes) (stake : UInt64) :
    (move state).deductStake sender stake = movedOutcome move (state.deductStake sender stake) := by
  unfold State.deductStake
  simp only [hmove.getAccount, hmove.insertPending]
  split
  · rfl
  · split <;> rfl

theorem requireAccount (state : State) (sender : Bytes) :
    (move state).requireAccount sender = movedOutcome move (state.requireAccount sender) := by
  unfold State.requireAccount
  simp only [hmove.getAccount]
  split <;> rfl

theorem delegateSpend (state : State) (owner delegate : Bytes) (allowance : UInt64) :
    (move state).delegateSpend owner delegate allowance =
      movedOutcome move (state.delegateSpend owner delegate allowance) := by
  unfold State.delegateSpend
  simp only [hmove.insertPending, hmove.accountOrNew]
  rfl

/-- Every arm does to the moved state what it does to the state. -/
theorem processData (crypto : Crypto) (state : State) (tx : Transaction) :
    (move state).processData crypto tx = movedOutcome move (state.processData crypto tx) := by
  unfold State.processData
  cases tx.data with
  | nativeTransfer => exact hmove.transferNative ..
  | createAsset => exact hmove.createAsset ..
  | transferAsset => exact hmove.transferAsset ..
  | createCollection => exact hmove.createCollection ..
  | mintNFT => exact hmove.mintNFT ..
  | transferNFT => exact hmove.transferNFT ..
  | openChannel => exact hmove.openChannel ..
  | closeChannel => exact hmove.closeChannel ..
  | delegateSpend => exact hmove.delegateSpend ..
  | registerValidator => exact hmove.deductStake ..
  | unregisterValidator => exact hmove.requireAccount ..

/-- A transaction does to the moved state what it does to the state. -/
theorem applyTransaction (crypto : Crypto) (state : State) (tx : Transaction) :
    (move state).applyTransaction crypto tx =
      movedOutcome move (state.applyTransaction crypto tx) := by
  unfold State.applyTransaction
  simp only [hmove.getNonce, hmove.processData]
  split
  · rfl
  · rcases state.processData crypto tx with ⟨error | ⟨⟨⟩⟩, next⟩
    · rfl
    · simp only [movedOutcome, incrementNonce, hmove.accountOrNew, hmove.insertPending]

/-- The transactions of a block do to the moved state what they do to the state. -/
theorem processTransactions (crypto : Crypto) (state : State) (txs : List Transaction) :
    Chain.processTransactions crypto (move state) txs =
      movedOutcome move (Chain.processTransactions crypto state txs) := by
  induction txs generalizing state with
  | nil => rfl
  | cons tx rest ih =>
    rw [Chain.processTransactions, Chain.processTransactions, Chain.processTransaction,
      Chain.processTransaction]
    cases tx.validate crypto with
    | error error => rfl
    | ok =>
      dsimp only
      rw [hmove.applyTransaction]
      rcases state.applyTransaction crypto tx with ⟨error | ⟨⟨⟩⟩, next⟩
      · rfl
      · exact ih next

end Unseen

end State

namespace Ledger

/-- A state that holds a ledger, all in the overlay. -/
def toState (ledger : Ledger) : State :=
  { State.empty with
    pendingChanges := ledger.accounts
    assets := ledger.assets
    collections := ledger.collections
    channels := ledger.channels }

/-- Execute transactions on a bare ledger, stopping at the first error. -/
def execute (crypto : Crypto) (ledger : Ledger) (txs : List Transaction) :
    Except String Unit × Ledger :=
  let (result, state) := Chain.processTransactions crypto ledger.toState txs
  (result, state.ledger)

@[simp] theorem toState_ledger (state : State) : state.ledger.toState = state.flat := rfl

@[simp] theorem ledger_toState (ledger : Ledger) : ledger.toState.ledger = ledger := by
  have haccounts : ledger.toState.accounts = ledger.accounts := Finmap.union_empty
  unfold State.ledger
  rw [haccounts]
  rfl

end Ledger

namespace Chain

variable {crypto : Crypto}

/-- The transactions of a block do to the flattened state what they do to the state. -/
theorem processTransactions_flat (crypto : Crypto) (state : State) (txs : List Transaction) :
    processTransactions crypto state.flat txs =
      State.flatOutcome (processTransactions crypto state txs) :=
  State.unseen_flat.processTransactions crypto state txs

/-- The execution of transactions refines their execution on the bare ledger. -/
theorem ledger_processTransactions (crypto : Crypto) (state : State) (txs : List Transaction) :
    ((processTransactions crypto state txs).1, (processTransactions crypto state txs).2.ledger) =
      state.ledger.execute crypto txs := by
  unfold Ledger.execute
  rw [Ledger.toState_ledger, processTransactions_flat]
  simp [State.flatOutcome]

end Chain

end Nocostcoin
