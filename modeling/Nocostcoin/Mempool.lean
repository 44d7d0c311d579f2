import Nocostcoin.State

/-!
# The mempool

`mempool.rs`: the transactions that wait for a block, by signature. Admission checks a transaction
alone against the state of the moment; selection sorts by nonce and takes the first ones.
-/

namespace Nocostcoin

/-- `Mempool`; the key of a transaction is its signature. -/
structure Mempool where
  transactions : FiniteMap Bytes Transaction
  capacity : ℕ

namespace Mempool

/-- `Mempool::new`. -/
def new (capacity : ℕ) : Mempool := { transactions := ∅, capacity }

/-- `len`. -/
def len (mempool : Mempool) : ℕ := mempool.transactions.keys.card

/-- `get_all`: in the order in which the map is walked. -/
def getAll (host : Host) (mempool : Mempool) : List Transaction :=
  (host.walk mempool.transactions).map Prod.snd

/-- Step 3 of `add_transaction`: what a transaction needs by its kind. -/
def checkData (state : State) (tx : Transaction) : Except String Unit :=
  match tx.data with
  | .nativeTransfer amount =>
      let balance := state.getBalance tx.sender
      if balance < amount then
        .error s!"Insufficient balance. Available: {balance}, Required: {amount}"
      else .ok ()
  | .transferAsset assetId amount =>
    match state.getAccount tx.sender with
    | none => .error "Sender account not found"
    | some account =>
      let balance := (account.assets.lookup assetId).getD 0
      if balance < amount then
        .error s!"Insufficient asset balance. Available: {balance}, Required: {amount}"
      else .ok ()
  | .openChannel _ amount _ =>
      let balance := state.getBalance tx.sender
      if balance < amount then
        .error s!"Insufficient balance for channel deposit. Available: {balance}, Required: {amount}"
      else .ok ()
  | .closeChannel channelId _ _ _ =>
      if (state.channels.lookup channelId).isNone then .error "Channel does not exist" else .ok ()
  | _ => .ok ()

/-- Step 4 of `add_transaction`: a later nonce than the next one passes. -/
def checkNonce (state : State) (tx : Transaction) : Except String Unit :=
  let stateNonce := state.getNonce tx.sender
  if tx.nonce < stateNonce then
    .error s!"Invalid nonce. State nonce: {stateNonce}, Tx nonce: {tx.nonce}"
  else .ok ()

/-- The checks of `add_transaction` in their order. -/
def admission (crypto : Crypto) (mempool : Mempool) (tx : Transaction) (state : State) :
    Except String Unit := do
  if mempool.capacity ≤ mempool.len then .error "Mempool is full"
  tx.validate crypto
  checkData state tx
  checkNonce state tx

/-- `add_transaction`. -/
def addTransaction (crypto : Crypto) (mempool : Mempool) (tx : Transaction) (state : State) :
    Except String Unit × Mempool :=
  match mempool.admission crypto tx state with
  | .error error => (.error error, mempool)
  | .ok () =>
      (.ok (), { mempool with transactions := mempool.transactions.insert tx.signature tx })

/-- A refused transaction leaves the mempool as it is, an admitted one is entered. -/
theorem addTransaction_cases (crypto : Crypto) (mempool : Mempool) (tx : Transaction) (state : State) :
    (mempool.addTransaction crypto tx state).2 = mempool ∨
      mempool.admission crypto tx state = .ok () ∧ (mempool.addTransaction crypto tx state).2 =
        { mempool with transactions := mempool.transactions.insert tx.signature tx } := by
  unfold addTransaction
  split
  · exact .inl rfl
  · rename_i hadmitted
    exact .inr ⟨hadmitted, rfl⟩

/-- `get_transactions_for_block`: a stable sort by nonce of the walk, then the first ones. -/
def getTransactionsForBlock (host : Host) (mempool : Mempool) (limit : ℕ) : List Transaction :=
  ((mempool.getAll host).insertionSort fun tx tx' => tx.nonce ≤ tx'.nonce).take limit

/-- `remove_transactions`. -/
def removeTransactions (mempool : Mempool) (txs : List Transaction) : Mempool :=
  { mempool with
    transactions := txs.foldl (fun transactions tx => transactions.erase tx.signature)
      mempool.transactions }

/-- An admitted transaction is valid. -/
theorem validate_of_admission {crypto : Crypto} {mempool : Mempool} {tx : Transaction} {state : State}
    (h : mempool.admission crypto tx state = .ok ()) : tx.validate crypto = .ok () := by
  unfold admission at h
  split at h
  · contradiction
  · cases hvalidate : tx.validate crypto with
    | error error =>
      rw [hvalidate] at h
      contradiction
    | ok => rfl

/-- The nonce of an admitted transaction is not below its sender's. -/
theorem nonce_of_admission {crypto : Crypto} {mempool : Mempool} {tx : Transaction} {state : State}
    (h : mempool.admission crypto tx state = .ok ()) : state.getNonce tx.sender ≤ tx.nonce := by
  by_contra hlow
  have hcheck : ∃ error, checkNonce state tx = .error error := ⟨_, if_pos (UInt64.not_le.mp hlow)⟩
  obtain ⟨error, hcheck⟩ := hcheck
  unfold admission at h
  split at h
  · contradiction
  · rw [hcheck] at h
    cases hvalidate : tx.validate crypto <;> cases hdata : checkData state tx <;>
      rw [hvalidate, hdata] at h <;> contradiction

/-- What is selected is in the mempool. -/
theorem lookup_of_selected {host : Host} {mempool : Mempool} {limit : ℕ} {tx : Transaction}
    (h : tx ∈ mempool.getTransactionsForBlock host limit) :
    ∃ signature, mempool.transactions.lookup signature = some tx := by
  have hsorted := List.mem_of_mem_take h
  rw [List.mem_insertionSort] at hsorted
  obtain ⟨⟨signature, found⟩, hwalk, rfl⟩ := List.mem_map.mp hsorted
  exact ⟨signature, Host.mem_walk.mp hwalk⟩

/-- What is left after a removal was there, under no removed signature. -/
theorem lookup_removeTransactions_iff {mempool : Mempool} {txs : List Transaction} {signature : Bytes}
    {tx : Transaction} :
    (mempool.removeTransactions txs).transactions.lookup signature = some tx ↔
      mempool.transactions.lookup signature = some tx ∧ ∀ removed ∈ txs, removed.signature ≠ signature := by
  unfold removeTransactions
  generalize mempool.transactions = transactions
  induction txs generalizing transactions with
  | nil => simp
  | cons removed rest ih =>
    rw [List.foldl_cons, ih, List.forall_mem_cons]
    by_cases hsame : signature = removed.signature
    · rw [hsame, Finmap.lookup_erase]
      simp
    · rw [Finmap.lookup_erase_ne hsame]
      simp [Ne.symm hsame]

/-- What is left after a removal was there. -/
theorem lookup_of_removeTransactions {mempool : Mempool} {txs : List Transaction} {signature : Bytes}
    {tx : Transaction} (h : (mempool.removeTransactions txs).transactions.lookup signature = some tx) :
    mempool.transactions.lookup signature = some tx :=
  (lookup_removeTransactions_iff.mp h).1

end Mempool

end Nocostcoin
