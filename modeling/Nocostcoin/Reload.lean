import Nocostcoin.Commit
import Nocostcoin.Ledger
import Nocostcoin.Node

/-!
# The ledger read back from the database

Accounts are stored, the registries of assets, collections and channels are a cache in memory: what
`State::new` builds from the database of a committed state has the same accounts and empty registries.
The two states treat alike what does not concern an entry of the lost registries.
-/

namespace Nocostcoin

/-- The transaction neither uses nor creates an entry that a state's registries have. -/
def Transaction.Avoids (crypto : Crypto) (tx : Transaction) (state : State) : Prop :=
  match tx.data with
  | .createAsset .. => ∀ assetId, tx.calculateAssetId crypto = some assetId →
      state.assets.lookup assetId = none
  | .transferAsset assetId _ => state.assets.lookup assetId = none
  | .createCollection .. => ∀ collectionId, tx.calculateAssetId crypto = some collectionId →
      state.collections.lookup collectionId = none
  | .mintNFT collectionId .. | .transferNFT collectionId _ => state.collections.lookup collectionId = none
  | .openChannel .. => ∀ channelId, tx.calculateAssetId crypto = some channelId →
      state.channels.lookup channelId = none
  | .closeChannel channelId .. => state.channels.lookup channelId = none
  | _ => True

/-- The transaction transfers an asset, mints or transfers an item, or closes a channel. -/
def Transaction.UsesRegistry (tx : Transaction) : Prop :=
  match tx.data with
  | .transferAsset .. | .mintNFT .. | .transferNFT .. | .closeChannel .. => True
  | _ => False

namespace State

variable {crypto : Crypto} {old s t : State}

/-- Apply transactions one after another, whatever becomes of each. -/
def applyAll (crypto : Crypto) : State → List Transaction → List (Except String Unit) × State
  | state, [] => ([], state)
  | state, tx :: rest =>
    let outcome := state.applyTransaction crypto tx
    let (results, state) := applyAll crypto outcome.2 rest
    (outcome.1 :: results, state)

/-- The states that committed blocks lead to: a database is opened, then transactions are applied and
their changes stored, again and again. -/
inductive Committed (crypto : Crypto) : State → Prop
  | opened {host : Host} {storage : Storage} {state : State}
      (hnew : State.new crypto host storage = some state) : Committed crypto state
  | block {host : Host} {state state' : State} (txs : List Transaction)
      (hbefore : Committed crypto state)
      (hstored : (applyAll crypto state txs).2.applyChanges crypto host = some (.ok (), state')) :
      Committed crypto state'

/-- What `State::new` builds, where it does not panic. -/
theorem new_ok {host : Host} {storage : Storage} {state : State}
    (h : new crypto host storage = some state) :
    ∃ trie, state = { empty with storage, trie } := by
  cases Option.bind_eq_some_iff.mp h with
  | intro trie hstate => exact ⟨trie, (Option.some.inj hstate.2).symm⟩

/-- In a committed state every account is stored. -/
theorem Committed.pendingChanges (h : Committed crypto s) : s.pendingChanges = ∅ := by
  induction h with
  | opened hnew =>
    cases new_ok hnew with
    | intro trie hstate => rw [hstate]; rfl
  | block txs hbefore hstored ih =>
    cases applyChanges_ok hstored with
    | intro trie hstate => rw [hstate]

/-- Two states have the same accounts, and the same registries but for what an old state had. -/
structure Agree (old s t : State) : Prop where
  getAccount : ∀ address, t.getAccount address = s.getAccount address
  assets : ∀ assetId, old.assets.lookup assetId = none → t.assets.lookup assetId = s.assets.lookup assetId
  collections : ∀ collectionId, old.collections.lookup collectionId = none →
    t.collections.lookup collectionId = s.collections.lookup collectionId
  channels : ∀ channelId, old.channels.lookup channelId = none →
    t.channels.lookup channelId = s.channels.lookup channelId

namespace Agree

variable (h : Agree old s t)

include h

theorem accountOrNew (address : Bytes) : t.accountOrNew address = s.accountOrNew address := by
  rw [State.accountOrNew, h.getAccount, State.accountOrNew]

theorem getNonce (address : Bytes) : t.getNonce address = s.getNonce address := by
  rw [getNonce_eq, getNonce_eq, h.accountOrNew]

/-- A write to the overlays keeps the agreement. -/
theorem insertPending (address : Bytes) (account : Account) :
    Agree old (s.insertPending address account) (t.insertPending address account) := by
  constructor
  · intro other
    rw [getAccount_insertPending, getAccount_insertPending, h.getAccount]
  · exact h.assets
  · exact h.collections
  · exact h.channels

/-- So does an entry in a registry. -/
theorem insertAsset (assetId : Bytes) (asset : Asset) :
    Agree old { s with assets := s.assets.insert assetId asset }
      { t with assets := t.assets.insert assetId asset } := by
  constructor
  · exact h.getAccount
  · intro other hother
    rw [FiniteMap.lookup_insert_ite, FiniteMap.lookup_insert_ite, h.assets other hother]
  · exact h.collections
  · exact h.channels

theorem insertCollection (collectionId : Bytes) (collection : Collection) :
    Agree old { s with collections := s.collections.insert collectionId collection }
      { t with collections := t.collections.insert collectionId collection } := by
  constructor
  · exact h.getAccount
  · exact h.assets
  · intro other hother
    rw [FiniteMap.lookup_insert_ite, FiniteMap.lookup_insert_ite, h.collections other hother]
  · exact h.channels

theorem insertChannel (channelId : Bytes) (channel : PaymentChannel) :
    Agree old { s with channels := s.channels.insert channelId channel }
      { t with channels := t.channels.insert channelId channel } := by
  constructor
  · exact h.getAccount
  · exact h.assets
  · exact h.collections
  · intro other hother
    rw [FiniteMap.lookup_insert_ite, FiniteMap.lookup_insert_ite, h.channels other hother]

end Agree

/-- Two outcomes with the same result, in states that agree. -/
structure Alike (old : State) (first second : Outcome State) : Prop where
  result : second.1 = first.1
  agree : Agree old first.2 second.2

namespace Agree

variable (h : Agree old s t)

include h

theorem transferNative (sender receiver : Bytes) (amount : UInt64) :
    Alike old (s.transferNative sender receiver amount) (t.transferNative sender receiver amount) := by
  unfold State.transferNative
  simp only [h.getAccount]
  split
  · exact ⟨rfl, h⟩
  · split
    · exact ⟨rfl, h⟩
    · rename_i account haccount
      have hdebited := h.insertPending sender { account with balance := account.balance - amount }
      split
      · exact ⟨rfl, h⟩
      · simp only [hdebited.accountOrNew]
        exact ⟨rfl, hdebited.insertPending _ _⟩

theorem createAsset {tx : Transaction} (issuer : Bytes) (name symbol : String) (supply : UInt64)
    (decimals : UInt8) (metadata : Bytes)
    (havoids : ∀ assetId, tx.calculateAssetId crypto = some assetId → old.assets.lookup assetId = none) :
    Alike old (s.createAsset crypto issuer tx name symbol supply decimals metadata)
      (t.createAsset crypto issuer tx name symbol supply decimals metadata) := by
  unfold State.createAsset
  split
  · exact ⟨rfl, h⟩
  · rename_i assetId hid
    simp only [h.assets assetId (havoids assetId hid), h.accountOrNew]
    split
    · exact ⟨rfl, h⟩
    · exact ⟨rfl, (h.insertPending _ _).insertAsset _ _⟩

theorem transferAsset (sender receiver assetId : Bytes) (amount : UInt64)
    (havoids : old.assets.lookup assetId = none) :
    Alike old (s.transferAsset sender receiver assetId amount)
      (t.transferAsset sender receiver assetId amount) := by
  unfold State.transferAsset
  simp only [h.assets assetId havoids, h.getAccount]
  split
  · exact ⟨rfl, h⟩
  · split
    · exact ⟨rfl, h⟩
    · rename_i account haccount
      have hdebited := h.insertPending sender { account with
        assets := account.assets.insert assetId ((account.assets.lookup assetId).getD 0 - amount) }
      split
      · exact ⟨rfl, h⟩
      · simp only [hdebited.accountOrNew]
        exact ⟨rfl, hdebited.insertPending _ _⟩

theorem createCollection {tx : Transaction} (issuer : Bytes) (name symbol : String) (metadata : Bytes)
    (havoids : ∀ collectionId, tx.calculateAssetId crypto = some collectionId →
      old.collections.lookup collectionId = none) :
    Alike old (s.createCollection crypto issuer tx name symbol metadata)
      (t.createCollection crypto issuer tx name symbol metadata) := by
  unfold State.createCollection
  split
  · exact ⟨rfl, h⟩
  · rename_i collectionId hid
    simp only [h.collections collectionId (havoids collectionId hid)]
    split
    · exact ⟨rfl, h⟩
    · exact ⟨rfl, h.insertCollection _ _⟩

theorem mintNFT (sender collectionId : Bytes) (itemId : UInt64) (itemMetadata recipient : Bytes)
    (havoids : old.collections.lookup collectionId = none) :
    Alike old (s.mintNFT sender collectionId itemId itemMetadata recipient)
      (t.mintNFT sender collectionId itemId itemMetadata recipient) := by
  unfold State.mintNFT
  simp only [h.collections collectionId havoids]
  split
  · exact ⟨rfl, h⟩
  · rename_i collection hcollection
    have hminted := h.insertCollection collectionId
      (collection.putItem itemId { id := itemId, owner := recipient, metadata := itemMetadata })
    unfold Collection.putItem at hminted
    split
    · exact ⟨rfl, h⟩
    · split
      · exact ⟨rfl, h⟩
      · simp only [hminted.accountOrNew]
        exact ⟨rfl, hminted.insertPending _ _⟩

theorem transferNFT (sender receiver collectionId : Bytes) (itemId : UInt64)
    (havoids : old.collections.lookup collectionId = none) :
    Alike old (s.transferNFT sender receiver collectionId itemId)
      (t.transferNFT sender receiver collectionId itemId) := by
  unfold State.transferNFT
  simp only [h.collections collectionId havoids]
  split
  · exact ⟨rfl, h⟩
  · rename_i collection hcollection
    split
    · exact ⟨rfl, h⟩
    · rename_i item hitem
      have howned := h.insertCollection collectionId (collection.putItem itemId (item.ownedBy receiver))
      unfold Collection.putItem NFTItem.ownedBy at howned
      split
      · exact ⟨rfl, h⟩
      · simp only [howned.getAccount]
        split
        · exact ⟨rfl, howned⟩
        · rename_i account haccount
          have hsent := fun sent => howned.insertPending sender sent
          simp only [fun sent => (hsent sent).accountOrNew]
          exact ⟨rfl, (hsent _).insertPending _ _⟩

theorem openChannel {tx : Transaction} (sender partner : Bytes) (amount duration : UInt64)
    (havoids : ∀ channelId, tx.calculateAssetId crypto = some channelId →
      old.channels.lookup channelId = none) :
    Alike old (s.openChannel crypto sender partner amount duration tx)
      (t.openChannel crypto sender partner amount duration tx) := by
  unfold State.openChannel
  simp only [h.getAccount]
  split
  · exact ⟨rfl, h⟩
  · rename_i account haccount
    have hdebited := h.insertPending sender { account with balance := account.balance - amount }
    split
    · exact ⟨rfl, h⟩
    · split
      · exact ⟨rfl, hdebited⟩
      · rename_i channelId hid
        simp only [hdebited.channels channelId (havoids channelId hid)]
        split
        · exact ⟨rfl, hdebited⟩
        · exact ⟨rfl, hdebited.insertChannel _ _⟩

theorem closeChannel (sender channelId : Bytes) (finalBalanceA finalBalanceB : UInt64)
    (havoids : old.channels.lookup channelId = none) :
    Alike old (s.closeChannel sender channelId finalBalanceA finalBalanceB)
      (t.closeChannel sender channelId finalBalanceA finalBalanceB) := by
  unfold State.closeChannel
  simp only [h.channels channelId havoids]
  split
  · exact ⟨rfl, h⟩
  · rename_i channel hchannel
    have hclosed := h.insertChannel channelId { channel with isClosed := true }
    split
    · exact ⟨rfl, h⟩
    · split
      · exact ⟨rfl, h⟩
      · split
        · exact ⟨rfl, hclosed⟩
        · simp only [hclosed.accountOrNew]
          have hpaid := fun paid => hclosed.insertPending channel.partnerA paid
          simp only [fun paid => (hpaid paid).accountOrNew]
          exact ⟨rfl, (hpaid _).insertPending _ _⟩

theorem delegateSpend (owner delegate : Bytes) (allowance : UInt64) :
    Alike old (s.delegateSpend owner delegate allowance) (t.delegateSpend owner delegate allowance) := by
  unfold State.delegateSpend
  simp only [h.accountOrNew]
  exact ⟨rfl, h.insertPending _ _⟩

theorem deductStake (sender : Bytes) (stake : UInt64) :
    Alike old (s.deductStake sender stake) (t.deductStake sender stake) := by
  unfold State.deductStake
  simp only [h.getAccount]
  split
  · exact ⟨rfl, h⟩
  · split
    · exact ⟨rfl, h⟩
    · exact ⟨rfl, h.insertPending _ _⟩

theorem requireAccount (sender : Bytes) :
    Alike old (s.requireAccount sender) (t.requireAccount sender) := by
  unfold State.requireAccount
  simp only [h.getAccount]
  split
  · exact ⟨rfl, h⟩
  · exact ⟨rfl, h⟩

/-- Every arm treats the two states alike, if the transaction avoids the old registries. -/
theorem processData {tx : Transaction} (havoids : tx.Avoids crypto old) :
    Alike old (s.processData crypto tx) (t.processData crypto tx) := by
  unfold Transaction.Avoids at havoids
  unfold State.processData
  cases hdata : tx.data <;> rw [hdata] at havoids
  case nativeTransfer => exact h.transferNative ..
  case createAsset => exact h.createAsset _ _ _ _ _ _ havoids
  case transferAsset => exact h.transferAsset _ _ _ _ havoids
  case createCollection => exact h.createCollection _ _ _ _ havoids
  case mintNFT => exact h.mintNFT _ _ _ _ _ havoids
  case transferNFT => exact h.transferNFT _ _ _ _ havoids
  case openChannel => exact h.openChannel _ _ _ _ havoids
  case closeChannel => exact h.closeChannel _ _ _ _ havoids
  case delegateSpend => exact h.delegateSpend ..
  case registerValidator => exact h.deductStake ..
  case unregisterValidator => exact h.requireAccount ..

/-- So does a whole transaction. -/
theorem applyTransaction {tx : Transaction} (havoids : tx.Avoids crypto old) :
    Alike old (s.applyTransaction crypto tx) (t.applyTransaction crypto tx) := by
  unfold State.applyTransaction
  simp only [h.getNonce]
  have hdata := h.processData havoids
  split
  · exact ⟨rfl, h⟩
  · generalize s.processData crypto tx = first at hdata
    generalize t.processData crypto tx = second at hdata
    cases hdata with
    | mk hresult hagree =>
      cases first with
      | mk result state =>
        cases second with
        | mk result' state' =>
          cases hresult
          cases result with
          | error => exact ⟨rfl, hagree⟩
          | ok =>
            simp only [incrementNonce, hagree.accountOrNew]
            exact ⟨rfl, hagree.insertPending _ _⟩

/-- And a sequence of transactions. -/
theorem applyAll {txs : List Transaction} (havoids : ∀ tx ∈ txs, tx.Avoids crypto old) :
    (applyAll crypto t txs).1 = (applyAll crypto s txs).1 ∧
      Agree old (applyAll crypto s txs).2 (applyAll crypto t txs).2 := by
  induction txs generalizing s t with
  | nil => exact ⟨rfl, h⟩
  | cons tx rest ih =>
    have hfirst := h.applyTransaction (havoids tx List.mem_cons_self)
    have hrest := ih hfirst.agree fun other hother => havoids other (List.mem_cons_of_mem tx hother)
    constructor
    · exact congrArg₂ List.cons hfirst.result hrest.1
    · exact hrest.2

end Agree

/-- A committed state and what is built from its database agree, as to what its registries lack. -/
theorem Committed.agree {host : Host} (hs : Committed crypto s)
    (hnew : State.new crypto host s.storage = some t) : Agree s s t := by
  cases new_ok hnew with
  | intro trie hstate =>
    rw [hstate]
    constructor
    · intro address
      rw [getAccount_eq_lookup, getAccount_eq_lookup, accounts, accounts, hs.pendingChanges]
      rfl
    · intro assetId hassetId
      rw [hassetId]
      exact Finmap.lookup_empty assetId
    · intro collectionId hcollectionId
      rw [hcollectionId]
      exact Finmap.lookup_empty collectionId
    · intro channelId hchannelId
      rw [hchannelId]
      exact Finmap.lookup_empty channelId

/-- States that agree have one account table. -/
theorem Agree.accounts_eq (h : Agree old s t) : t.accounts = s.accounts := by
  apply Finmap.ext_lookup
  intro address
  rw [← getAccount_eq_lookup, ← getAccount_eq_lookup, h.getAccount]

/-- Without registries whatever uses them fails. -/
theorem applyTransaction_of_empty {tx : Transaction} (hassets : t.assets = ∅)
    (hcollections : t.collections = ∅) (hchannels : t.channels = ∅) (huses : tx.UsesRegistry) :
    (t.applyTransaction crypto tx).1 ≠ .ok () := by
  have hdata : ∃ error, t.processData crypto tx = (.error error, t) := by
    unfold Transaction.UsesRegistry at huses
    unfold processData
    split at huses <;> rename_i hkind
    · rw [hkind]
      simp [transferAsset, hassets]
    · rw [hkind]
      simp [mintNFT, hcollections]
    · rw [hkind]
      simp [transferNFT, hcollections]
    · rw [hkind]
      simp [closeChannel, hchannels]
    · contradiction
  unfold applyTransaction
  split
  · simp
  · cases hdata with
    | intro error herror => simp [herror]

/-- What is built from the database of a committed state has its accounts and no registries; any
transactions that avoid the lost entries have the same results on both and lead to the same accounts; and
whatever uses a registry is refused at first. -/
theorem reload_keeps_accounts {host : Host} (hs : Committed crypto s)
    (hnew : State.new crypto host s.storage = some t) :
    (t.accounts = s.accounts ∧ t.assets = ∅ ∧ t.collections = ∅ ∧ t.channels = ∅) ∧
      (∀ txs, (∀ tx ∈ txs, tx.Avoids crypto s) →
        (applyAll crypto t txs).1 = (applyAll crypto s txs).1 ∧
          (applyAll crypto t txs).2.accounts = (applyAll crypto s txs).2.accounts) ∧
      ∀ tx, tx.UsesRegistry → (t.applyTransaction crypto tx).1 ≠ .ok () := by
  have hagree := hs.agree hnew
  have hempty : t.assets = ∅ ∧ t.collections = ∅ ∧ t.channels = ∅ := by
    cases new_ok hnew with
    | intro trie hstate =>
      rw [hstate]
      exact ⟨rfl, rfl, rfl⟩
  refine ⟨⟨hagree.accounts_eq, hempty⟩, ?_, ?_⟩
  · intro txs havoids
    have hall := hagree.applyAll havoids
    exact ⟨hall.1, hall.2.accounts_eq⟩
  · intro tx huses
    exact applyTransaction_of_empty hempty.1 hempty.2.1 hempty.2.2 huses

end State

namespace Sample

/-- A signed creation of an asset by Alice. -/
def creation : Transaction :=
  Transaction.new Crypto.plain alice alice (.createAsset "coin" "C" 50 0 []) 0 alice

/-- A signed transfer of ten of it to Bob. -/
def assetTransfer : Transaction :=
  Transaction.new Crypto.plain alice bob
    (.transferAsset ((creation.calculateAssetId Crypto.plain).getD []) 10) 1 alice

/-- A signed creation of another asset by Alice. -/
def secondCreation : Transaction :=
  Transaction.new Crypto.plain alice alice (.createAsset "token" "T" 5 0 []) 1 alice

/-- The outcome of committing the creation. -/
def issued : Option (Outcome State) :=
  (State.applyAll Crypto.plain State.empty [creation]).2.applyChanges Crypto.plain Host.plain

end Sample

namespace State

/-- A successful commit of a block on the empty state leads to a committed state. -/
theorem committed_of_empty {host : Host} {txs : List Transaction} {state : State}
    (h : (applyAll crypto empty txs).2.applyChanges crypto host = some (.ok (), state)) :
    Committed crypto state :=
  .block txs (.opened (new_empty crypto host)) h

/-- An asset was created and committed. Its transfer succeeds on that state and fails after a restart. -/
theorem asset_lost_by_reload :
    ∃ s t, Committed Crypto.plain s ∧ State.new Crypto.plain Host.plain s.storage = some t ∧
      (s.applyTransaction Crypto.plain Sample.assetTransfer).1 = .ok () ∧
      (t.applyTransaction Crypto.plain Sample.assetTransfer).1 = .error "Asset does not exist" := by
  have hcheck : Sample.issued.any (fun outcome =>
      (State.new Crypto.plain Host.plain outcome.2.storage).any fun t => decide (outcome.1 = .ok () ∧
        (outcome.2.applyTransaction Crypto.plain Sample.assetTransfer).1 = .ok () ∧
        (t.applyTransaction Crypto.plain Sample.assetTransfer).1 = .error "Asset does not exist")) = true := by
    decide +kernel
  obtain ⟨⟨result, s⟩, hissued, hreload⟩ := (Option.any_eq_true _ _).mp hcheck
  obtain ⟨t, hnew, hresults⟩ := (Option.any_eq_true _ _).mp hreload
  obtain ⟨hresult, hbefore, hafter⟩ := of_decide_eq_true hresults
  cases hresult
  exact ⟨s, t, committed_of_empty hissued, hnew, hbefore, hafter⟩

/-- Another asset can be created after the restart as before it. -/
theorem reload_keeps_accounts_issued :
    ∃ s t, Committed Crypto.plain s ∧ State.new Crypto.plain Host.plain s.storage = some t ∧
      s.assets ≠ ∅ ∧ t.accounts = s.accounts ∧
      (applyAll Crypto.plain t [Sample.secondCreation]).1 = [.ok ()] := by
  have hcheck : Sample.issued.any (fun outcome =>
      (State.new Crypto.plain Host.plain outcome.2.storage).any fun _ => decide (outcome.1 = .ok () ∧
        outcome.2.assets ≠ ∅ ∧
        outcome.2.assets.lookup ((Sample.secondCreation.calculateAssetId Crypto.plain).getD []) = none ∧
        (applyAll Crypto.plain outcome.2 [Sample.secondCreation]).1 = [.ok ()])) = true := by
    decide +kernel
  obtain ⟨⟨result, s⟩, hissued, hreload⟩ := (Option.any_eq_true _ _).mp hcheck
  obtain ⟨t, hnew, hresults⟩ := (Option.any_eq_true _ _).mp hreload
  obtain ⟨hresult, hassets, havoids, hbefore⟩ := of_decide_eq_true hresults
  cases hresult
  have hcommitted := committed_of_empty hissued
  obtain ⟨⟨haccounts, -⟩, halike, -⟩ := reload_keeps_accounts hcommitted hnew
  have hresults := halike [Sample.secondCreation] (by
    intro tx htx
    rw [List.mem_singleton.mp htx]
    intro assetId hid
    have heq : (Sample.secondCreation.calculateAssetId Crypto.plain).getD [] = assetId := by rw [hid]; rfl
    exact heq ▸ havoids)
  exact ⟨s, t, hcommitted, hnew, hassets, haccounts, hresults.1.trans hbefore⟩

end State

end Nocostcoin
