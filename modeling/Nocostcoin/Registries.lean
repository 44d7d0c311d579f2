import Nocostcoin.SenderOnly
import Nocostcoin.Chain.Replay

/-!
# What transactions leave in the registries

No transaction takes a record out of a registry or opens a closed channel again, so a transaction
that enters a record leaves one more for good. What transactions can undo is an item's owner, by
moving the item back.
-/

namespace Nocostcoin

variable {crypto : Crypto}

/-- The kinds of transactions that enter a record in a registry or close a channel there. -/
def Transaction.enters (tx : Transaction) : Bool :=
  match tx.data with
  | .createAsset .. | .createCollection .. | .mintNFT .. | .openChannel .. | .closeChannel .. => true
  | _ => false

/-- A collection and its items. -/
def Collection.records (collection : Collection) : ℕ :=
  FiniteMap.sumOf (fun _ => 1) collection.items + 1

/-- A channel, and its closing. -/
def PaymentChannel.records (channel : PaymentChannel) : ℕ := if channel.isClosed then 2 else 1

namespace State

variable {s s' : State} {tx : Transaction}

/-- The records of all registries. -/
def records (state : State) : ℕ :=
  FiniteMap.sumOf (fun _ => 1) state.assets + FiniteMap.sumOf Collection.records state.collections +
    FiniteMap.sumOf PaymentChannel.records state.channels

/-- Replacing an item of a collection by another version of it keeps the number of records. -/
theorem records_putItem_over {collectionId : Bytes} {collection : Collection} {itemId : UInt64}
    {item : NFTItem} (hcollection : s.collections.lookup collectionId = some collection)
    (hitem : collection.items.lookup itemId = some item) (item' : NFTItem) :
    (s.putCollection collectionId (collection.putItem itemId item')).records = s.records := by
  have hcollections := FiniteMap.sumOf_insert_over Collection.records
    (collection.putItem itemId item') hcollection
  have hitems := FiniteMap.sumOf_insert_over (fun _ => 1) item' hitem
  unfold records putCollection
  unfold Collection.records Collection.putItem at *
  dsimp only at *
  omega

/-- A fresh item of a collection is one more record. -/
theorem records_putItem_fresh {collectionId : Bytes} {collection : Collection} {itemId : UInt64}
    (hcollection : s.collections.lookup collectionId = some collection)
    (hfresh : collection.items.lookup itemId = none) (item : NFTItem) :
    (s.putCollection collectionId (collection.putItem itemId item)).records = s.records + 1 := by
  have hcollections := FiniteMap.sumOf_insert_over Collection.records
    (collection.putItem itemId item) hcollection
  have hitems := FiniteMap.sumOf_insert_fresh (fun _ => 1) item hfresh
  unfold records putCollection
  unfold Collection.records Collection.putItem at *
  dsimp only at *
  omega

/-- A transaction that took effect left one more record if it enters one, else as many. -/
theorem records_of_effect (h : Effect crypto s tx s') :
    s'.records = s.records + if tx.enters then 1 else 0 := by
  cases h with
  | createAsset hdata hid hfresh =>
    rw [Transaction.enters, hdata, if_pos rfl]
    unfold records putAsset
    dsimp only [assets_modifyAccount, collections_modifyAccount, channels_modifyAccount]
    rw [FiniteMap.sumOf_insert_fresh _ _ hfresh]
    omega
  | createCollection hdata hid hfresh =>
    rw [Transaction.enters, hdata, if_pos rfl]
    unfold records putCollection
    dsimp only
    rw [FiniteMap.sumOf_insert_fresh _ _ hfresh, Collection.records, FiniteMap.sumOf_empty]
    omega
  | @mintNFT collectionId _ _ itemId collection hdata hcollection hissuer hfresh =>
    rw [Transaction.enters, hdata, if_pos rfl]
    exact records_putItem_fresh hcollection hfresh _
  | transferNFT hdata hcollection hitem howner hsender =>
    rw [Transaction.enters, hdata]
    exact records_putItem_over hcollection hitem _
  | openChannel hdata hsender hfunds hid hfresh =>
    rw [Transaction.enters, hdata, if_pos rfl]
    unfold records putChannel
    dsimp only [assets_modifyAccount, collections_modifyAccount, channels_modifyAccount]
    rw [FiniteMap.sumOf_insert_fresh _ _ hfresh, PaymentChannel.records, if_neg Bool.false_ne_true]
    omega
  | @closeChannel _ _ _ _ channel hdata hchannel hopen hpartner hsum =>
    have h := FiniteMap.sumOf_insert_over PaymentChannel.records channel.closed hchannel
    rw [Transaction.enters, hdata, if_pos rfl]
    unfold records putChannel
    dsimp only [assets_modifyAccount, collections_modifyAccount, channels_modifyAccount]
    rw [PaymentChannel.records, PaymentChannel.records, hopen] at h
    simp only [PaymentChannel.closed, if_true, Bool.false_eq_true, if_false] at h
    unfold PaymentChannel.closed
    omega
  | nativeTransfer hdata | transferAsset hdata | delegateSpend hdata | registerValidator hdata
  | unregisterValidator hdata =>
    rw [Transaction.enters, hdata]
    rfl

/-- A failed transaction takes no record back. -/
theorem records_of_residue (h : Residue crypto s tx s') : s.records ≤ s'.records := by
  cases h with
  | unchanged => exact Nat.le_refl _
  | debited => exact Nat.le_refl _
  | @markedClosed _ _ _ _ channel hdata hchannel hopen hpartner hsum =>
    have h := FiniteMap.sumOf_insert_over PaymentChannel.records channel.closed hchannel
    unfold records putChannel
    dsimp only
    rw [PaymentChannel.records, PaymentChannel.records, hopen] at h
    simp only [PaymentChannel.closed, if_true, Bool.false_eq_true, if_false] at h
    unfold PaymentChannel.closed
    omega
  | ownerChanged hdata hcollection hitem howner hsender =>
    exact Nat.le_of_eq (records_putItem_over hcollection hitem _).symm

/-- Two states with the same registries. -/
structure SameRegistries (s s' : State) : Prop where
  assets : s'.assets = s.assets
  collections : s'.collections = s.collections
  channels : s'.channels = s.channels

theorem SameRegistries.records (h : s.SameRegistries s') : s'.records = s.records := by
  unfold State.records
  rw [h.assets, h.collections, h.channels]

/-- A collection without the owners of its items. -/
def unowned (state : State) (collectionId : Bytes) :
    Option (Collection × (UInt64 → Option NFTItem)) :=
  (state.collections.lookup collectionId).map fun collection =>
    ({ collection with items := ∅ },
      fun itemId => (collection.items.lookup itemId).map fun item => item.ownedBy [])

/-- An item is what it is without its owner, and the owner. -/
theorem item_eq {item item' : Option NFTItem}
    (hbare : (item'.map fun item => item.ownedBy []) = item.map fun item => item.ownedBy [])
    (howner : item'.map NFTItem.owner = item.map NFTItem.owner) : item' = item := by
  rcases item with _ | ⟨id, owner, metadata⟩
  · exact Option.map_eq_none_iff.mp hbare
  · obtain ⟨⟨id', owner', metadata'⟩, rfl, hsame⟩ := Option.map_eq_some_iff.mp hbare
    obtain ⟨rfl, -, rfl⟩ := NFTItem.mk.inj hsame
    rw [Option.map_some, Option.map_some, Option.some.injEq] at howner
    rw [show owner' = owner from howner]

/-- Collections are what they are without the owners, and the owners. -/
theorem collections_eq (hunowned : s'.unowned = s.unowned)
    (howners : ∀ collectionId itemId, s'.ownerOf collectionId itemId = s.ownerOf collectionId itemId) :
    s'.collections = s.collections := by
  apply Finmap.ext_lookup
  intro collectionId
  have hface := congrFun hunowned collectionId
  have howner := howners collectionId
  unfold unowned ownerOf at *
  rcases hc : s.collections.lookup collectionId with _ | collection
  · rw [hc] at hface
    exact Option.map_eq_none_iff.mp hface
  · rw [hc] at hface howner
    obtain ⟨collection', hc', hsame⟩ := Option.map_eq_some_iff.mp hface
    rw [hc'] at howner ⊢
    obtain ⟨hhead, hitems⟩ := Prod.mk.inj hsame
    have hitem : collection'.items = collection.items := Finmap.ext_lookup fun itemId =>
      item_eq (congrFun hitems itemId) (howner itemId)
    calc some collection' = some { ({ collection' with items := ∅ } : Collection) with
          items := collection'.items } := rfl
      _ = some collection := by rw [hhead, hitem]

/-- Changing the owner of an item changes nothing else. -/
theorem unowned_ownedBy {collectionId : Bytes} {collection : Collection} {itemId : UInt64}
    {item : NFTItem} (hcollection : s.collections.lookup collectionId = some collection)
    (hitem : collection.items.lookup itemId = some item) (owner : Bytes) :
    (s.putCollection collectionId (collection.putItem itemId (item.ownedBy owner))).unowned =
      s.unowned := by
  funext other
  unfold unowned putCollection
  dsimp only
  rw [FiniteMap.lookup_insert_ite]
  by_cases hother : other = collectionId
  · rw [if_pos hother, hother, hcollection, Option.map_some, Option.map_some]
    congr 2
    funext otherItem
    rw [Collection.putItem, FiniteMap.lookup_insert_ite]
    by_cases hsame : otherItem = itemId
    · rw [if_pos hsame, hsame, hitem]
      rfl
    · rw [if_neg hsame]
  · rw [if_neg hother]

end State

/-- The owner of an item after a transaction, if it succeeds. -/
def Transaction.ownerAfter (tx : Transaction) (collectionId : Bytes) (itemId : UInt64)
    (owner : Bytes) : Bytes :=
  match tx.data with
  | .transferNFT collectionId' itemId' =>
      if collectionId = collectionId' ∧ itemId = itemId' then tx.receiver else owner
  | _ => owner

/-- The owner of an item after transactions: the receiver of its last transfer, if there is one. -/
def ownerAfter (txs : List Transaction) (collectionId : Bytes) (itemId : UInt64) (owner : Bytes) :
    Bytes :=
  txs.foldl (fun owner tx => tx.ownerAfter collectionId itemId owner) owner

/-- Between two states items changed hands by the given transactions, and nothing else happened
in the registries. -/
structure OnlyMoves (txs : List Transaction) (s s' : State) : Prop where
  assets : s'.assets = s.assets
  unowned : s'.unowned = s.unowned
  owners : ∀ collectionId itemId,
    s'.ownerOf collectionId itemId = (s.ownerOf collectionId itemId).map (ownerAfter txs collectionId itemId)
  channels : s'.channels = s.channels

namespace State

variable {s s' : State} {tx : Transaction}

/-- A transaction that enters no record moves at most an item. -/
theorem onlyMoves_of_effect (h : Effect crypto s tx s') (henters : tx.enters = false) :
    OnlyMoves [tx] s s' := by
  have hkept : ∀ collectionId itemId, (∀ c i, tx.data ≠ .transferNFT c i) →
      s.ownerOf collectionId itemId =
        (s.ownerOf collectionId itemId).map (ownerAfter [tx] collectionId itemId) := by
    intro collectionId itemId hother
    have hid : ownerAfter [tx] collectionId itemId = id := by
      funext owner
      change tx.ownerAfter collectionId itemId owner = owner
      unfold Transaction.ownerAfter
      split
      · rename_i hdata
        exact absurd hdata (hother _ _)
      · rfl
    rw [hid, Option.map_id_fun]
    rfl
  cases h with
  | createAsset hdata | createCollection hdata | mintNFT hdata | openChannel hdata
  | closeChannel hdata => simp [Transaction.enters, hdata] at henters
  | @transferNFT collectionId itemId collection item hdata hcollection hitem howner hsender =>
    refine ⟨rfl, unowned_ownedBy hcollection hitem _, fun other otherItem => ?_, rfl⟩
    change _ = (s.ownerOf other otherItem).map (tx.ownerAfter other otherItem)
    apply (ownerOf_putItem hcollection itemId _ other otherItem).trans
    have hafter : tx.ownerAfter other otherItem =
        fun owner => if other = collectionId ∧ otherItem = itemId then tx.receiver else owner := by
      funext owner
      rw [Transaction.ownerAfter, hdata]
    rw [hafter]
    by_cases hsame : other = collectionId ∧ otherItem = itemId
    · rw [if_pos hsame, hsame.1, hsame.2, ownerOf, hcollection, Option.bind_some, hitem]
      simp [NFTItem.ownedBy]
    · simp only [if_neg hsame, Option.map_id']
  | nativeTransfer hdata | transferAsset hdata | delegateSpend hdata | registerValidator hdata
  | unregisterValidator hdata =>
    exact ⟨rfl, rfl, fun collectionId itemId => hkept collectionId itemId (by simp [hdata]), rfl⟩

/-- Accounts do not disappear. -/
theorem isSome_getAccount_of_effect (h : Effect crypto s tx s') (address : Bytes)
    (hsome : (s.getAccount address).isSome) : (s'.getAccount address).isSome := by
  have hmodify : ∀ (state : State) (other : Bytes) (update : Account → Account),
      (state.getAccount address).isSome →
        ((state.modifyAccount other update).getAccount address).isSome := by
    intro state other update h
    rw [isSome_getAccount_modifyAccount, h, Bool.or_true]
  cases h with
  | createCollection | unregisterValidator => exact hsome
  | createAsset | mintNFT | openChannel | delegateSpend | registerValidator =>
    exact hmodify _ _ _ hsome
  | nativeTransfer | transferAsset | transferNFT | closeChannel =>
    exact hmodify _ _ _ (hmodify _ _ _ hsome)

/-- The new owner of an item that a transaction moved has an account. -/
theorem isSome_getAccount_of_moved (h : Effect crypto s tx s') {collectionId previous : Bytes}
    {itemId : UInt64} (hmoved : tx.ownerAfter collectionId itemId previous ≠ previous) :
    (s'.getAccount (tx.ownerAfter collectionId itemId previous)).isSome := by
  cases h with
  | transferNFT hdata hcollection hitem howner hsender =>
    have hreceiver : tx.ownerAfter collectionId itemId previous = tx.receiver := by
      unfold Transaction.ownerAfter at hmoved ⊢
      simp only [hdata] at hmoved ⊢
      split_ifs at hmoved ⊢
      · rfl
      · contradiction
    rw [hreceiver]
    change ((modifyAccount _ tx.receiver _).getAccount tx.receiver).isSome
    rw [isSome_getAccount_modifyAccount, decide_eq_true rfl, Bool.true_or]
  | nativeTransfer hdata | createAsset hdata | transferAsset hdata | createCollection hdata
  | mintNFT hdata | openChannel hdata | closeChannel hdata | delegateSpend hdata
  | registerValidator hdata | unregisterValidator hdata =>
    rw [Transaction.ownerAfter, hdata] at hmoved
    contradiction

end State

namespace Chain

variable {s s' : State} {txs : List Transaction}

/-- What holds before some transactions and is carried on by every transaction that takes effect
holds after them, if all succeed. -/
theorem processTransactions_invariant (P : List Transaction → State → Prop)
    (hstep : ∀ before tx s₁ s₂, P before s₁ → Effect crypto s₁ tx s₂ →
      P (before ++ [tx]) (s₂.modifyAccount tx.sender .bumpNonce))
    (before : List Transaction) (hbefore : P before s)
    (h : processTransactions crypto s txs = (.ok (), s')) : P (before ++ txs) s' := by
  induction txs generalizing before s with
  | nil =>
    obtain rfl := (Prod.mk.inj h).2
    rwa [List.append_nil]
  | cons tx rest ih =>
    rw [processTransactions] at h
    split at h
    · simp at h
    · rename_i s₁ hfirst
      obtain ⟨-, s₂, heffect, rfl⟩ := State.applyTransaction_ok (processTransaction_ok hfirst)
      have hrest := ih _ (hstep before tx s s₂ hbefore heffect) h
      rwa [List.append_assoc] at hrest

/-- Execution goes on after transactions that all succeed. -/
theorem processTransactions_append (h : processTransactions crypto s txs = (.ok (), s'))
    (rest : List Transaction) :
    processTransactions crypto s (txs ++ rest) = processTransactions crypto s' rest := by
  induction txs generalizing s with
  | nil => rw [List.nil_append, (Prod.mk.inj h).2]
  | cons tx txs ih =>
    rw [processTransactions] at h
    rw [List.cons_append, processTransactions]
    split at h
    · simp at h
    · exact ih h

/-- Transactions that all succeed leave one more record for each that enters one. -/
theorem records_of_processTransactions (h : processTransactions crypto s txs = (.ok (), s')) :
    s'.records = s.records + txs.countP Transaction.enters := by
  refine processTransactions_invariant
    (fun before state => state.records = s.records + before.countP Transaction.enters)
    (fun before tx s₁ s₂ hbefore heffect => ?_) [] rfl h
  have hrecords := State.records_of_effect heffect
  rw [hbefore] at hrecords
  change s₂.records = _
  rw [hrecords, List.countP_append, List.countP_singleton, Nat.add_assoc]

/-- Transactions that all succeed and enter no record move items only. -/
theorem onlyMoves_of_processTransactions (h : processTransactions crypto s txs = (.ok (), s'))
    (henters : ∀ tx ∈ txs, tx.enters = false) : OnlyMoves txs s s' := by
  refine processTransactions_invariant
    (fun before state => (∀ tx ∈ before, tx.enters = false) → OnlyMoves before s state)
    (fun before tx s₁ s₂ hbefore heffect hnone => ?_) []
    (fun _ => ⟨rfl, rfl, fun _ _ => Option.map_id.symm ▸ rfl, rfl⟩) h henters
  have hfirst := hbefore fun earlier hearlier => hnone earlier (List.mem_append_left _ hearlier)
  have hlast := State.onlyMoves_of_effect heffect (hnone tx (by simp))
  refine ⟨hlast.assets.trans hfirst.assets, hlast.unowned.trans hfirst.unowned,
    fun collectionId itemId => ?_, hlast.channels.trans hfirst.channels⟩
  apply (hlast.owners collectionId itemId).trans
  rw [hfirst.owners, Option.map_map]
  congr 1
  funext owner
  exact (List.foldl_append ..).symm

/-- An item that changed hands in transactions that all succeed belongs to someone with an
account. -/
theorem account_of_moved (h : processTransactions crypto s txs = (.ok (), s'))
    (henters : ∀ tx ∈ txs, tx.enters = false) {collectionId owner : Bytes} {itemId : UInt64}
    (howner : s'.ownerOf collectionId itemId = some owner) :
    s.ownerOf collectionId itemId = some owner ∨ (s'.getAccount owner).isSome := by
  have hinvariant := processTransactions_invariant
    (fun before state => (∀ tx ∈ before, tx.enters = false) → ∀ owner,
      state.ownerOf collectionId itemId = some owner →
        s.ownerOf collectionId itemId = some owner ∨ (state.getAccount owner).isSome)
    (fun before tx s₁ s₂ hbefore heffect hnone owner howner => ?_) []
    (fun _ _ h => .inl h) h henters owner howner
  · exact hinvariant
  · have hbump : (s₂.getAccount owner).isSome →
        ((s₂.modifyAccount tx.sender .bumpNonce).getAccount owner).isSome := by
      intro hsome
      rw [State.isSome_getAccount_modifyAccount, hsome, Bool.or_true]
    change s₂.ownerOf collectionId itemId = some owner at howner
    have hmoves := (State.onlyMoves_of_effect heffect (hnone tx (by simp))).owners collectionId itemId
    rw [howner] at hmoves
    obtain ⟨previous, hprevious, hafter⟩ := Option.map_eq_some_iff.mp hmoves.symm
    by_cases hsame : previous = owner
    · rw [hsame] at hprevious
      rcases hbefore (fun earlier hearlier => hnone earlier (List.mem_append_left _ hearlier)) owner
        hprevious with hstart | hsome
      · exact .inl hstart
      · exact .inr (hbump (State.isSome_getAccount_of_effect heffect owner hsome))
    · change tx.ownerAfter collectionId itemId previous = owner at hafter
      subst hafter
      exact .inr (hbump (State.isSome_getAccount_of_moved heffect (Ne.symm hsame)))

end Chain

end Nocostcoin
