import Nocostcoin.Chain.Advance
import Nocostcoin.Registries

/-!
# The provenance of registry records

Assets, collections with their items, and channels change only by transactions, each under its own rule:
who may create a record, who may change it, and what of it is fixed for good. A transaction that fails may
have changed its record too, under the same rule.
-/

namespace Nocostcoin

namespace State

/-- A transaction registers an asset, under the id that is computed from it. -/
inductive AssetStep (crypto : Crypto) (executed : Transaction → Prop) (assetId : Bytes) :
    Option Asset → Option Asset → Prop
  | registered {tx : Transaction} {name symbol : String} {supply : UInt64} {decimals : UInt8}
      {metadata : Bytes} (hexecuted : executed tx)
      (hdata : tx.data = .createAsset name symbol supply decimals metadata)
      (hid : tx.calculateAssetId crypto = some assetId) :
      AssetStep crypto executed assetId none
        (some { id := assetId, issuer := tx.sender, name, symbol, totalSupply := supply, decimals,
                metadata })

/-- A collection without its items, beside one of them. -/
def item (state : State) (collectionId : Bytes) (itemId : UInt64) : Option (Collection × Option NFTItem) :=
  (state.collections.lookup collectionId).map fun collection =>
    ({ collection with items := ∅ }, collection.items.lookup itemId)

/-- A transaction creates the collection, its issuer mints the item, and the owner of the item hands it
on. -/
inductive ItemStep (crypto : Crypto) (executed : Transaction → Prop) (collectionId : Bytes)
    (itemId : UInt64) :
    Option (Collection × Option NFTItem) → Option (Collection × Option NFTItem) → Prop
  | created {tx : Transaction} {name symbol : String} {metadata : Bytes} (hexecuted : executed tx)
      (hdata : tx.data = .createCollection name symbol metadata)
      (hid : tx.calculateAssetId crypto = some collectionId) :
      ItemStep crypto executed collectionId itemId none
        (some ({ id := collectionId, issuer := tx.sender, name, symbol, metadata, items := ∅ }, none))
  | minted {tx : Transaction} {collection : Collection} {metadata recipient : Bytes}
      (hexecuted : executed tx) (hdata : tx.data = .mintNFT collectionId itemId metadata recipient)
      (hissuer : collection.issuer = tx.sender) :
      ItemStep crypto executed collectionId itemId (some (collection, none))
        (some (collection, some { id := itemId, owner := recipient, metadata }))
  | moved {tx : Transaction} {collection : Collection} {item : NFTItem} (hexecuted : executed tx)
      (hdata : tx.data = .transferNFT collectionId itemId) (howner : item.owner = tx.sender) :
      ItemStep crypto executed collectionId itemId (some (collection, some item))
        (some (collection, some (item.ownedBy tx.receiver)))

/-- A transaction opens a channel, under the id that is computed from it, and one of the two partners
closes it, whatever it pays out: a close whose final balances miss the deposit fails only afterwards. -/
inductive ChannelStep (crypto : Crypto) (executed : Transaction → Prop) (channelId : Bytes) :
    Option PaymentChannel → Option PaymentChannel → Prop
  | opened {tx : Transaction} {partner : Bytes} {amount duration : UInt64} (hexecuted : executed tx)
      (hdata : tx.data = .openChannel partner amount duration)
      (hid : tx.calculateAssetId crypto = some channelId) :
      ChannelStep crypto executed channelId none
        (some { id := channelId, partnerA := tx.sender, partnerB := partner, totalDeposit := amount,
                expiry := duration, isClosed := false })
  | closed {tx : Transaction} {channel : PaymentChannel} {balanceProof : Bytes}
      {finalBalanceA finalBalanceB : UInt64} (hexecuted : executed tx)
      (hdata : tx.data = .closeChannel channelId balanceProof finalBalanceA finalBalanceB)
      (hopen : channel.isClosed = false)
      (hpartner : tx.sender = channel.partnerA ∨ tx.sender = channel.partnerB) :
      ChannelStep crypto executed channelId (some channel) (some channel.closed)

/-- Every record of the registries goes its steps. -/
structure Lawful (crypto : Crypto) (executed : Transaction → Prop) (s s' : State) : Prop where
  assets : ∀ assetId, Relation.ReflTransGen (AssetStep crypto executed assetId)
    (s.assets.lookup assetId) (s'.assets.lookup assetId)
  items : ∀ collectionId itemId, Relation.ReflTransGen (ItemStep crypto executed collectionId itemId)
    (s.item collectionId itemId) (s'.item collectionId itemId)
  channels : ∀ channelId, Relation.ReflTransGen (ChannelStep crypto executed channelId)
    (s.channels.lookup channelId) (s'.channels.lookup channelId)

variable {crypto : Crypto} {executed executed' offered : Transaction → Prop} {s s' s₁ : State}
  {tx : Transaction}

/-- Nothing happens to the registries. -/
theorem Lawful.of_same (h : s.SameRegistries s') : Lawful crypto executed s s' := by
  constructor
  · intro assetId
    rw [h.assets]
  · intro collectionId itemId
    unfold item
    rw [h.collections]
  · intro channelId
    rw [h.channels]

theorem Lawful.trans (h : Lawful crypto executed s s₁) (h' : Lawful crypto executed s₁ s') :
    Lawful crypto executed s s' :=
  ⟨fun assetId => (h.assets assetId).trans (h'.assets assetId),
    fun collectionId itemId => (h.items collectionId itemId).trans (h'.items collectionId itemId),
    fun channelId => (h.channels channelId).trans (h'.channels channelId)⟩

/-- More transactions may be executed. -/
theorem Lawful.mono (h : Lawful crypto executed s s') (hexecuted : ∀ tx, executed tx → executed' tx) :
    Lawful crypto executed' s s' := by
  constructor
  · intro assetId
    refine Relation.ReflTransGen.mono (fun before after hstep => ?_) _ _ (h.assets assetId)
    cases hstep with
    | registered htx hdata hid => exact .registered (hexecuted _ htx) hdata hid
  · intro collectionId itemId
    refine Relation.ReflTransGen.mono (fun before after hstep => ?_) _ _ (h.items collectionId itemId)
    cases hstep with
    | created htx hdata hid => exact .created (hexecuted _ htx) hdata hid
    | minted htx hdata hissuer => exact .minted (hexecuted _ htx) hdata hissuer
    | moved htx hdata howner => exact .moved (hexecuted _ htx) hdata howner
  · intro channelId
    refine Relation.ReflTransGen.mono (fun before after hstep => ?_) _ _ (h.channels channelId)
    cases hstep with
    | opened htx hdata hid => exact .opened (hexecuted _ htx) hdata hid
    | closed htx hdata hopen hpartner => exact .closed (hexecuted _ htx) hdata hopen hpartner

/-- Only the records of assets change. -/
theorem lawful_putAsset {assetId : Bytes} {asset : Asset}
    (hstep : AssetStep crypto executed assetId (s.assets.lookup assetId) (some asset)) :
    Lawful crypto executed s (s.putAsset assetId asset) := by
  refine ⟨fun other => ?_, fun _ _ => .refl, fun _ => .refl⟩
  change Relation.ReflTransGen _ _ ((s.assets.insert assetId asset).lookup other)
  rw [FiniteMap.lookup_insert_ite]
  split
  · rename_i heq
    rw [heq]
    exact .single hstep
  · exact .refl

/-- Only the records of channels change. -/
theorem lawful_putChannel {channelId : Bytes} {channel : PaymentChannel}
    (hstep : ChannelStep crypto executed channelId (s.channels.lookup channelId) (some channel)) :
    Lawful crypto executed s (s.putChannel channelId channel) := by
  refine ⟨fun _ => .refl, fun _ _ => .refl, fun other => ?_⟩
  change Relation.ReflTransGen _ _ ((s.channels.insert channelId channel).lookup other)
  rw [FiniteMap.lookup_insert_ite]
  split
  · rename_i heq
    rw [heq]
    exact .single hstep
  · exact .refl

/-- An item of a collection after one of its items was entered. -/
theorem item_putItem {collectionId : Bytes} {collection : Collection}
    (hcollection : s.collections.lookup collectionId = some collection) (itemId : UInt64)
    (entered : NFTItem) (other : Bytes) (otherItem : UInt64) :
    (s.putCollection collectionId (collection.putItem itemId entered)).item other otherItem =
      if other = collectionId ∧ otherItem = itemId then
        some ({ collection with items := ∅ }, some entered)
      else s.item other otherItem := by
  unfold item putCollection Collection.putItem
  rw [FiniteMap.lookup_insert_ite]
  by_cases hother : other = collectionId
  · subst hother
    rw [if_pos rfl, hcollection, Option.map_some, Option.map_some, FiniteMap.lookup_insert_ite]
    by_cases hitem : otherItem = itemId
    · simp [hitem]
    · simp [hitem]
  · simp [hother]

/-- Only one item changes. -/
theorem lawful_putItem {collectionId : Bytes} {collection : Collection} {itemId : UInt64}
    {entered : NFTItem} (hcollection : s.collections.lookup collectionId = some collection)
    (hstep : ItemStep crypto executed collectionId itemId
      (some ({ collection with items := ∅ }, collection.items.lookup itemId))
      (some ({ collection with items := ∅ }, some entered))) :
    Lawful crypto executed s (s.putCollection collectionId (collection.putItem itemId entered)) := by
  refine ⟨fun _ => .refl, fun other otherItem => ?_, fun _ => .refl⟩
  rw [item_putItem hcollection]
  split
  · rename_i heq
    rw [heq.1, heq.2]
    unfold item
    rw [hcollection]
    exact .single hstep
  · exact .refl

/-- A new collection has no items. -/
theorem lawful_newCollection {collectionId : Bytes} {collection : Collection}
    (hfresh : s.collections.lookup collectionId = none) (hempty : collection.items = ∅)
    (hstep : ∀ itemId, ItemStep crypto executed collectionId itemId none (some (collection, none))) :
    Lawful crypto executed s (s.putCollection collectionId collection) := by
  refine ⟨fun _ => .refl, fun other otherItem => ?_, fun _ => .refl⟩
  unfold item putCollection
  dsimp only
  rw [FiniteMap.lookup_insert_ite]
  split
  · rename_i heq
    have hface : ({ collection with items := ∅ } : Collection) = collection := by rw [← hempty]
    rw [heq, hfresh, Option.map_none, Option.map_some, hface, hempty]
    exact .single (hstep otherItem)
  · exact .refl

/-- Every effect is lawful. -/
theorem lawful_of_effect (h : Effect crypto s tx s') (hexecuted : executed tx) :
    Lawful crypto executed s s' := by
  cases h with
  | nativeTransfer | transferAsset | delegateSpend | registerValidator | unregisterValidator =>
    exact .of_same ⟨rfl, rfl, rfl⟩
  | createAsset hdata hid hfresh =>
    refine .trans (.of_same ?_) (lawful_putAsset ?_)
    · exact ⟨rfl, rfl, rfl⟩
    · rw [assets_modifyAccount, hfresh]
      exact .registered hexecuted hdata hid
  | createCollection hdata hid hfresh =>
    exact lawful_newCollection hfresh rfl fun itemId => .created hexecuted hdata hid
  | mintNFT hdata hcollection hissuer hfresh =>
    refine .trans (.of_same ?_) (lawful_putItem hcollection ?_)
    · exact ⟨rfl, rfl, rfl⟩
    · rw [hfresh]
      exact .minted hexecuted hdata hissuer
  | transferNFT hdata hcollection hitem howner hsender =>
    refine .trans (.of_same ?_) (lawful_putItem hcollection ?_)
    · exact ⟨rfl, rfl, rfl⟩
    · rw [hitem]
      exact .moved hexecuted hdata howner
  | openChannel hdata hsender hfunds hid hfresh =>
    refine .trans (.of_same ?_) (lawful_putChannel ?_)
    · exact ⟨rfl, rfl, rfl⟩
    · rw [channels_modifyAccount, hfresh]
      exact .opened hexecuted hdata hid
  | closeChannel hdata hchannel hopen hpartner hsum =>
    refine .trans (.of_same ?_) (lawful_putChannel ?_)
    · exact ⟨rfl, rfl, rfl⟩
    · rw [channels_modifyAccount, channels_modifyAccount, hchannel]
      exact .closed hexecuted hdata hopen hpartner

/-- So is what a failed transaction leaves. -/
theorem lawful_of_residue (h : Residue crypto s tx s') (hexecuted : executed tx) :
    Lawful crypto executed s s' := by
  cases h with
  | unchanged | debited => exact .of_same ⟨rfl, rfl, rfl⟩
  | markedClosed hdata hchannel hopen hpartner hsum =>
    refine lawful_putChannel ?_
    rw [hchannel]
    exact .closed hexecuted hdata hopen hpartner
  | ownerChanged hdata hcollection hitem howner hsender =>
    refine lawful_putItem hcollection ?_
    rw [hitem]
    exact .moved hexecuted hdata howner

/-- A ledger advances lawfully by the valid ones of the offered transactions. -/
theorem lawful_of_advances (h : Advances crypto offered s s')
    (hexecuted : ∀ tx, offered tx → tx.validate crypto = .ok () → executed tx) :
    Lawful crypto executed s s' := by
  refine h.invariant (Lawful crypto executed s) (.of_same ⟨rfl, rfl, rfl⟩)
    fun before after hadvance hbefore => hbefore.trans ?_
  cases hadvance with
  | effect htx hvalid hnonce heffect =>
    exact (lawful_of_effect heffect (hexecuted _ htx hvalid)).trans (.of_same ⟨rfl, rfl, rfl⟩)
  | residue htx hvalid hresidue => exact lawful_of_residue hresidue (hexecuted _ htx hvalid)
  | commit happly =>
    obtain ⟨-, hassets, hcollections, hchannels⟩ := accounts_applyChanges happly
    exact .of_same ⟨hassets, hcollections, hchannels⟩
  | discard | refund | write => exact .of_same ⟨rfl, rfl, rfl⟩

/-- A registered asset stays as it is. -/
theorem Lawful.asset_fixed (h : Lawful crypto executed s s') {assetId : Bytes} {asset : Asset}
    (hregistered : s.assets.lookup assetId = some asset) : s'.assets.lookup assetId = some asset := by
  have hsteps := h.assets assetId
  rw [hregistered] at hsteps
  generalize s'.assets.lookup assetId = after at hsteps ⊢
  induction hsteps with
  | refl => rfl
  | tail _ hstep ih =>
    rw [ih] at hstep
    cases hstep

/-- A closed channel stays as it is. -/
theorem Lawful.channel_final (h : Lawful crypto executed s s') {channelId : Bytes} {channel : PaymentChannel}
    (hfound : s.channels.lookup channelId = some channel) (hclosed : channel.isClosed = true) :
    s'.channels.lookup channelId = some channel := by
  have hsteps := h.channels channelId
  rw [hfound] at hsteps
  generalize s'.channels.lookup channelId = after at hsteps ⊢
  induction hsteps with
  | refl => rfl
  | tail _ hstep ih =>
    rw [ih] at hstep
    cases hstep with
    | closed _ _ hopen =>
      rw [hopen] at hclosed
      contradiction

end State

end Nocostcoin
