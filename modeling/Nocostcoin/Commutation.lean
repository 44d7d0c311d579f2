import Nocostcoin.Library.Footprint
import Nocostcoin.Atomicity
import Nocostcoin.Batch

/-!
# Independent transactions commute

What a transaction reads of the state to decide its outcome, and what it writes, belongs to the addresses
it involves, except for the ids that creations enter. Transactions that involve different addresses
therefore commute, whatever their outcomes.
-/

namespace Nocostcoin

/-- What a transaction can read of a state. -/
inductive LedgerPlace where
  /-- The account of an address. -/
  | account (address : Bytes)
  /-- Whether an asset is registered. -/
  | asset (assetId : Bytes)
  /-- Whether a collection is registered. -/
  | collection (collectionId : Bytes)
  /-- Whether an address is the issuer of a collection. -/
  | issuer (collectionId address : Bytes)
  /-- Whether an item exists. -/
  | item (collectionId : Bytes) (itemId : UInt64)
  /-- Whether an address owns an item. -/
  | owner (collectionId : Bytes) (itemId : UInt64) (address : Bytes)
  /-- Whether a channel exists. -/
  | channel (channelId : Bytes)
  /-- Whether an address is a partner of a channel. -/
  | partner (channelId address : Bytes)
  /-- The channel itself. -/
  | terms (channelId : Bytes)

/-- What a transaction can write to a state. -/
inductive LedgerWrite where
  | account (address : Bytes) (update : Account → Account)
  | asset (assetId : Bytes) (asset : Asset)
  /-- Enter an empty collection under a free id. -/
  | collection (collectionId : Bytes) (collection : Collection)
  /-- Enter an item under a free id. -/
  | mint (collectionId : Bytes) (itemId : UInt64) (item : NFTItem)
  /-- Pass an item on from its owner. -/
  | pass (collectionId : Bytes) (itemId : UInt64) (owner receiver : Bytes)
  /-- Enter a channel under a free id. -/
  | openChannel (channelId : Bytes) (channel : PaymentChannel)
  | closeChannel (channelId : Bytes)

/-- Whether an address is a partner of a channel. -/
def PaymentChannel.HasPartner (channel : PaymentChannel) (address : Bytes) : Prop :=
  address = channel.partnerA ∨ address = channel.partnerB

/-- Rewrite what is under an item id. -/
def Collection.alterItem (collection : Collection) (itemId : UInt64) (f : Option NFTItem → Option NFTItem) :
    Collection :=
  { collection with items := collection.items.alter itemId f }

namespace State

/-- Rewrite what is under a collection id. -/
def alterCollection (state : State) (collectionId : Bytes) (f : Option Collection → Option Collection) : State :=
  { state with collections := state.collections.alter collectionId f }

/-- Rewrite what is under a channel id. -/
def alterChannel (state : State) (channelId : Bytes) (f : Option PaymentChannel → Option PaymentChannel) : State :=
  { state with channels := state.channels.alter channelId f }

end State

namespace LedgerWrite

/-- What is under a collection id after an item of it was rewritten. -/
def alterItem (itemId : UInt64) (f : Option NFTItem → Option NFTItem) : Option Collection → Option Collection :=
  Option.map fun collection => collection.alterItem itemId f

/-- The item under its next owner, if the first owns it. -/
def passed (owner receiver : Bytes) : Option NFTItem → Option NFTItem :=
  Option.map fun item => if item.owner = owner then item.ownedBy receiver else item

/-- What a write does. -/
def perform : LedgerWrite → State → State
  | .account address update, state => state.modifyAccount address update
  | .asset assetId entry, state => state.putAsset assetId entry
  | .collection collectionId entry, state =>
      state.alterCollection collectionId fun found => found.or (some { entry with items := ∅ })
  | .mint collectionId itemId item, state =>
      state.alterCollection collectionId (alterItem itemId fun found => found.or (some item))
  | .pass collectionId itemId owner receiver, state =>
      state.alterCollection collectionId (alterItem itemId (passed owner receiver))
  | .openChannel channelId channel, state =>
      state.alterChannel channelId fun found => found.or (some channel)
  | .closeChannel channelId, state => state.alterChannel channelId (Option.map PaymentChannel.closed)

/-- The places that a write can change. -/
def Touches : LedgerWrite → LedgerPlace → Prop
  | .account address _, .account other => address = other
  | .asset assetId _, .asset other => assetId = other
  | .collection collectionId _, .collection other => collectionId = other
  | .collection collectionId entry, .issuer other address => collectionId = other ∧ entry.issuer = address
  | .mint collectionId itemId _, .item other otherItem => collectionId = other ∧ itemId = otherItem
  | .mint collectionId itemId item, .owner other otherItem address =>
      collectionId = other ∧ itemId = otherItem ∧ item.owner = address
  | .pass collectionId itemId owner receiver, .owner other otherItem address =>
      collectionId = other ∧ itemId = otherItem ∧ (owner = address ∨ receiver = address)
  | .openChannel channelId _, .channel other => channelId = other
  | .openChannel channelId channel, .partner other address => channelId = other ∧ channel.HasPartner address
  | .openChannel channelId _, .terms other => channelId = other
  | .closeChannel channelId, .terms other => channelId = other
  | _, _ => False

/-- Writes that need not commute. -/
def Meets : LedgerWrite → LedgerWrite → Prop
  | .account address _, .account other _ => address = other
  | .asset assetId _, .asset other _ => assetId = other
  | .collection collectionId _, .collection other _ => collectionId = other
  | .collection collectionId _, .mint other _ _ => collectionId = other
  | .collection collectionId _, .pass other _ _ _ => collectionId = other
  | .mint collectionId _ _, .collection other _ => collectionId = other
  | .pass collectionId _ _ _, .collection other _ => collectionId = other
  | .mint collectionId itemId _, .mint other otherItem _ => collectionId = other ∧ itemId = otherItem
  | .mint collectionId itemId _, .pass other otherItem _ _ => collectionId = other ∧ itemId = otherItem
  | .pass collectionId itemId _ _, .mint other otherItem _ => collectionId = other ∧ itemId = otherItem
  | .pass collectionId itemId _ _, .pass other otherItem _ _ => collectionId = other ∧ itemId = otherItem
  | .openChannel channelId _, .openChannel other _ => channelId = other
  | .openChannel channelId _, .closeChannel other => channelId = other
  | .closeChannel channelId, .openChannel other _ => channelId = other
  | .closeChannel channelId, .closeChannel other => channelId = other
  | _, _ => False

end LedgerWrite

namespace State

/-- Two states show the same at a place. -/
def SameAt : LedgerPlace → State → State → Prop
  | .account address, s, s' => s'.getAccount address = s.getAccount address
  | .asset assetId, s, s' => (s'.assets.lookup assetId).isSome = (s.assets.lookup assetId).isSome
  | .collection collectionId, s, s' =>
      (s'.collections.lookup collectionId).isSome = (s.collections.lookup collectionId).isSome
  | .issuer collectionId address, s, s' =>
      s'.holdings.issuer collectionId = some address ↔ s.holdings.issuer collectionId = some address
  | .item collectionId itemId, s, s' =>
      (s'.ownerOf collectionId itemId).isSome = (s.ownerOf collectionId itemId).isSome
  | .owner collectionId itemId address, s, s' =>
      s'.ownerOf collectionId itemId = some address ↔ s.ownerOf collectionId itemId = some address
  | .channel channelId, s, s' => (s'.channels.lookup channelId).isSome = (s.channels.lookup channelId).isSome
  | .partner channelId address, s, s' =>
      (∃ channel, s'.channels.lookup channelId = some channel ∧ channel.HasPartner address) ↔
        ∃ channel, s.channels.lookup channelId = some channel ∧ channel.HasPartner address
  | .terms channelId, s, s' => s'.channels.lookup channelId = s.channels.lookup channelId

theorem SameAt.refl (place : LedgerPlace) (s : State) : SameAt place s s := by
  cases place <;> first | exact Eq.refl _ | exact Iff.refl _

theorem SameAt.trans (place : LedgerPlace) (s s' s'' : State) (h : SameAt place s s') (h' : SameAt place s' s'') :
    SameAt place s s'' := by
  cases place <;> first | exact Eq.trans h' h | exact Iff.trans h' h

/-- Rewriting an item leaves the header of every collection. -/
theorem header_alterItem (s : State) (collectionId other : Bytes) (itemId : UInt64)
    (f : Option NFTItem → Option NFTItem) :
    ((s.alterCollection collectionId (LedgerWrite.alterItem itemId f)).collections.lookup other).map
        Collection.issuer = (s.collections.lookup other).map Collection.issuer := by
  rw [alterCollection, FiniteMap.lookup_alter]
  split
  · rename_i heq
    rw [heq]
    cases s.collections.lookup collectionId <;> rfl
  · rfl

/-- So it leaves which collections there are. -/
theorem isSome_alterItem (s : State) (collectionId other : Bytes) (itemId : UInt64)
    (f : Option NFTItem → Option NFTItem) :
    ((s.alterCollection collectionId (LedgerWrite.alterItem itemId f)).collections.lookup other).isSome =
      (s.collections.lookup other).isSome := by
  have hheader := congrArg Option.isSome (s.header_alterItem collectionId other itemId f)
  rwa [Option.isSome_map, Option.isSome_map] at hheader

/-- Reading an owner after an item was rewritten. -/
theorem ownerOf_alterItem (s : State) (collectionId other : Bytes) (itemId otherItem : UInt64)
    (f : Option NFTItem → Option NFTItem) :
    (s.alterCollection collectionId (LedgerWrite.alterItem itemId f)).ownerOf other otherItem =
      if collectionId = other ∧ itemId = otherItem then
        ((s.collections.lookup collectionId).bind fun collection => f (collection.items.lookup itemId)).map
          NFTItem.owner
      else s.ownerOf other otherItem := by
  rw [ownerOf, alterCollection, FiniteMap.lookup_alter, ownerOf]
  by_cases hcollection : other = collectionId
  · subst hcollection
    rw [if_pos rfl]
    cases s.collections.lookup other with
    | none => simp [LedgerWrite.alterItem]
    | some collection =>
      simp only [LedgerWrite.alterItem, Option.map_some, Option.bind_some, Collection.alterItem,
        FiniteMap.lookup_alter, true_and, eq_comm]
      split <;> rfl
  · rw [if_neg hcollection, if_neg fun h => hcollection h.1.symm]

/-- Reading an owner after an empty collection was entered under a free id. -/
theorem ownerOf_performCollection (s : State) (collectionId other : Bytes) (entry : Collection)
    (itemId : UInt64) :
    ((LedgerWrite.collection collectionId entry).perform s).ownerOf other itemId = s.ownerOf other itemId := by
  rw [ownerOf, LedgerWrite.perform, alterCollection, FiniteMap.lookup_alter, ownerOf]
  split
  · rename_i heq
    rw [heq]
    cases s.collections.lookup collectionId <;> rfl
  · rfl

/-- Reading a channel after one was rewritten. -/
theorem lookup_alterChannel (s : State) (channelId other : Bytes)
    (f : Option PaymentChannel → Option PaymentChannel) :
    (s.alterChannel channelId f).channels.lookup other =
      if other = channelId then f (s.channels.lookup channelId) else s.channels.lookup other :=
  FiniteMap.lookup_alter s.channels channelId other f

/-- A write keeps the places that it does not touch. -/
theorem sameAt_perform {write : LedgerWrite} {place : LedgerPlace} (h : ¬ write.Touches place) (s : State) :
    SameAt place s (write.perform s) := by
  cases write with
  | account address update =>
    cases place with
    | account other =>
      have hne : other ≠ address := fun heq => h heq.symm
      exact (getAccount_insertPending s address other _).trans (if_neg hne)
    | _ => first | exact Eq.refl _ | exact Iff.refl _
  | asset assetId entry =>
    cases place with
    | asset other =>
      have hne : other ≠ assetId := fun heq => h heq.symm
      have hlookup := FiniteMap.lookup_insert_ite s.assets assetId other entry
      rw [if_neg hne] at hlookup
      exact congrArg Option.isSome hlookup
    | _ => first | exact Eq.refl _ | exact Iff.refl _
  | collection collectionId entry =>
    have hlookup := fun other => FiniteMap.lookup_alter s.collections collectionId other
      fun found => found.or (some { entry with items := ∅ })
    cases place with
    | collection other =>
      have hne : other ≠ collectionId := fun heq => h heq.symm
      exact congrArg Option.isSome ((hlookup other).trans (if_neg hne))
    | issuer other address =>
      have hissuer := congrArg (Option.map Collection.issuer) (hlookup other)
      by_cases heq : other = collectionId
      · subst heq
        rw [if_pos rfl] at hissuer
        cases hfound : s.collections.lookup other with
        | none =>
          rw [hfound] at hissuer
          have hother : entry.issuer ≠ address := fun hsame => h ⟨rfl, hsame⟩
          simp only [SameAt, LedgerWrite.perform, alterCollection, holdings, hissuer, hfound]
          simp [hother]
        | some found =>
          rw [hfound] at hissuer
          simp only [SameAt, LedgerWrite.perform, alterCollection, holdings, hissuer, hfound]
          rfl
      · rw [if_neg heq] at hissuer
        exact iff_of_eq (congrArg (· = some address) hissuer)
    | item other otherItem => exact congrArg Option.isSome (ownerOf_performCollection s _ _ _ _)
    | owner other otherItem address =>
      exact iff_of_eq (congrArg (· = some address) (ownerOf_performCollection s _ _ _ _))
    | _ => first | exact Eq.refl _ | exact Iff.refl _
  | mint collectionId itemId item =>
    have howner := fun other otherItem => s.ownerOf_alterItem collectionId other itemId otherItem
      fun found => found.or (some item)
    cases place with
    | collection other => exact s.isSome_alterItem collectionId other itemId _
    | issuer other address =>
      exact iff_of_eq (congrArg (· = some address) (s.header_alterItem collectionId other itemId _))
    | item other otherItem => exact congrArg Option.isSome ((howner other otherItem).trans (if_neg h))
    | owner other otherItem address =>
      have hread := howner other otherItem
      by_cases heq : collectionId = other ∧ itemId = otherItem
      · rw [if_pos heq] at hread
        obtain ⟨rfl, rfl⟩ := heq
        have hother : item.owner ≠ address := fun hsame => h ⟨rfl, rfl, hsame⟩
        refine Eq.to_iff (congrArg (· = some address) hread) |>.trans ?_
        rw [ownerOf]
        cases s.collections.lookup collectionId with
        | none => exact Iff.rfl
        | some collection =>
          cases hfound : collection.items.lookup itemId <;> simp [hfound, hother]
      · rw [if_neg heq] at hread
        exact iff_of_eq (congrArg (· = some address) hread)
    | _ => first | exact Eq.refl _ | exact Iff.refl _
  | pass collectionId itemId owner receiver =>
    have howner := fun other otherItem => s.ownerOf_alterItem collectionId other itemId otherItem
      (LedgerWrite.passed owner receiver)
    cases place with
    | collection other => exact s.isSome_alterItem collectionId other itemId _
    | issuer other address =>
      exact iff_of_eq (congrArg (· = some address) (s.header_alterItem collectionId other itemId _))
    | item other otherItem =>
      have hread := congrArg Option.isSome (howner other otherItem)
      by_cases heq : collectionId = other ∧ itemId = otherItem
      · rw [if_pos heq] at hread
        obtain ⟨rfl, rfl⟩ := heq
        refine hread.trans ?_
        rw [ownerOf]
        cases s.collections.lookup collectionId with
        | none => rfl
        | some collection => simp [LedgerWrite.passed]
      · rw [if_neg heq] at hread
        exact hread
    | owner other otherItem address =>
      have hread := howner other otherItem
      by_cases heq : collectionId = other ∧ itemId = otherItem
      · rw [if_pos heq] at hread
        obtain ⟨rfl, rfl⟩ := heq
        have hfrom : owner ≠ address := fun hsame => h ⟨rfl, rfl, .inl hsame⟩
        have hto : receiver ≠ address := fun hsame => h ⟨rfl, rfl, .inr hsame⟩
        refine Eq.to_iff (congrArg (· = some address) hread) |>.trans ?_
        rw [ownerOf]
        cases s.collections.lookup collectionId with
        | none => exact Iff.rfl
        | some collection =>
          cases hfound : collection.items.lookup itemId with
          | none => simp [hfound, LedgerWrite.passed]
          | some item =>
            by_cases hheld : item.owner = owner
            · simp [hfound, LedgerWrite.passed, hheld, NFTItem.ownedBy, hfrom, hto]
            · simp [hfound, LedgerWrite.passed, hheld]
      · rw [if_neg heq] at hread
        exact iff_of_eq (congrArg (· = some address) hread)
    | _ => first | exact Eq.refl _ | exact Iff.refl _
  | openChannel channelId channel =>
    have hlookup := fun other => s.lookup_alterChannel channelId other fun found => found.or (some channel)
    cases place with
    | channel other =>
      have hne : other ≠ channelId := fun heq => h heq.symm
      exact congrArg Option.isSome ((hlookup other).trans (if_neg hne))
    | partner other address =>
      have hread := hlookup other
      by_cases heq : other = channelId
      · subst heq
        rw [if_pos rfl] at hread
        have hother : ¬ channel.HasPartner address := fun hpartner => h ⟨rfl, hpartner⟩
        simp only [SameAt, LedgerWrite.perform, hread]
        cases s.channels.lookup other <;> simp [hother]
      · rw [if_neg heq] at hread
        simp only [SameAt, LedgerWrite.perform, hread]
    | terms other =>
      have hne : other ≠ channelId := fun heq => h heq.symm
      exact (hlookup other).trans (if_neg hne)
    | _ => first | exact Eq.refl _ | exact Iff.refl _
  | closeChannel channelId =>
    have hlookup := fun other => s.lookup_alterChannel channelId other (Option.map PaymentChannel.closed)
    cases place with
    | channel other =>
      refine (congrArg Option.isSome (hlookup other)).trans ?_
      split
      · rename_i heq
        rw [heq, Option.isSome_map]
      · rfl
    | partner other address =>
      have hread := hlookup other
      simp only [SameAt, LedgerWrite.perform, hread]
      split
      · rename_i heq
        rw [heq]
        cases s.channels.lookup channelId <;> simp [PaymentChannel.HasPartner, PaymentChannel.closed]
      · exact Iff.rfl
    | terms other =>
      have hne : other ≠ channelId := fun heq => h heq.symm
      exact (hlookup other).trans (if_neg hne)
    | _ => first | exact Eq.refl _ | exact Iff.refl _

/-- Rewriting two accounts in either order. -/
theorem modifyAccount_comm {address other : Bytes} (hne : address ≠ other) (update update' : Account → Account)
    (s : State) : (s.modifyAccount other update').modifyAccount address update =
      (s.modifyAccount address update).modifyAccount other update' := by
  have hfirst := s.accountOrNew_modifyAccount other address update'
  have hsecond := s.accountOrNew_modifyAccount address other update
  rw [if_neg hne] at hfirst
  rw [if_neg hne.symm] at hsecond
  rw [modifyAccount, hfirst, modifyAccount.eq_def (s.modifyAccount address update), hsecond]
  unfold modifyAccount insertPending
  dsimp only
  rw [FiniteMap.insert_comm hne.symm]

/-- Rewriting two collections in either order. -/
theorem alterCollection_comm {collectionId other : Bytes} (hne : collectionId ≠ other)
    (f g : Option Collection → Option Collection) (s : State) :
    (s.alterCollection other g).alterCollection collectionId f =
      (s.alterCollection collectionId f).alterCollection other g := by
  unfold alterCollection
  dsimp only
  rw [FiniteMap.alter_comm hne.symm]

/-- Rewriting two items in either order. -/
theorem alterItem_comm {collectionId other : Bytes} {itemId otherItem : UInt64}
    (hne : ¬ (collectionId = other ∧ itemId = otherItem)) (f g : Option NFTItem → Option NFTItem) (s : State) :
    (s.alterCollection other (LedgerWrite.alterItem otherItem g)).alterCollection collectionId
        (LedgerWrite.alterItem itemId f) =
      (s.alterCollection collectionId (LedgerWrite.alterItem itemId f)).alterCollection other
        (LedgerWrite.alterItem otherItem g) := by
  by_cases hcollection : collectionId = other
  · subst hcollection
    have hitem : itemId ≠ otherItem := fun heq => hne ⟨rfl, heq⟩
    unfold alterCollection
    dsimp only
    rw [FiniteMap.alter_alter, FiniteMap.alter_alter]
    congr 2
    funext found
    cases found with
    | none => rfl
    | some collection =>
      simp only [LedgerWrite.alterItem, Collection.alterItem, Function.comp_apply, Option.map_some]
      rw [FiniteMap.alter_comm hitem.symm]
  · exact alterCollection_comm hcollection _ _ s

/-- Rewriting two channels in either order. -/
theorem alterChannel_comm {channelId other : Bytes} (hne : channelId ≠ other)
    (f g : Option PaymentChannel → Option PaymentChannel) (s : State) :
    (s.alterChannel other g).alterChannel channelId f = (s.alterChannel channelId f).alterChannel other g := by
  unfold alterChannel
  dsimp only
  rw [FiniteMap.alter_comm hne.symm]

/-- Writes that do not meet commute. -/
theorem perform_comm {write write' : LedgerWrite} (h : ¬ write.Meets write') :
    Function.Commute write.perform write'.perform := by
  intro s
  cases write with
  | account address update =>
    cases write' with
    | account other update' => exact modifyAccount_comm h update update' s
    | _ => rfl
  | asset assetId entry =>
    cases write' with
    | asset other entry' =>
      unfold LedgerWrite.perform putAsset
      dsimp only
      rw [FiniteMap.insert_comm fun heq => h heq.symm]
    | _ => rfl
  | collection collectionId entry =>
    cases write' with
    | collection | mint | pass => exact alterCollection_comm h _ _ s
    | _ => rfl
  | mint collectionId itemId item =>
    cases write' with
    | collection => exact alterCollection_comm h _ _ s
    | mint | pass => exact alterItem_comm h _ _ s
    | _ => rfl
  | pass collectionId itemId owner receiver =>
    cases write' with
    | collection => exact alterCollection_comm h _ _ s
    | mint | pass => exact alterItem_comm h _ _ s
    | _ => rfl
  | openChannel channelId channel =>
    cases write' with
    | openChannel | closeChannel => exact alterChannel_comm h _ _ s
    | _ => rfl
  | closeChannel channelId =>
    cases write' with
    | openChannel | closeChannel => exact alterChannel_comm h _ _ s
    | _ => rfl

/-- The addresses that a transaction involves. -/
def involved (state : State) (tx : Transaction) : List Bytes :=
  tx.sender :: match tx.data with
    | .nativeTransfer _ => [tx.receiver]
    | .transferAsset _ _ => [tx.receiver]
    | .transferNFT _ _ => [tx.receiver]
    | .mintNFT _ _ _ recipient => [recipient]
    | .openChannel partner _ _ => [partner]
    | .closeChannel channelId _ _ _ =>
      match state.channels.lookup channelId with
      | some channel => [channel.partnerA, channel.partnerB]
      | none => []
    | _ => []

/-- The sender is involved. -/
theorem sender_mem_involved (s : State) (tx : Transaction) : tx.sender ∈ s.involved tx := List.mem_cons_self

end State

/-- What a transaction reads of a state to decide what it writes. -/
inductive MayRead (crypto : Crypto) (s : State) (tx : Transaction) : LedgerPlace → Prop
  | account : MayRead crypto s tx (.account tx.sender)
  | newAsset {assetId : Bytes} (hid : tx.calculateAssetId crypto = some assetId) :
      MayRead crypto s tx (.asset assetId)
  | asset {assetId : Bytes} (hasset : (s.assets.lookup assetId).isSome) : MayRead crypto s tx (.asset assetId)
  | newCollection {collectionId : Bytes} (hid : tx.calculateAssetId crypto = some collectionId) :
      MayRead crypto s tx (.collection collectionId)
  | issuer {collectionId : Bytes} : MayRead crypto s tx (.issuer collectionId tx.sender)
  | item {collectionId : Bytes} {itemId : UInt64} (hissuer : s.holdings.issuer collectionId = some tx.sender) :
      MayRead crypto s tx (.item collectionId itemId)
  | owner {collectionId : Bytes} {itemId : UInt64} : MayRead crypto s tx (.owner collectionId itemId tx.sender)
  | newChannel {channelId : Bytes} (hid : tx.calculateAssetId crypto = some channelId) :
      MayRead crypto s tx (.channel channelId)
  | partner {channelId : Bytes} : MayRead crypto s tx (.partner channelId tx.sender)
  | terms {channelId : Bytes} {channel : PaymentChannel} (hchannel : s.channels.lookup channelId = some channel)
      (hinvolved : channel.partnerA ∈ s.involved tx) : MayRead crypto s tx (.terms channelId)

/-- What a transaction writes to a state. -/
inductive MayWrite (crypto : Crypto) (s : State) (tx : Transaction) : LedgerWrite → Prop
  | account {address : Bytes} {update : Account → Account} (hinvolved : address ∈ s.involved tx) :
      MayWrite crypto s tx (.account address update)
  | asset {assetId : Bytes} {asset : Asset} (hid : tx.calculateAssetId crypto = some assetId)
      (hfresh : s.assets.lookup assetId = none) : MayWrite crypto s tx (.asset assetId asset)
  | collection {collectionId : Bytes} {collection : Collection}
      (hid : tx.calculateAssetId crypto = some collectionId) (hissuer : collection.issuer = tx.sender)
      (hfresh : s.collections.lookup collectionId = none) :
      MayWrite crypto s tx (.collection collectionId collection)
  | mint {collectionId : Bytes} {itemId : UInt64} {item : NFTItem}
      (hissuer : s.holdings.issuer collectionId = some tx.sender) (hfresh : s.ownerOf collectionId itemId = none)
      (howner : item.owner ∈ s.involved tx) : MayWrite crypto s tx (.mint collectionId itemId item)
  | pass {collectionId : Bytes} {itemId : UInt64} {receiver : Bytes}
      (howner : s.ownerOf collectionId itemId = some tx.sender) (hreceiver : receiver ∈ s.involved tx) :
      MayWrite crypto s tx (.pass collectionId itemId tx.sender receiver)
  | openChannel {channelId : Bytes} {channel : PaymentChannel}
      (hid : tx.calculateAssetId crypto = some channelId) (hfresh : s.channels.lookup channelId = none)
      (hinvolved : ∀ address, channel.HasPartner address → address ∈ s.involved tx) :
      MayWrite crypto s tx (.openChannel channelId channel)
  | closeChannel {channelId : Bytes} {channel : PaymentChannel}
      (hchannel : s.channels.lookup channelId = some channel) (hinvolved : channel.partnerA ∈ s.involved tx) :
      MayWrite crypto s tx (.closeChannel channelId)

namespace State

variable {crypto : Crypto} {s : State} {tx tx' : Transaction}

/-- Different addresses are involved, and the ids to create differ. -/
structure Independent (crypto : Crypto) (s : State) (tx tx' : Transaction) : Prop where
  addresses : ∀ address, address ∈ s.involved tx → address ∉ s.involved tx'
  ids : ∀ id, tx.calculateAssetId crypto = some id → tx'.calculateAssetId crypto ≠ some id

/-- Independence goes both ways. -/
theorem Independent.symm (h : s.Independent crypto tx tx') : s.Independent crypto tx' tx where
  addresses address hinvolved hother := h.addresses address hother hinvolved
  ids id hid hother := h.ids id hother hid

/-- The senders are different. -/
theorem Independent.sender_ne (h : s.Independent crypto tx tx') : tx.sender ≠ tx'.sender := by
  intro heq
  exact h.addresses tx.sender (s.sender_mem_involved tx) (heq ▸ s.sender_mem_involved tx')

/-- An id that is free is not that of a collection with an issuer. -/
theorem collection_ne_of_issuer {collectionId other issuer : Bytes}
    (hfresh : s.collections.lookup collectionId = none) (hissuer : s.holdings.issuer other = some issuer) :
    collectionId ≠ other := by
  rintro rfl
  have hnone : s.holdings.issuer collectionId = none := by simp only [holdings, hfresh, Option.map_none]
  rw [hnone] at hissuer
  contradiction

/-- Nor that of a collection with an owned item. -/
theorem collection_ne_of_owner {collectionId other owner : Bytes} {itemId : UInt64}
    (hfresh : s.collections.lookup collectionId = none) (howner : s.ownerOf other itemId = some owner) :
    collectionId ≠ other := by
  rintro rfl
  rw [ownerOf, hfresh] at howner
  contradiction

/-- One transaction does not write what the other reads. -/
theorem Independent.not_touches (h : s.Independent crypto tx tx') {write : LedgerWrite} {place : LedgerPlace}
    (hwrite : MayWrite crypto s tx write) (hread : MayRead crypto s tx' place) : ¬ write.Touches place := by
  have hsender := s.sender_mem_involved tx'
  cases hwrite with
  | account hinvolved =>
    cases hread with
    | account => exact fun heq => h.addresses _ hinvolved (heq ▸ hsender)
    | _ => exact id
  | asset hid hfresh =>
    cases hread with
    | newAsset hid' => exact fun heq => h.ids _ hid (heq ▸ hid')
    | asset hasset =>
      rintro rfl
      rw [hfresh] at hasset
      contradiction
    | _ => exact id
  | collection hid hissuer hfresh =>
    cases hread with
    | newCollection hid' => exact fun heq => h.ids _ hid (heq ▸ hid')
    | issuer => exact fun heq => h.sender_ne (hissuer.symm.trans heq.2)
    | _ => exact id
  | mint hissuer hfresh howner =>
    cases hread with
    | item hissuer' =>
      rintro ⟨rfl, rfl⟩
      exact h.sender_ne (Option.some.inj (hissuer.symm.trans hissuer'))
    | owner => exact fun heq => h.addresses _ howner (heq.2.2 ▸ hsender)
    | _ => exact id
  | pass howner hreceiver =>
    cases hread with
    | owner =>
      rintro ⟨-, -, heq | heq⟩
      · exact h.sender_ne heq
      · exact h.addresses _ hreceiver (heq ▸ hsender)
    | _ => exact id
  | openChannel hid hfresh hinvolved =>
    cases hread with
    | newChannel hid' => exact fun heq => h.ids _ hid (heq ▸ hid')
    | partner => exact fun heq => h.addresses _ (hinvolved _ heq.2) hsender
    | terms hchannel =>
      rintro rfl
      rw [hfresh] at hchannel
      contradiction
    | _ => exact id
  | closeChannel hchannel hinvolved =>
    cases hread with
    | terms hchannel' hinvolved' =>
      rintro rfl
      obtain rfl := Option.some.inj (hchannel.symm.trans hchannel')
      exact h.addresses _ hinvolved hinvolved'
    | _ => exact id

/-- The writes of the two do not meet. -/
theorem Independent.not_meets (h : s.Independent crypto tx tx') {write write' : LedgerWrite}
    (hwrite : MayWrite crypto s tx write) (hwrite' : MayWrite crypto s tx' write') : ¬ write.Meets write' := by
  cases hwrite with
  | account hinvolved =>
    cases hwrite' with
    | account hinvolved' => exact fun heq => h.addresses _ hinvolved (heq ▸ hinvolved')
    | _ => exact id
  | asset hid hfresh =>
    cases hwrite' with
    | asset hid' => exact fun heq => h.ids _ hid (heq ▸ hid')
    | _ => exact id
  | collection hid hissuer hfresh =>
    cases hwrite' with
    | collection hid' => exact fun heq => h.ids _ hid (heq ▸ hid')
    | mint hissuer' => exact fun heq => collection_ne_of_issuer hfresh hissuer' heq
    | pass howner' => exact fun heq => collection_ne_of_owner hfresh howner' heq
    | _ => exact id
  | mint hissuer hfresh howner =>
    cases hwrite' with
    | collection hid' hissuer' hfresh' => exact fun heq => collection_ne_of_issuer hfresh' hissuer heq.symm
    | mint hissuer' =>
      rintro ⟨rfl, rfl⟩
      exact h.sender_ne (Option.some.inj (hissuer.symm.trans hissuer'))
    | pass howner' =>
      rintro ⟨rfl, rfl⟩
      rw [hfresh] at howner'
      contradiction
    | _ => exact id
  | pass howner hreceiver =>
    cases hwrite' with
    | collection hid' hissuer' hfresh' => exact fun heq => collection_ne_of_owner hfresh' howner heq.symm
    | mint hissuer' hfresh' =>
      rintro ⟨rfl, rfl⟩
      rw [hfresh'] at howner
      contradiction
    | pass howner' =>
      rintro ⟨rfl, rfl⟩
      exact h.sender_ne (Option.some.inj (howner.symm.trans howner'))
    | _ => exact id
  | openChannel hid hfresh hinvolved =>
    cases hwrite' with
    | openChannel hid' => exact fun heq => h.ids _ hid (heq ▸ hid')
    | closeChannel hchannel' =>
      rintro rfl
      rw [hfresh] at hchannel'
      contradiction
    | _ => exact id
  | closeChannel hchannel hinvolved =>
    cases hwrite' with
    | openChannel hid' hfresh' =>
      rintro rfl
      rw [hfresh'] at hchannel
      contradiction
    | closeChannel hchannel' hinvolved' =>
      rintro rfl
      obtain rfl := Option.some.inj (hchannel.symm.trans hchannel')
      exact h.addresses _ hinvolved hinvolved'
    | _ => exact id

/-- The method reads and makes only what the transaction may. -/
def Follows (crypto : Crypto) (s : State) (tx : Transaction) (run : State → Outcome State) : Prop :=
  Footprint.Follows LedgerWrite.perform SameAt (fun state => ((run state).1.isOk, (run state).2))
    (MayRead crypto s tx) (MayWrite crypto s tx) s

variable {run : State → Outcome State} {s' : State}

/-- A method that succeeds with the same writes wherever the reads are the same. -/
theorem follows_of_ok (writes : List LedgerWrite) (hwrites : ∀ write ∈ writes, MayWrite crypto s tx write)
    (hrun : ∀ s', (∀ place, MayRead crypto s tx place → SameAt place s s') →
      run s' = (.ok (), Footprint.performAll LedgerWrite.perform writes s')) : Follows crypto s tx run :=
  ⟨true, writes, hwrites, fun s' hagree => by dsimp only; rw [hrun s' hagree]; rfl⟩

/-- A method that fails so. -/
theorem follows_of_error (writes : List LedgerWrite) (hwrites : ∀ write ∈ writes, MayWrite crypto s tx write)
    (hrun : ∀ s', (∀ place, MayRead crypto s tx place → SameAt place s s') →
      ∃ error, run s' = (.error error, Footprint.performAll LedgerWrite.perform writes s')) :
    Follows crypto s tx run := by
  refine ⟨false, writes, hwrites, fun s' hagree => ?_⟩
  obtain ⟨error, hresult⟩ := hrun s' hagree
  dsimp only
  rw [hresult]
  rfl

/-- A method that fails without a trace wherever the reads are the same. -/
theorem follows_of_not_ok
    (hrun : ∀ s', (∀ place, MayRead crypto s tx place → SameAt place s s') →
      (run s').1 ≠ .ok () ∧ ∀ error s'', run s' = (.error error, s'') → s'' = s') :
    Follows crypto s tx run := by
  refine follows_of_error [] (fun write hwrite => nomatch hwrite) fun s' hagree => ?_
  obtain ⟨hfails, herror⟩ := hrun s' hagree
  rcases hresult : run s' with ⟨error | ⟨⟨⟩⟩, s''⟩
  · exact ⟨error, by rw [herror error s'' hresult]; rfl⟩
  · exact absurd (by rw [hresult]) hfails

/-- A method that fails without a trace, and whose success hangs on what is read. -/
theorem follows_of_guard (writes : List LedgerWrite)
    (hwrites : (run s).1 = .ok () → ∀ write ∈ writes, MayWrite crypto s tx write)
    (hok : ∀ s' s'', run s' = (.ok (), s'') → s'' = Footprint.performAll LedgerWrite.perform writes s')
    (herror : ∀ s' error s'', run s' = (.error error, s'') → s'' = s')
    (hguard : ∀ s', (∀ place, MayRead crypto s tx place → SameAt place s s') →
      ((run s').1 = .ok () ↔ (run s).1 = .ok ())) : Follows crypto s tx run := by
  by_cases hsucceeds : (run s).1 = .ok ()
  · refine follows_of_ok writes (hwrites hsucceeds) fun s' hagree => ?_
    have hresult := Prod.fst_eq_iff.mp ((hguard s' hagree).mpr hsucceeds)
    rw [hresult, hok s' _ hresult]
  · exact follows_of_not_ok fun s' hagree => ⟨mt (hguard s' hagree).mp hsucceeds, herror s'⟩

section

variable (hagree : ∀ place, MayRead crypto s tx place → SameAt place s s')

include hagree

/-- The sender's account is read. -/
theorem accountOrNew_of_agree : s'.accountOrNew tx.sender = s.accountOrNew tx.sender :=
  congrArg (fun found => found.getD (Account.new 0)) (hagree _ .account)

theorem known_of_agree : s'.holdings.known tx.sender = s.holdings.known tx.sender :=
  congrArg Option.isSome (hagree _ .account)

theorem balance_of_agree : s'.holdings.balance tx.sender = s.holdings.balance tx.sender :=
  congrArg Account.balance (accountOrNew_of_agree hagree)

theorem assetBalance_of_agree (assetId : Bytes) :
    s'.holdings.assetBalance assetId tx.sender = s.holdings.assetBalance assetId tx.sender :=
  congrArg (Account.assetBalance assetId) (accountOrNew_of_agree hagree)

theorem getNonce_of_agree : s'.getNonce tx.sender = s.getNonce tx.sender := by
  rw [getNonce_eq, getNonce_eq, accountOrNew_of_agree hagree]

end

/-- Options that are there alike are missing alike. -/
theorem eq_none_iff_of_isSome_eq {α : Type} {found found' : Option α} (h : found'.isSome = found.isSome) :
    found' = none ↔ found = none := by
  rw [← Option.not_isSome_iff_eq_none, ← Option.not_isSome_iff_eq_none, h]

/-- The sender's account may be written. -/
theorem mayWrite_sender (update : Account → Account) : MayWrite crypto s tx (.account tx.sender update) :=
  .account (s.sender_mem_involved tx)

/-- The arms, one by one: a native transfer looks at the sender's account only. -/
theorem follows_transferNative {amount : UInt64} (hdata : tx.data = .nativeTransfer amount) :
    Follows crypto s tx fun state => state.transferNative tx.sender tx.receiver amount := by
  have hreceiver : tx.receiver ∈ s.involved tx := by simp [involved, hdata]
  refine follows_of_guard [.account tx.sender (.debit amount), .account tx.receiver (.credit amount)] ?_ ?_ ?_ ?_
  · simp [mayWrite_sender, MayWrite.account hreceiver]
  · exact fun s' s'' h => (transferNative_ok h).2.2.2
  · exact fun s' error s'' h => transferNative_error h
  · intro s' hagree
    rw [transferNative_isOk_iff, transferNative_isOk_iff, known_of_agree hagree, balance_of_agree hagree]

/-- A creation looks at its id. -/
theorem follows_createAsset {name symbol : String} {supply : UInt64} {decimals : UInt8} {metadata : Bytes}
    (hdata : tx.data = .createAsset name symbol supply decimals metadata) :
    Follows crypto s tx fun state =>
      state.createAsset crypto tx.sender tx name symbol supply decimals metadata := by
  obtain ⟨assetId, hid⟩ : ∃ assetId, tx.calculateAssetId crypto = some assetId := by
    simp [Transaction.calculateAssetId, hdata]
  refine follows_of_guard [.account tx.sender (.setAsset assetId supply), .asset assetId
    { id := assetId, issuer := tx.sender, name, symbol, totalSupply := supply, decimals, metadata }] ?_ ?_ ?_ ?_
  · intro hsucceeds
    have hfresh : s.assets.lookup assetId = none := by
      simpa [holdings] using (createAsset_isOk_iff hid).mp hsucceeds
    simp [mayWrite_sender, MayWrite.asset hid hfresh]
  · intro s' s'' h
    obtain ⟨created, hcreated, -, rfl⟩ := createAsset_ok h
    obtain rfl := Option.some.inj (hid.symm.trans hcreated)
    rfl
  · exact fun s' error s'' h => createAsset_error h
  · intro s' hagree
    have hregistered : s'.holdings.registered assetId = s.holdings.registered assetId := hagree _ (.newAsset hid)
    rw [createAsset_isOk_iff hid, createAsset_isOk_iff hid, hregistered]

/-- An asset transfer looks at the registration if there is one. -/
theorem follows_transferAsset {assetId : Bytes} {amount : UInt64} (hbacked : s.AssetsBacked)
    (hdata : tx.data = .transferAsset assetId amount) (hamount : amount ≠ 0) :
    Follows crypto s tx fun state => state.transferAsset tx.sender tx.receiver assetId amount := by
  have hreceiver : tx.receiver ∈ s.involved tx := by simp [involved, hdata]
  by_cases hasset : (s.assets.lookup assetId).isSome
  · refine follows_of_guard [
      .account tx.sender (fun account => account.setAsset assetId (account.assetBalance assetId - amount)),
      .account tx.receiver (fun account => account.setAsset assetId (account.assetBalance assetId + amount))]
      ?_ ?_ ?_ ?_
    · simp [mayWrite_sender, MayWrite.account hreceiver]
    · exact fun s' s'' h => (transferAsset_ok h).2.2.2
    · exact fun s' error s'' h => transferAsset_error h
    · intro s' hagree
      have hregistered : s'.holdings.registered assetId = s.holdings.registered assetId := hagree _ (.asset hasset)
      rw [transferAsset_isOk_iff, transferAsset_isOk_iff, hregistered, known_of_agree hagree,
        assetBalance_of_agree hagree]
  · -- nobody has any of it, so the transfer fails even once it is registered
    refine follows_of_not_ok fun s' hagree => ⟨?_, fun error s'' h => transferAsset_error h⟩
    rw [Ne, transferAsset_isOk_iff, assetBalance_of_agree hagree]
    rintro ⟨-, -, hfunds⟩
    have hnone : s.assets.lookup assetId = none := by simpa using hasset
    have hzero : s.holdings.assetBalance assetId tx.sender = 0 := hbacked.assetBalance_eq_zero hnone tx.sender
    rw [hzero] at hfunds
    exact hamount (UInt64.le_antisymm hfunds UInt64.zero_le)

/-- Entering a collection under a free id. -/
theorem perform_collection {collectionId : Bytes} {entry : Collection}
    (hfresh : s.collections.lookup collectionId = none) (hempty : entry.items = ∅) :
    (LedgerWrite.collection collectionId entry).perform s = s.putCollection collectionId entry := by
  simp only [LedgerWrite.perform, alterCollection, FiniteMap.alter, hfresh, Option.none_or, ← hempty]
  rfl

/-- Entering an item under a free id. -/
theorem perform_mint {collectionId : Bytes} {itemId : UInt64} {item : NFTItem} {collection : Collection}
    (hcollection : s.collections.lookup collectionId = some collection)
    (hfresh : collection.items.lookup itemId = none) :
    (LedgerWrite.mint collectionId itemId item).perform s =
      s.putCollection collectionId (collection.putItem itemId item) := by
  simp only [LedgerWrite.perform, alterCollection, FiniteMap.alter, hcollection, LedgerWrite.alterItem,
    Option.map_some, Collection.alterItem, hfresh, Option.none_or]
  rfl

/-- Passing an item on from its owner. -/
theorem perform_pass {collectionId receiver : Bytes} {itemId : UInt64} {item : NFTItem} {collection : Collection}
    (hcollection : s.collections.lookup collectionId = some collection)
    (hitem : collection.items.lookup itemId = some item) :
    (LedgerWrite.pass collectionId itemId item.owner receiver).perform s =
      s.putCollection collectionId (collection.putItem itemId (item.ownedBy receiver)) := by
  simp only [LedgerWrite.perform, alterCollection, FiniteMap.alter, hcollection, LedgerWrite.alterItem,
    Option.map_some, Collection.alterItem, hitem, LedgerWrite.passed, if_pos]
  rfl

/-- Entering a channel under a free id. -/
theorem perform_openChannel {channelId : Bytes} {channel : PaymentChannel}
    (hfresh : s.channels.lookup channelId = none) :
    (LedgerWrite.openChannel channelId channel).perform s = s.putChannel channelId channel := by
  simp only [LedgerWrite.perform, alterChannel, FiniteMap.alter, hfresh, Option.none_or]
  rfl

/-- Closing a channel. -/
theorem perform_closeChannel {channelId : Bytes} {channel : PaymentChannel}
    (hchannel : s.channels.lookup channelId = some channel) :
    (LedgerWrite.closeChannel channelId).perform s = s.putChannel channelId channel.closed := by
  simp only [LedgerWrite.perform, alterChannel, FiniteMap.alter, hchannel, Option.map_some]
  rfl

/-- A collection's creation looks at its id. -/
theorem follows_createCollection {name symbol : String} {metadata : Bytes}
    (hdata : tx.data = .createCollection name symbol metadata) :
    Follows crypto s tx fun state => state.createCollection crypto tx.sender tx name symbol metadata := by
  obtain ⟨collectionId, hid⟩ : ∃ collectionId, tx.calculateAssetId crypto = some collectionId := by
    simp [Transaction.calculateAssetId, hdata]
  refine follows_of_guard [.collection collectionId
    { id := collectionId, issuer := tx.sender, name, symbol, metadata, items := ∅ }] ?_ ?_ ?_ ?_
  · intro hsucceeds
    have hfresh : s.collections.lookup collectionId = none := by
      simpa [holdings] using (createCollection_isOk_iff hid).mp hsucceeds
    simp [MayWrite.collection hid _ hfresh]
  · intro s' s'' h
    obtain ⟨created, hcreated, hfresh, rfl⟩ := createCollection_ok h
    obtain rfl := Option.some.inj (hid.symm.trans hcreated)
    exact (perform_collection hfresh rfl).symm
  · exact fun s' error s'' h => createCollection_error h
  · intro s' hagree
    rw [createCollection_isOk_iff hid, createCollection_isOk_iff hid]
    unfold holdings
    rw [Option.map_eq_none_iff, Option.map_eq_none_iff]
    exact eq_none_iff_of_isSome_eq (hagree _ (.newCollection hid))

/-- A mint looks at the item only for the issuer. -/
theorem follows_mintNFT {collectionId itemMetadata recipient : Bytes} {itemId : UInt64}
    (hdata : tx.data = .mintNFT collectionId itemId itemMetadata recipient) :
    Follows crypto s tx fun state =>
      state.mintNFT tx.sender collectionId itemId itemMetadata recipient := by
  have hrecipient : recipient ∈ s.involved tx := by simp [involved, hdata]
  by_cases hissuer : s.holdings.issuer collectionId = some tx.sender
  · refine follows_of_guard [.account recipient (.addItem collectionId itemId), .mint collectionId itemId
      { id := itemId, owner := recipient, metadata := itemMetadata }] ?_ ?_ ?_ ?_
    · intro hsucceeds
      have hfresh : s.ownerOf collectionId itemId = none := (mintNFT_isOk_iff.mp hsucceeds).2
      have hmint : MayWrite crypto s tx (.mint collectionId itemId
          { id := itemId, owner := recipient, metadata := itemMetadata }) := .mint hissuer hfresh hrecipient
      simp [MayWrite.account hrecipient, hmint]
    · intro s' s'' h
      obtain ⟨collection, hcollection, -, hfresh, rfl⟩ := mintNFT_ok h
      have hlookup : (s'.modifyAccount recipient (.addItem collectionId itemId)).collections.lookup collectionId =
          some collection := hcollection
      exact (perform_mint hlookup hfresh).symm
    · exact fun s' error s'' h => mintNFT_error h
    · intro s' hagree
      have hissuer' := (hagree _ .issuer).mpr hissuer
      have hexists : (s'.ownerOf collectionId itemId).isSome = (s.ownerOf collectionId itemId).isSome :=
        hagree _ (.item hissuer)
      rw [mintNFT_isOk_iff, mintNFT_isOk_iff]
      exact and_congr (iff_of_true hissuer' hissuer) (eq_none_iff_of_isSome_eq hexists)
  · refine follows_of_not_ok fun s' hagree => ⟨?_, fun error s'' h => mintNFT_error h⟩
    rw [Ne, mintNFT_isOk_iff]
    exact fun h => hissuer ((hagree _ .issuer).mp h.1)

/-- An item transfer looks at whether the sender owns the item. -/
theorem follows_transferNFT {collectionId : Bytes} {itemId : UInt64}
    (hdata : tx.data = .transferNFT collectionId itemId) :
    Follows crypto s tx fun state => state.transferNFT tx.sender tx.receiver collectionId itemId := by
  have hreceiver : tx.receiver ∈ s.involved tx := by simp [involved, hdata]
  by_cases howner : s.ownerOf collectionId itemId = some tx.sender
  · have howner' : ∀ s', (∀ place, MayRead crypto s tx place → SameAt place s s') →
        s'.ownerOf collectionId itemId = some tx.sender := fun s' hagree => (hagree _ .owner).mpr howner
    cases hsender : s.getAccount tx.sender with
    | none =>
      -- the owner is changed before the sender's account is missed
      refine follows_of_error [.pass collectionId itemId tx.sender tx.receiver] ?_ fun s' hagree => ?_
      · simp [MayWrite.pass howner hreceiver]
      · have hmissing : s'.getAccount tx.sender = none := Eq.trans (hagree _ .account) hsender
        obtain ⟨item, hitem, hheld⟩ := Option.map_eq_some_iff.mp (howner' s' hagree)
        obtain ⟨collection, hcollection, hitem⟩ := Option.bind_eq_some_iff.mp hitem
        have hmissing' : (s'.putCollection collectionId
            (collection.putItem itemId (item.ownedBy tx.receiver))).getAccount tx.sender = none := hmissing
        refine ⟨"Sender account not found", ?_⟩
        have hpass : (LedgerWrite.pass collectionId itemId item.owner tx.receiver).perform s' =
            s'.putCollection collectionId (collection.putItem itemId (item.ownedBy tx.receiver)) :=
          perform_pass hcollection hitem
        rw [hheld] at hpass
        refine Eq.trans ?_ (congrArg _ hpass.symm)
        unfold transferNFT
        unfold putCollection Collection.putItem NFTItem.ownedBy at hmissing'
        simp only [hcollection, hitem, hheld, ne_eq, not_true_eq_false, if_false, hmissing']
        rfl
    | some account =>
      refine follows_of_ok [.account tx.sender (.removeItem collectionId itemId),
        .account tx.receiver (.addItem collectionId itemId),
        .pass collectionId itemId tx.sender tx.receiver] ?_ fun s' hagree => ?_
      · simp [mayWrite_sender, MayWrite.account hreceiver, MayWrite.pass howner hreceiver]
      · have hknown : s'.holdings.known tx.sender := by
          rw [known_of_agree hagree]
          simp [holdings, hsender]
        have hsucceeds : (s'.transferNFT tx.sender tx.receiver collectionId itemId).1 = .ok () :=
          transferNFT_isOk_iff.mpr ⟨howner' s' hagree, hknown⟩
        have hresult := Prod.fst_eq_iff.mp hsucceeds
        obtain ⟨collection, item, hcollection, hitem, hheld, -, hpost⟩ := transferNFT_ok hresult
        rw [hresult, hpost, ← perform_pass (s := (s'.modifyAccount tx.sender
          (.removeItem collectionId itemId)).modifyAccount tx.receiver (.addItem collectionId itemId))
          hcollection hitem, hheld]
        rfl
  · refine follows_of_not_ok fun s' hagree => ?_
    have howner' : s'.ownerOf collectionId itemId ≠ some tx.sender := mt (hagree _ .owner).mp howner
    constructor
    · rw [Ne, transferNFT_isOk_iff]
      exact fun h => howner' h.1
    · intro error s'' h
      rcases transferNFT_error h with heq | ⟨collection, item, hcollection, hitem, hheld, -⟩
      · exact heq
      · refine absurd ?_ howner'
        rw [ownerOf, hcollection, Option.bind_some, hitem, Option.map_some, hheld]

/-- An opening under a taken id debits the deposit before it fails. -/
theorem openChannel_of_collision {sender partner channelId : Bytes} {amount duration : UInt64}
    (hknown : s.holdings.known sender) (hfunds : amount ≤ s.holdings.balance sender)
    (hid : tx.calculateAssetId crypto = some channelId) (hcollision : (s.channels.lookup channelId).isSome) :
    s.openChannel crypto sender partner amount duration tx =
      (.error "Channel ID collision", s.modifyAccount sender (.debit amount)) := by
  obtain ⟨account, haccount⟩ := Option.isSome_iff_exists.mp hknown
  obtain rfl := accountOrNew_of_getAccount haccount
  have hcollision' : ((s.insertPending sender { s.accountOrNew sender with
      balance := (s.accountOrNew sender).balance - amount }).channels.lookup channelId).isSome := hcollision
  have hcovered : ¬ (s.accountOrNew sender).balance < amount := UInt64.not_lt.mpr hfunds
  unfold openChannel
  simp only [haccount, if_neg hcovered, hid, if_pos hcollision']
  rfl

/-- An opening looks at its id and at the funds. -/
theorem follows_openChannel {partner : Bytes} {amount duration : UInt64}
    (hdata : tx.data = .openChannel partner amount duration) :
    Follows crypto s tx fun state => state.openChannel crypto tx.sender partner amount duration tx := by
  obtain ⟨channelId, hid⟩ : ∃ channelId, tx.calculateAssetId crypto = some channelId := by
    simp [Transaction.calculateAssetId, hdata]
  by_cases hfunds : s.holdings.known tx.sender ∧ amount ≤ s.holdings.balance tx.sender
  · have hfunds' : ∀ s', (∀ place, MayRead crypto s tx place → SameAt place s s') →
        s'.holdings.known tx.sender ∧ amount ≤ s'.holdings.balance tx.sender := by
      intro s' hagree
      rwa [known_of_agree hagree, balance_of_agree hagree]
    have hexists : ∀ s', (∀ place, MayRead crypto s tx place → SameAt place s s') →
        (s'.channels.lookup channelId).isSome = (s.channels.lookup channelId).isSome :=
      fun s' hagree => hagree _ (.newChannel hid)
    by_cases hcollision : (s.channels.lookup channelId).isSome
    · refine follows_of_error [.account tx.sender (.debit amount)] ?_ fun s' hagree => ?_
      · simp [mayWrite_sender]
      · obtain ⟨hknown, hbalance⟩ := hfunds' s' hagree
        exact ⟨_, openChannel_of_collision hknown hbalance hid (by rwa [hexists s' hagree])⟩
    · have hfresh : s.channels.lookup channelId = none := by simpa using hcollision
      refine follows_of_ok [.account tx.sender (.debit amount), .openChannel channelId
        { id := channelId, partnerA := tx.sender, partnerB := partner, totalDeposit := amount,
          expiry := duration, isClosed := false }] ?_ fun s' hagree => ?_
      · have hopen : MayWrite crypto s tx (.openChannel channelId
            { id := channelId, partnerA := tx.sender, partnerB := partner, totalDeposit := amount,
              expiry := duration, isClosed := false }) :=
          .openChannel hid hfresh fun address hpartner => by
            rcases hpartner with rfl | rfl <;> simp [involved, hdata]
        simp [mayWrite_sender, hopen]
      · have hfresh' := (eq_none_iff_of_isSome_eq (hexists s' hagree)).mpr hfresh
        obtain ⟨hknown, hbalance⟩ := hfunds' s' hagree
        have hsucceeds : (s'.openChannel crypto tx.sender partner amount duration tx).1 = .ok () :=
          (openChannel_isOk_iff hid).mpr ⟨hknown, hbalance, hfresh'⟩
        have hresult := Prod.fst_eq_iff.mp hsucceeds
        obtain ⟨created, -, -, hcreated, -, hpost⟩ := openChannel_ok hresult
        obtain rfl := Option.some.inj (hid.symm.trans hcreated)
        rw [hresult, hpost, ← perform_openChannel (s := s'.modifyAccount tx.sender (.debit amount)) hfresh']
        rfl
  · refine follows_of_not_ok fun s' hagree => ?_
    have hfunds' : ¬ (s'.holdings.known tx.sender ∧ amount ≤ s'.holdings.balance tx.sender) := by
      rwa [known_of_agree hagree, balance_of_agree hagree]
    constructor
    · rw [Ne, openChannel_isOk_iff hid]
      exact fun h => hfunds' ⟨h.1, h.2.1⟩
    · intro error s'' h
      rcases openChannel_error hdata h with heq | ⟨-, hknown, -, -, hbalance, -⟩
      · exact heq
      · exact absurd ⟨hknown, hbalance⟩ hfunds'

/-- A partner's closing with other balances than the deposit marks the channel before it fails. -/
theorem closeChannel_of_mismatch {sender channelId : Bytes} {finalBalanceA finalBalanceB : UInt64}
    {channel : PaymentChannel} (hchannel : s.channels.lookup channelId = some channel)
    (hopen : channel.isClosed = false) (hpartner : channel.HasPartner sender)
    (hsum : finalBalanceA + finalBalanceB ≠ channel.totalDeposit) :
    s.closeChannel sender channelId finalBalanceA finalBalanceB =
      (.error "Balance mismatch: total does not match deposit", s.putChannel channelId channel.closed) := by
  have hauthorized : ¬ (sender ≠ channel.partnerA ∧ sender ≠ channel.partnerB) :=
    fun hneither => hpartner.elim hneither.1 hneither.2
  unfold closeChannel
  simp only [hchannel, hopen, Bool.false_eq_true, if_false, if_neg hauthorized, if_pos hsum]
  rfl

/-- A closing looks at the channel only for a partner. -/
theorem follows_closeChannel {channelId balanceProof : Bytes} {finalBalanceA finalBalanceB : UInt64}
    (hdata : tx.data = .closeChannel channelId balanceProof finalBalanceA finalBalanceB) :
    Follows crypto s tx fun state =>
      state.closeChannel tx.sender channelId finalBalanceA finalBalanceB := by
  by_cases hnamed : ∃ channel, s.channels.lookup channelId = some channel ∧ channel.HasPartner tx.sender
  · obtain ⟨channel, hchannel, hpartner⟩ := hnamed
    have hpartnerA : channel.partnerA ∈ s.involved tx := by simp [involved, hdata, hchannel]
    have hpartnerB : channel.partnerB ∈ s.involved tx := by simp [involved, hdata, hchannel]
    have hchannel' : ∀ s', (∀ place, MayRead crypto s tx place → SameAt place s s') →
        s'.channels.lookup channelId = some channel :=
      fun s' hagree => Eq.trans (hagree _ (.terms hchannel hpartnerA)) hchannel
    have hclose : MayWrite crypto s tx (.closeChannel channelId) := .closeChannel hchannel hpartnerA
    cases hopen : channel.isClosed with
    | true =>
      refine follows_of_not_ok fun s' hagree => ⟨?_, fun error s'' h => ?_⟩
      · rw [Ne, closeChannel_isOk_iff]
        rintro ⟨found, hfound, hstill, -⟩
        obtain rfl := Option.some.inj ((hchannel' s' hagree).symm.trans hfound)
        rw [hopen] at hstill
        contradiction
      · rcases closeChannel_error h with heq | ⟨found, hfound, hstill, -⟩
        · exact heq
        · obtain rfl := Option.some.inj ((hchannel' s' hagree).symm.trans hfound)
          rw [hopen] at hstill
          contradiction
    | false =>
      by_cases hsum : finalBalanceA + finalBalanceB = channel.totalDeposit
      · refine follows_of_ok [.account channel.partnerA (.credit finalBalanceA),
          .account channel.partnerB (.credit finalBalanceB), .closeChannel channelId] ?_ fun s' hagree => ?_
        · simp [MayWrite.account hpartnerA, MayWrite.account hpartnerB, hclose]
        · have hresult := Prod.fst_eq_iff.mp (closeChannel_isOk_iff.mpr
            ⟨channel, hchannel' s' hagree, hopen, hpartner, hsum⟩)
          obtain ⟨found, hfound, -, -, -, hpost⟩ := closeChannel_ok hresult
          obtain rfl := Option.some.inj ((hchannel' s' hagree).symm.trans hfound)
          rw [hresult, hpost, ← perform_closeChannel (s := (s'.modifyAccount channel.partnerA
            (.credit finalBalanceA)).modifyAccount channel.partnerB (.credit finalBalanceB)) hfound]
          rfl
      · refine follows_of_error [.closeChannel channelId] ?_ fun s' hagree => ?_
        · simp [hclose]
        · have hresult := closeChannel_of_mismatch (hchannel' s' hagree) hopen hpartner hsum
          rw [← perform_closeChannel (hchannel' s' hagree)] at hresult
          exact ⟨_, hresult⟩
  · refine follows_of_not_ok fun s' hagree => ?_
    have hnamed' : ¬ ∃ channel, s'.channels.lookup channelId = some channel ∧ channel.HasPartner tx.sender :=
      mt (hagree _ .partner).mp hnamed
    constructor
    · rw [Ne, closeChannel_isOk_iff]
      rintro ⟨channel, hchannel, -, hpartner, -⟩
      exact hnamed' ⟨channel, hchannel, hpartner⟩
    · intro error s'' h
      rcases closeChannel_error h with heq | ⟨channel, hchannel, -, hpartner, -⟩
      · exact heq
      · exact absurd ⟨channel, hchannel, hpartner⟩ hnamed'

theorem follows_delegateSpend {delegate : Bytes} {allowance : UInt64} :
    Follows crypto s tx fun state => state.delegateSpend tx.sender delegate allowance := by
  refine follows_of_ok [.account tx.sender (.setAllowance delegate allowance)] ?_ fun s' _ => rfl
  simp [mayWrite_sender]

theorem follows_deductStake {stake : UInt64} :
    Follows crypto s tx fun state => state.deductStake tx.sender stake := by
  refine follows_of_guard [.account tx.sender (.debit stake)] ?_ ?_ ?_ ?_
  · simp [mayWrite_sender]
  · exact fun s' s'' h => (deductStake_ok h).2.2
  · exact fun s' error s'' h => deductStake_error h
  · intro s' hagree
    rw [deductStake_isOk_iff, deductStake_isOk_iff, known_of_agree hagree, balance_of_agree hagree]

theorem follows_requireAccount : Follows crypto s tx fun state => state.requireAccount tx.sender := by
  refine follows_of_guard [] (fun _ write hwrite => nomatch hwrite) ?_ ?_ ?_
  · exact fun s' s'' h => (requireAccount_ok h).2
  · exact fun s' error s'' h => requireAccount_error h
  · intro s' hagree
    have hknown : (s'.getAccount tx.sender).isNone = (s.getAccount tx.sender).isNone :=
      congrArg Option.isNone (hagree _ .account)
    unfold requireAccount
    rw [hknown]
    split <;> simp

/-- The arm of a transaction reads and writes what the transaction may. -/
theorem follows_processData (hbacked : s.AssetsBacked) (hlogic : tx.validateLogic = .ok ()) :
    Follows crypto s tx fun state => state.processData crypto tx := by
  unfold processData
  cases hdata : tx.data with
  | nativeTransfer amount => exact follows_transferNative hdata
  | createAsset name symbol supply decimals metadata => exact follows_createAsset hdata
  | transferAsset assetId amount =>
    have hamount : amount ≠ 0 := by
      rintro rfl
      unfold Transaction.validateLogic at hlogic
      rw [hdata] at hlogic
      split at hlogic <;> simp at hlogic
    exact follows_transferAsset hbacked hdata hamount
  | createCollection name symbol metadata => exact follows_createCollection hdata
  | mintNFT collectionId itemId itemMetadata recipient => exact follows_mintNFT hdata
  | transferNFT collectionId itemId => exact follows_transferNFT hdata
  | openChannel partner amount duration => exact follows_openChannel hdata
  | closeChannel channelId balanceProof finalBalanceA finalBalanceB => exact follows_closeChannel hdata
  | delegateSpend delegate allowance expiry => exact follows_delegateSpend
  | registerValidator stake => exact follows_deductStake
  | unregisterValidator => exact follows_requireAccount

/-- With the sender's nonce the arm decides, and a success is counted. -/
theorem applyTransaction_of_nonce (hnonce : tx.nonce = s.getNonce tx.sender) :
    (∀ error s', s.processData crypto tx = (.error error, s') →
      s.applyTransaction crypto tx = (.error error, s')) ∧
    ∀ s', s.processData crypto tx = (.ok (), s') →
      s.applyTransaction crypto tx = (.ok (), s'.modifyAccount tx.sender .bumpNonce) := by
  unfold applyTransaction
  rw [if_neg (not_not.mpr hnonce)]
  constructor
  · intro error s' h
    rw [h]
  · intro s' h
    rw [h]
    rfl

/-- So does the whole transaction, which reads and counts the sender's nonce. -/
theorem follows_applyTransaction (hbacked : s.AssetsBacked) (hlogic : tx.validateLogic = .ok ()) :
    Follows crypto s tx fun state => state.applyTransaction crypto tx := by
  obtain ⟨answer, writes, hwrites, hruns⟩ : Follows crypto s tx fun state => state.processData crypto tx :=
    follows_processData hbacked hlogic
  dsimp only at hruns
  by_cases hnonce : tx.nonce = s.getNonce tx.sender
  · have hnonce' : ∀ s', (∀ place, MayRead crypto s tx place → SameAt place s s') →
        tx.nonce = s'.getNonce tx.sender := fun s' hagree => hnonce.trans (getNonce_of_agree hagree).symm
    cases answer with
    | true =>
      refine follows_of_ok (writes ++ [.account tx.sender .bumpNonce]) ?_ fun s' hagree => ?_
      · intro write hwrite
        rcases List.mem_append.mp hwrite with h | h
        · exact hwrites write h
        · rw [List.mem_singleton.mp h]
          exact mayWrite_sender _
      · obtain ⟨hsucceeds, hpost⟩ := Prod.mk.inj (hruns s' hagree)
        rcases hprocess : s'.processData crypto tx with ⟨error | ⟨⟨⟩⟩, s''⟩
        · rw [hprocess] at hsucceeds
          cases hsucceeds
        · rw [hprocess] at hpost
          obtain rfl : s'' = Footprint.performAll LedgerWrite.perform writes s' := hpost
          rw [(applyTransaction_of_nonce (hnonce' s' hagree)).2 _ hprocess, Footprint.performAll,
            Footprint.performAll, List.foldl_append]
          rfl
    | false =>
      refine follows_of_error writes hwrites fun s' hagree => ?_
      obtain ⟨hfails, hpost⟩ := Prod.mk.inj (hruns s' hagree)
      rcases hprocess : s'.processData crypto tx with ⟨error | ⟨⟨⟩⟩, s''⟩
      · rw [hprocess] at hpost
        rw [(applyTransaction_of_nonce (hnonce' s' hagree)).1 error s'' hprocess, ← hpost]
        exact ⟨error, rfl⟩
      · rw [hprocess] at hfails
        cases hfails
  · refine follows_of_error [] (fun write hwrite => nomatch hwrite) fun s' hagree => ?_
    rw [applyTransaction, getNonce_of_agree hagree, if_pos hnonce]
    exact ⟨_, rfl⟩

/-- Independent transactions have the same outcomes and end in the same state in either order. -/
theorem Independent.comm (h : s.Independent crypto tx tx') (hbacked : s.AssetsBacked)
    (hlogic : tx.validateLogic = .ok ()) (hlogic' : tx'.validateLogic = .ok ()) :
    ((s.applyTransaction crypto tx).2.applyTransaction crypto tx').1.isOk =
        (s.applyTransaction crypto tx').1.isOk ∧
      ((s.applyTransaction crypto tx').2.applyTransaction crypto tx).1.isOk =
        (s.applyTransaction crypto tx).1.isOk ∧
      ((s.applyTransaction crypto tx).2.applyTransaction crypto tx').2 =
        ((s.applyTransaction crypto tx').2.applyTransaction crypto tx).2 :=
  (follows_applyTransaction hbacked hlogic).comm (follows_applyTransaction hbacked hlogic') SameAt.refl SameAt.trans
    (fun _ _ hwrite hread => sameAt_perform (h.not_touches hwrite hread))
    (fun _ _ hwrite hread => sameAt_perform (h.symm.not_touches hwrite hread))
    fun _ _ hwrite hwrite' => perform_comm (h.not_meets hwrite hwrite')

end State

namespace Transaction

variable {crypto : Crypto} {tx tx' : Transaction}

/-- What `calculate_asset_id` feeds to SHA-256. -/
def assetIdInput (tx : Transaction) : Option Bytes :=
  match tx.data with
  | .createAsset name .. => some (tx.sender ++ u64ToLeBytes tx.nonce ++ asBytes name)
  | .createCollection name .. => some (tx.sender ++ u64ToLeBytes tx.nonce ++ asBytes name)
  | .openChannel .. => some (tx.sender ++ u64ToLeBytes tx.nonce ++ asBytes "channel")
  | _ => none

/-- The id is the digest of its input. -/
theorem calculateAssetId_eq (crypto : Crypto) (tx : Transaction) :
    tx.calculateAssetId crypto = tx.assetIdInput.map crypto.sha256 := by
  unfold calculateAssetId assetIdInput
  cases tx.data <;> rfl

/-- The input starts with the sender. -/
theorem sender_prefix_assetIdInput {input : Bytes} (h : tx.assetIdInput = some input) : tx.sender <+: input := by
  unfold assetIdInput at h
  split at h <;> cases h
  all_goals
    rw [List.append_assoc]
    exact List.prefix_append _ _

/-- A valid transaction passes the checks of its kind, and its sender is a key of 32 bytes. -/
theorem logic_of_validate (h : tx.validate crypto = .ok ()) :
    tx.validateLogic = .ok () ∧ tx.sender.length = 32 := by
  unfold validate at h
  cases hlogic : tx.validateLogic with
  | error error =>
    rw [hlogic] at h
    cases h
  | ok =>
    rw [hlogic] at h
    have hsigned : tx.validateSignature crypto = .ok () := h
    refine ⟨rfl, ?_⟩
    unfold validateSignature at hsigned
    by_contra hlength
    rw [if_pos hlength] at hsigned
    split at hsigned <;> cases hsigned

/-- Valid transactions of different senders create different ids, where SHA-256 does not collide. -/
theorem calculateAssetId_ne (hlength : tx.sender.length = tx'.sender.length) (hne : tx.sender ≠ tx'.sender)
    (hfree : ∀ input input', tx.assetIdInput = some input → tx'.assetIdInput = some input' →
      crypto.sha256 input = crypto.sha256 input' → input = input') (id : Bytes)
    (hid : tx.calculateAssetId crypto = some id) : tx'.calculateAssetId crypto ≠ some id := by
  intro hid'
  rw [calculateAssetId_eq] at hid hid'
  obtain ⟨input, hinput, rfl⟩ := Option.map_eq_some_iff.mp hid
  obtain ⟨input', hinput', hdigest⟩ := Option.map_eq_some_iff.mp hid'
  obtain rfl := hfree input input' hinput hinput' hdigest.symm
  exact hne ((List.prefix_of_prefix_length_le (sender_prefix_assetIdInput hinput)
    (sender_prefix_assetIdInput hinput') hlength.le).eq_of_length hlength)

end Transaction

namespace State

variable {crypto : Crypto} {s : State} {tx tx' : Transaction}

/-- In every reachable state two valid transactions that involve different addresses commute: each has the
outcome that it has alone, and the final state is the same. -/
theorem applyTransaction_comm (hreachable : Reachable crypto s) (hvalid : tx.validate crypto = .ok ())
    (hvalid' : tx'.validate crypto = .ok ())
    (hdisjoint : ∀ address, address ∈ s.involved tx → address ∉ s.involved tx')
    (hfree : ∀ input input', tx.assetIdInput = some input → tx'.assetIdInput = some input' →
      crypto.sha256 input = crypto.sha256 input' → input = input') :
    ((s.applyTransaction crypto tx).2.applyTransaction crypto tx').1.isOk =
        (s.applyTransaction crypto tx').1.isOk ∧
      ((s.applyTransaction crypto tx').2.applyTransaction crypto tx).1.isOk =
        (s.applyTransaction crypto tx).1.isOk ∧
      ((s.applyTransaction crypto tx).2.applyTransaction crypto tx').2 =
        ((s.applyTransaction crypto tx').2.applyTransaction crypto tx).2 := by
  obtain ⟨hlogic, hlength⟩ := Transaction.logic_of_validate hvalid
  obtain ⟨hlogic', hlength'⟩ := Transaction.logic_of_validate hvalid'
  have hne : tx.sender ≠ tx'.sender := fun heq =>
    hdisjoint tx.sender (s.sender_mem_involved tx) (heq ▸ s.sender_mem_involved tx')
  have hindependent : s.Independent crypto tx tx' :=
    ⟨hdisjoint, Transaction.calculateAssetId_ne (hlength.trans hlength'.symm) hne hfree⟩
  exact hindependent.comm hreachable.assetsBacked hlogic hlogic'

/-- The validator creates an asset. -/
def assetByValidator : Transaction :=
  Transaction.new Crypto.plain Sample.validator [] (.createAsset "Coin" "C" 1000 0 []) 0 Sample.validator

/-- Alice holds a hundred coins. -/
def funded : State := State.empty.setBalance Sample.alice 100

/-- Alice's opening of a channel with Bob and the validator's creation commute. -/
theorem applyTransaction_comm_opening :
    ((funded.applyTransaction Crypto.plain opening).2.applyTransaction Crypto.plain assetByValidator).1.isOk =
        (funded.applyTransaction Crypto.plain assetByValidator).1.isOk ∧
      ((funded.applyTransaction Crypto.plain assetByValidator).2.applyTransaction Crypto.plain opening).1.isOk =
        (funded.applyTransaction Crypto.plain opening).1.isOk ∧
      ((funded.applyTransaction Crypto.plain opening).2.applyTransaction Crypto.plain assetByValidator).2 =
        ((funded.applyTransaction Crypto.plain assetByValidator).2.applyTransaction Crypto.plain opening).2 := by
  have hdisjoint : ∀ address ∈ funded.involved opening, address ∉ funded.involved assetByValidator := by
    decide +kernel
  refine applyTransaction_comm (.setBalance Sample.alice 100 .empty) (by decide +kernel) (by decide +kernel)
    hdisjoint ?_
  rintro input input' hinput hinput' hdigest
  cases hinput
  cases hinput'
  exact absurd hdigest (by decide +kernel)

end State

end Nocostcoin
