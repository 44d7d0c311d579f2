import Nocostcoin.SenderOnly

/-!
# Who owns an item

Ownership is recorded twice: the registry has the owner of each item, and each account lists its items.
In every reachable state the two agree: an account lists an item once when it is the registered owner and
not at all otherwise.
-/

namespace Nocostcoin

namespace Account

/-- The items of a collection after one was listed. -/
theorem itemsOf_addItem (collectionId other : Bytes) (itemId : UInt64) (account : Account) :
    (account.addItem collectionId itemId).itemsOf other =
      if other = collectionId then account.itemsOf collectionId ++ [itemId]
      else account.itemsOf other := by
  unfold itemsOf addItem
  rw [FiniteMap.lookup_insert_ite]
  split
  · rfl
  · rfl

/-- The items of a collection after one was dropped. -/
theorem itemsOf_removeItem (collectionId other : Bytes) (itemId : UInt64) (account : Account) :
    (account.removeItem collectionId itemId).itemsOf other =
      if other = collectionId then (account.itemsOf collectionId).filter fun x => x ≠ itemId
      else account.itemsOf other := by
  unfold itemsOf removeItem
  cases hnfts : account.nfts.lookup collectionId with
  | none =>
    dsimp only
    split
    · rename_i heq
      rw [heq, hnfts]
      rfl
    · rfl
  | some nfts =>
    dsimp only
    rw [FiniteMap.lookup_insert_ite]
    split
    · rfl
    · rfl

/-- How often an item is listed after one was added. -/
theorem count_addItem (collectionId other : Bytes) (itemId otherId : UInt64) (account : Account) :
    ((account.addItem collectionId itemId).itemsOf other).count otherId =
      (account.itemsOf other).count otherId +
        if other = collectionId ∧ otherId = itemId then 1 else 0 := by
  rw [itemsOf_addItem]
  by_cases hcollection : other = collectionId
  · subst hcollection
    rw [if_pos rfl, List.count_append, List.count_singleton']
    simp only [true_and, eq_comm]
  · rw [if_neg hcollection, if_neg fun h => hcollection h.1, Nat.add_zero]

/-- How often an item is listed after one was dropped. -/
theorem count_removeItem (collectionId other : Bytes) (itemId otherId : UInt64) (account : Account) :
    ((account.removeItem collectionId itemId).itemsOf other).count otherId =
      if other = collectionId ∧ otherId = itemId then 0 else (account.itemsOf other).count otherId := by
  rw [itemsOf_removeItem]
  by_cases hcollection : other = collectionId
  · subst hcollection
    rw [if_pos rfl]
    by_cases hitem : otherId = itemId
    · rw [if_pos ⟨rfl, hitem⟩, hitem, List.count_eq_zero]
      intro hmem
      exact absurd rfl (of_decide_eq_true (List.mem_filter.mp hmem).2)
    · rw [if_neg fun h => hitem h.2]
      exact List.count_filter (decide_eq_true hitem)
  · rw [if_neg hcollection, if_neg fun h => hcollection h.1]

end Account

namespace State

variable {crypto : Crypto} {s s' : State} {tx : Transaction}

/-- Every account lists an item once if it is the registered owner, and not at all if not. -/
def OwnershipKept (state : State) : Prop :=
  ∀ collectionId itemId address,
    ((state.accountOrNew address).itemsOf collectionId).count itemId =
      if state.ownerOf collectionId itemId = some address then 1 else 0

/-- The owners after an empty collection was entered. -/
theorem ownerOf_putCollection_fresh {collectionId : Bytes} {collection : Collection}
    (hfresh : s.collections.lookup collectionId = none) (hempty : collection.items = ∅)
    (other : Bytes) (otherId : UInt64) :
    (s.putCollection collectionId collection).ownerOf other otherId = s.ownerOf other otherId := by
  unfold ownerOf putCollection
  dsimp only
  rw [FiniteMap.lookup_insert_ite]
  split
  · rename_i hother
    rw [hother, hfresh, Option.bind_some, hempty]
    rfl
  · rfl

/-- Rewriting an account without its items keeps the ownership. -/
theorem OwnershipKept.modifyAccount (h : s.OwnershipKept) (address : Bytes) (update : Account → Account)
    (hkeep : ∀ account, (update account).nfts = account.nfts) :
    (s.modifyAccount address update).OwnershipKept := by
  intro collectionId itemId other
  have hitems := field_accountOrNew_modifyAccount (Account.itemsOf collectionId) s address other update
    fun account => by rw [Account.itemsOf, Account.itemsOf, hkeep]
  rw [hitems]
  exact h collectionId itemId other

@[simp] theorem ownershipKept_putAsset (state : State) (assetId : Bytes) (asset : Asset) :
    (state.putAsset assetId asset).OwnershipKept ↔ state.OwnershipKept := Iff.rfl

@[simp] theorem ownershipKept_putChannel (state : State) (channelId : Bytes) (channel : PaymentChannel) :
    (state.putChannel channelId channel).OwnershipKept ↔ state.OwnershipKept := Iff.rfl

/-- How often items are listed after one was added to an account. -/
theorem count_modifyAccount_addItem (state : State) (address collectionId : Bytes) (itemId : UInt64)
    (other otherCollection : Bytes) (otherId : UInt64) :
    (((state.modifyAccount address (.addItem collectionId itemId)).accountOrNew other).itemsOf
        otherCollection).count otherId =
      ((state.accountOrNew other).itemsOf otherCollection).count otherId +
        if (otherCollection = collectionId ∧ otherId = itemId) ∧ other = address then 1 else 0 := by
  rw [accountOrNew_modifyAccount]
  by_cases hother : other = address
  · subst hother
    rw [if_pos rfl, Account.count_addItem]
    simp only [and_true]
  · rw [if_neg hother, if_neg fun h => hother h.2, Nat.add_zero]

/-- How often items are listed after one was dropped from an account. -/
theorem count_modifyAccount_removeItem (state : State) (address collectionId : Bytes) (itemId : UInt64)
    (other otherCollection : Bytes) (otherId : UInt64) :
    (((state.modifyAccount address (.removeItem collectionId itemId)).accountOrNew other).itemsOf
        otherCollection).count otherId =
      if (otherCollection = collectionId ∧ otherId = itemId) ∧ other = address then 0
      else ((state.accountOrNew other).itemsOf otherCollection).count otherId := by
  rw [accountOrNew_modifyAccount]
  by_cases hother : other = address
  · subst hother
    rw [if_pos rfl, Account.count_removeItem]
    simp only [and_true]
  · rw [if_neg hother, if_neg fun h => hother h.2]

/-- A mint keeps the ownership. -/
theorem OwnershipKept.mintNFT (h : s.OwnershipKept) {collectionId : Bytes} {collection : Collection}
    (hcollection : s.collections.lookup collectionId = some collection) {itemId : UInt64}
    (hfresh : collection.items.lookup itemId = none) (item : NFTItem) :
    ((s.modifyAccount item.owner (.addItem collectionId itemId)).putCollection collectionId
      (collection.putItem itemId item)).OwnershipKept := by
  intro other otherId address
  have hlisted := s.count_modifyAccount_addItem item.owner collectionId itemId address other otherId
  have howner := ownerOf_putItem (s := s.modifyAccount item.owner (.addItem collectionId itemId))
    hcollection itemId item other otherId
  rw [howner]
  refine hlisted.trans ?_
  rw [h other otherId address]
  by_cases hitem : other = collectionId ∧ otherId = itemId
  · obtain ⟨rfl, rfl⟩ := hitem
    have hnone : s.ownerOf other otherId = none := by
      rw [ownerOf, hcollection, Option.bind_some, hfresh, Option.map_none]
    simp only [hnone, and_self, if_true, true_and, Option.some.injEq, reduceCtorEq, if_false,
      Nat.zero_add, eq_comm]
  · simp only [hitem, false_and, if_false, Nat.add_zero]
    rfl

/-- A transfer of an item keeps the ownership, also from an address to itself. -/
theorem OwnershipKept.transferNFT (h : s.OwnershipKept) {collectionId : Bytes} {collection : Collection}
    (hcollection : s.collections.lookup collectionId = some collection) {itemId : UInt64}
    {item : NFTItem} (hitem : collection.items.lookup itemId = some item) (receiver : Bytes) :
    (((s.modifyAccount item.owner (.removeItem collectionId itemId)).modifyAccount receiver
      (.addItem collectionId itemId)).putCollection collectionId
        (collection.putItem itemId (item.ownedBy receiver))).OwnershipKept := by
  intro other otherId address
  have hlisted := (s.modifyAccount item.owner (.removeItem collectionId itemId)).count_modifyAccount_addItem
    receiver collectionId itemId address other otherId
  have howner := ownerOf_putItem (s := (s.modifyAccount item.owner
    (.removeItem collectionId itemId)).modifyAccount receiver (.addItem collectionId itemId))
    hcollection itemId (item.ownedBy receiver) other otherId
  rw [howner]
  refine hlisted.trans ?_
  rw [count_modifyAccount_removeItem, h other otherId address]
  by_cases heq : other = collectionId ∧ otherId = itemId
  · obtain ⟨rfl, rfl⟩ := heq
    have hold : s.ownerOf other otherId = some item.owner := by
      rw [ownerOf, hcollection, Option.bind_some, hitem, Option.map_some]
    -- the old owner listed it once, the others not at all
    have hdropped : (if (other = other ∧ otherId = otherId) ∧ address = item.owner then 0
        else if s.ownerOf other otherId = some address then 1 else 0) = 0 := by
      by_cases haddress : address = item.owner
      · rw [if_pos ⟨⟨rfl, rfl⟩, haddress⟩]
      · rw [if_neg fun hboth => haddress hboth.2, if_neg]
        rw [hold, Option.some_inj]
        exact Ne.symm haddress
    rw [hdropped, Nat.zero_add]
    by_cases haddress : address = receiver
    · simp [NFTItem.ownedBy, haddress]
    · simp [NFTItem.ownedBy, haddress, Ne.symm haddress]
  · simp only [heq, false_and, if_false, Nat.add_zero]
    rfl

/-- A registered owner has an account. -/
theorem OwnershipKept.account_of_owner (h : s.OwnershipKept) {collectionId : Bytes} {itemId : UInt64}
    {owner : Bytes} (howner : s.ownerOf collectionId itemId = some owner) :
    ∃ account, s.getAccount owner = some account ∧ (account.itemsOf collectionId).count itemId = 1 := by
  have hlisted := h collectionId itemId owner
  rw [if_pos howner] at hlisted
  cases haccount : s.getAccount owner with
  | none =>
    -- a new account lists nothing
    rw [accountOrNew, haccount] at hlisted
    exact absurd hlisted (by simp [Account.itemsOf, Account.new])
  | some account =>
    rw [accountOrNew_of_getAccount haccount] at hlisted
    exact ⟨account, rfl, hlisted⟩

/-- A successful transaction keeps the ownership. -/
theorem OwnershipKept.effect (h : s.OwnershipKept) (heffect : Effect crypto s tx s') :
    s'.OwnershipKept := by
  cases heffect with
  | nativeTransfer =>
    exact (h.modifyAccount _ (.debit _) fun _ => rfl).modifyAccount _ (.credit _) fun _ => rfl
  | @createAsset _ _ supply _ _ assetId =>
    exact (ownershipKept_putAsset _ _ _).mpr (h.modifyAccount _ (.setAsset assetId supply) fun _ => rfl)
  | @transferAsset assetId amount =>
    exact (h.modifyAccount tx.sender (fun account =>
      account.setAsset assetId (account.assetBalance assetId - amount)) fun _ => rfl).modifyAccount
        tx.receiver (fun account =>
          account.setAsset assetId (account.assetBalance assetId + amount)) fun _ => rfl
  | createCollection hdata hid hfresh =>
    intro collectionId itemId address
    rw [ownerOf_putCollection_fresh hfresh rfl]
    exact h collectionId itemId address
  | @mintNFT _ itemMetadata recipient itemId _ hdata hcollection hissuer hfresh =>
    exact h.mintNFT hcollection hfresh { id := itemId, owner := recipient, metadata := itemMetadata }
  | transferNFT hdata hcollection hitem howner hsender =>
    rw [← howner]
    exact h.transferNFT hcollection hitem tx.receiver
  | openChannel =>
    exact (ownershipKept_putChannel _ _ _).mpr (h.modifyAccount _ (.debit _) fun _ => rfl)
  | closeChannel =>
    exact (ownershipKept_putChannel _ _ _).mpr
      ((h.modifyAccount _ (.credit _) fun _ => rfl).modifyAccount _ (.credit _) fun _ => rfl)
  | @delegateSpend delegate allowance =>
    exact h.modifyAccount _ (.setAllowance delegate allowance) fun _ => rfl
  | registerValidator => exact h.modifyAccount _ (.debit _) fun _ => rfl
  | unregisterValidator => exact h

/-- A failed transaction keeps the ownership: an owner without account does not occur. -/
theorem OwnershipKept.residue (h : s.OwnershipKept) (hresidue : Residue crypto s tx s') :
    s'.OwnershipKept := by
  cases hresidue with
  | unchanged => exact h
  | debited => exact h.modifyAccount _ (.debit _) fun _ => rfl
  | markedClosed => exact (ownershipKept_putChannel _ _ _).mpr h
  | @ownerChanged collectionId itemId collection item hdata hcollection hitem howner hsender =>
    have hregistered : s.ownerOf collectionId itemId = some tx.sender := by
      rw [ownerOf, hcollection, Option.bind_some, hitem, Option.map_some, howner]
    obtain ⟨account, haccount, -⟩ := h.account_of_owner hregistered
    rw [hsender] at haccount
    contradiction

/-- A transaction of any outcome keeps the ownership. -/
theorem OwnershipKept.applyTransaction (h : s.OwnershipKept) (tx : Transaction) :
    (s.applyTransaction crypto tx).2.OwnershipKept := by
  rcases s.applyTransaction_cases crypto tx with ⟨s₁, heffect, hpost⟩ | hresidue
  · rw [hpost]
    exact (h.effect heffect).modifyAccount tx.sender .bumpNonce fun _ => rfl
  · exact h.residue hresidue

/-- In every reachable state the registry and the accounts agree. -/
theorem Reachable.ownershipKept (h : Reachable crypto s) : s.OwnershipKept := by
  induction h with
  | empty => exact fun _ _ _ => rfl
  | setBalance address balance _ ih =>
    exact ih.modifyAccount address (fun account => { account with balance }) fun _ => rfl
  | applyTransaction tx _ ih => exact ih.applyTransaction tx
  | @applyChanges s s' host result _ hcommit ih =>
    obtain ⟨haccounts, -, hcollections, -⟩ := accounts_applyChanges hcommit
    intro collectionId itemId address
    have howner : s'.ownerOf collectionId itemId = s.ownerOf collectionId itemId := by
      rw [ownerOf, ownerOf, hcollections]
    have haccount : s'.accountOrNew address = s.accountOrNew address := by
      rw [accountOrNew, accountOrNew, getAccount_eq_lookup, getAccount_eq_lookup, haccounts]
    rw [howner, haccount]
    exact ih collectionId itemId address

/-- When owners have accounts, no transfer of an item fails after the owner was changed. -/
theorem OwnershipKept.transferNFT_ne_error (h : s.OwnershipKept) (sender receiver collectionId : Bytes)
    (itemId : UInt64) :
    (s.transferNFT sender receiver collectionId itemId).1 ≠ .error "Sender account not found" := by
  unfold State.transferNFT
  split
  · simp
  · rename_i collection hcollection
    split
    · simp
    · rename_i item hitem
      split
      · simp
      · rename_i howner
        have hregistered : s.ownerOf collectionId itemId = some sender := by
          rw [ownerOf, hcollection, Option.bind_some, hitem, Option.map_some, not_not.mp howner]
        obtain ⟨account, haccount, -⟩ := h.account_of_owner hregistered
        dsimp only
        split
        · rename_i hnone
          have hnone' : s.getAccount sender = none := hnone
          rw [haccount] at hnone'
          contradiction
        · simp

/-- In every reachable state the registered owner of an item has an account that lists it once and no
other account lists it, every listed item is registered, and no transfer fails after it has changed the
owner. -/
theorem nft_ownership_kept (h : Reachable crypto s) :
    (∀ collectionId collection itemId item, s.collections.lookup collectionId = some collection →
        collection.items.lookup itemId = some item →
        (∃ account, s.getAccount item.owner = some account ∧
            (account.itemsOf collectionId).count itemId = 1) ∧
          ∀ other account, other ≠ item.owner → s.getAccount other = some account →
            itemId ∉ account.itemsOf collectionId) ∧
      (∀ address account collectionId itemId, s.getAccount address = some account →
        itemId ∈ account.itemsOf collectionId →
        ∃ collection item, s.collections.lookup collectionId = some collection ∧
          collection.items.lookup itemId = some item) ∧
      ∀ sender receiver collectionId itemId,
        (s.transferNFT sender receiver collectionId itemId).1 ≠ .error "Sender account not found" := by
  have hkept := h.ownershipKept
  refine ⟨?_, ?_, hkept.transferNFT_ne_error⟩
  · intro collectionId collection itemId item hcollection hitem
    have howner : s.ownerOf collectionId itemId = some item.owner := by
      rw [ownerOf, hcollection, Option.bind_some, hitem, Option.map_some]
    refine ⟨hkept.account_of_owner howner, fun other account hne haccount => ?_⟩
    have hlisted := hkept collectionId itemId other
    rw [howner, if_neg fun heq => hne (Option.some.inj heq).symm,
      accountOrNew_of_getAccount haccount] at hlisted
    exact List.count_eq_zero.mp hlisted
  · intro address account collectionId itemId haccount hmem
    have hlisted := hkept collectionId itemId address
    rw [accountOrNew_of_getAccount haccount] at hlisted
    have hpositive := List.count_pos_iff.mpr hmem
    split at hlisted
    · rename_i howner
      obtain ⟨item, hitem, -⟩ := Option.map_eq_some_iff.mp howner
      obtain ⟨collection, hcollection, hlookup⟩ := Option.bind_eq_some_iff.mp hitem
      exact ⟨collection, item, hcollection, hlookup⟩
    · omega

/-- The id of the collection below. -/
def sampleCollectionId : Bytes :=
  Crypto.plain.sha256 (List.replicate 32 1 ++ u64ToLeBytes 0 ++ asBytes "Art")

/-- A collection with one item, minted for an address that had no account. -/
def mintedForStranger : State :=
  let alice : Bytes := List.replicate 32 1
  ((empty.applyTransaction Crypto.plain
      { sender := alice, receiver := [], nonce := 0, signature := [],
        data := .createCollection "Art" "ART" [] }).2.applyTransaction Crypto.plain
    { sender := alice, receiver := [], nonce := 1, signature := [],
      data := .mintNFT sampleCollectionId 7 [] (List.replicate 32 2) }).2

/-- The stranger has an account that lists the item once. -/
theorem nft_ownership_of_stranger : ∃ account,
    mintedForStranger.getAccount (List.replicate 32 2) = some account ∧
      (account.itemsOf sampleCollectionId).count 7 = 1 := by
  have hregistered : ((mintedForStranger.collections.lookup sampleCollectionId).bind fun collection =>
      collection.items.lookup 7).map NFTItem.owner = some (List.replicate 32 2) := by
    decide +kernel
  obtain ⟨item, hitem, howner⟩ := Option.map_eq_some_iff.mp hregistered
  obtain ⟨collection, hcollection, hlookup⟩ := Option.bind_eq_some_iff.mp hitem
  have hreachable : Reachable Crypto.plain mintedForStranger := .applyTransaction _ (.applyTransaction _ .empty)
  rw [← howner]
  exact ((nft_ownership_kept hreachable).1 _ _ _ _ hcollection hlookup).1

end State

end Nocostcoin
