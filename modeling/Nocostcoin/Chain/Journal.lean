import Nocostcoin.Chain.Delivery
import Nocostcoin.Trie.Bounds

/-!
# The journal of `add_block`

`add_block` makes its writes one by one: the header record, the head, the block, the accounts in the order
of the walk, the height, and the indices. The journal of a call lists those that take effect, in their
order; a call that ends leaves what its journal lists.
-/

namespace Nocostcoin

namespace Storage

/-- The record of a write, if it takes effect. -/
def made (disk : Disk) (record : Write) : List Write := if (disk record).isNone then [record] else []

/-- A database after some writes. -/
def putAll (storage : Storage) (writes : List Write) : Storage := writes.foldl put storage

/-- The writes of `add_transaction_to_address`. -/
def historyWrites (disk : Disk) (storage : Storage) (address txHash : String) : List Write :=
  let count := (storage.historyCount.lookup address).getD 0
  match disk (.historyItem address count txHash) with
  | some _ => []
  | none => .historyItem address count txHash :: made disk (.historyCount address (count + 1))

theorem putAll_append (storage : Storage) (writes writes' : List Write) :
    storage.putAll (writes ++ writes') = (storage.putAll writes).putAll writes' :=
  List.foldl_append

/-- A write leaves what it made. -/
theorem snd_write (disk : Disk) (context : String) (storage : Storage) (record : Write) :
    (storage.write disk context record).2 = storage.putAll (made disk record) := by
  unfold write made
  cases disk record <;> rfl

theorem snd_addTransactionToAddress (disk : Disk) (storage : Storage) (address txHash : String) :
    (storage.addTransactionToAddress disk address txHash).2 =
      storage.putAll (storage.historyWrites disk address txHash) := by
  unfold addTransactionToAddress historyWrites
  dsimp only
  cases hitem : disk (.historyItem address ((storage.historyCount.lookup address).getD 0) txHash) with
  | some error =>
    simp only [write, hitem]
    rfl
  | none =>
    rw [write, hitem]
    exact snd_write _ _ _ _

end Storage

/-- The insertions into the trie that come with some writes: one for every account. -/
def insertions (host : Host) (writes : List Write) : List (Bytes × Bytes) :=
  writes.filterMap fun
    | .account address account => some (address, host.encode account)
    | _ => none

theorem insertions_append (host : Host) (writes writes' : List Write) :
    insertions host (writes ++ writes') = insertions host writes ++ insertions host writes' :=
  List.filterMap_append

namespace State

variable {crypto : Crypto} {host : Host} {s s' : State} {result : Except String Unit}

/-- The writes of `apply_changes` over the addresses still to walk, up to a refused one or to a trie that
panics. -/
def accountWrites (crypto : Crypto) (host : Host) : List Bytes → State → List Write
  | [], _ => []
  | address :: rest, state =>
    match state.pendingChanges.lookup address with
    | none => accountWrites crypto host rest state
    | some account =>
      match host.disk (.account address account) with
      | some _ => []
      | none => .account address account ::
        match state.trie.insert crypto address (host.encode account) with
        | none => []
        | some trie => accountWrites crypto host rest
            { state with storage := state.storage.put (.account address account), trie }

/-- The walk of a commit leaves in the database what it wrote, and has inserted the accounts that it wrote. -/
theorem storeChanges_made {addresses : List Bytes}
    (h : storeChanges crypto host addresses s = some (result, s')) :
    s'.storage = s.storage.putAll (accountWrites crypto host addresses s) ∧
      MerklePatriciaTrie.insertAll crypto s.trie
        (insertions host (accountWrites crypto host addresses s)) = some s'.trie := by
  induction addresses generalizing s with
  | nil =>
    cases h
    exact ⟨rfl, rfl⟩
  | cons address rest ih =>
    rw [storeChanges] at h
    rw [accountWrites]
    cases hpending : s.pendingChanges.lookup address with
    | none =>
      rw [hpending] at h
      exact ih h
    | some account =>
      rw [hpending] at h
      dsimp only at h ⊢
      unfold Storage.storeAccount Storage.write at h
      cases hdisk : host.disk (.account address account) with
      | some error =>
        rw [hdisk] at h
        cases h
        exact ⟨rfl, rfl⟩
      | none =>
        rw [hdisk] at h
        dsimp only at h ⊢
        cases hinsert : s.trie.insert crypto address (host.encode account) with
        | none =>
          rw [hinsert] at h
          contradiction
        | some trie =>
          rw [hinsert] at h
          obtain ⟨hstorage, htrie⟩ := ih h
          refine ⟨hstorage, ?_⟩
          change MerklePatriciaTrie.insertAll crypto s.trie
            ((address, host.encode account) :: insertions host _) = _
          rw [MerklePatriciaTrie.insertAll_cons, hinsert]
          exact htrie

/-- So has a whole commit. -/
theorem applyChanges_made (h : s.applyChanges crypto host = some (result, s')) :
    s'.storage = s.storage.putAll (accountWrites crypto host (host.order s.pendingChanges.keys) s) ∧
      MerklePatriciaTrie.insertAll crypto s.trie
        (insertions host (accountWrites crypto host (host.order s.pendingChanges.keys) s)) =
          some s'.trie := by
  obtain ⟨⟨walked, state⟩, hwalk, h⟩ := Option.bind_eq_some_iff.mp h
  have hmade := storeChanges_made hwalk
  cases walked with
  | error error =>
    cases h
    exact hmade
  | ok =>
    cases h
    exact hmade

/-- Only pending accounts are written. -/
theorem pending_of_accountWrites {addresses : List Bytes} {record : Write}
    (h : record ∈ accountWrites crypto host addresses s) :
    ∃ address account, record = .account address account ∧
      s.pendingChanges.lookup address = some account := by
  induction addresses generalizing s with
  | nil => cases h
  | cons address rest ih =>
    rw [accountWrites] at h
    cases hpending : s.pendingChanges.lookup address with
    | none =>
      rw [hpending] at h
      exact ih h
    | some account =>
      rw [hpending] at h
      dsimp only at h
      cases hdisk : host.disk (.account address account) with
      | some error =>
        rw [hdisk] at h
        cases h
      | none =>
        rw [hdisk] at h
        cases List.mem_cons.mp h with
        | inl hfirst => exact ⟨address, account, hfirst, hpending⟩
        | inr hrest =>
          cases hinsert : s.trie.insert crypto address (host.encode account) with
          | none =>
            rw [hinsert] at hrest
            cases hrest
          | some trie =>
            rw [hinsert] at hrest
            have hfound := ih hrest
            exact hfound

/-- The walk inserts each address once at most, in its order. -/
theorem insertions_accountWrites_sublist (addresses : List Bytes) (s : State) :
    ((insertions host (accountWrites crypto host addresses s)).map Prod.fst).Sublist addresses := by
  induction addresses generalizing s with
  | nil => exact List.Sublist.refl []
  | cons address rest ih =>
    rw [accountWrites]
    cases s.pendingChanges.lookup address with
    | none => exact (ih s).cons address
    | some account =>
      dsimp only
      cases host.disk (.account address account) with
      | some error => exact List.nil_sublist _
      | none =>
        dsimp only
        cases s.trie.insert crypto address (host.encode account) with
        | none => exact (List.nil_sublist rest).cons_cons address
        | some trie => exact (ih _).cons_cons address

end State

namespace Chain

variable {crypto : Crypto} {host : Host} {chain chain' : Chain} {block : Block} {accepted : Bool}

/-- The writes of the indexing of some transactions. -/
def indexWrites (crypto : Crypto) (host : Host) (block : Block) : List Transaction → Storage → List Write
  | [], _ => []
  | tx :: rest, storage =>
    let txHash := hexEncode (tx.hash crypto)
    let ofTx := Storage.made host.disk (.txIndex txHash block.hash)
    let ofSender := (storage.putAll ofTx).historyWrites host.disk (hexEncode tx.sender) txHash
    let ofReceiver := ((storage.putAll ofTx).putAll ofSender).historyWrites host.disk
      (hexEncode tx.receiver) txHash
    let writes := ofTx ++ ofSender ++ ofReceiver
    writes ++ indexWrites crypto host block rest (storage.putAll writes)

/-- The writes of a block that passed its checks, on the chain with the executed state. -/
def commitWrites (crypto : Crypto) (host : Host) (chain : Chain) (block : Block) : List Write :=
  match chain.getHead with
  | none => []
  | some currentHead =>
    let ofHead :=
      if Consensus.isBetterBlock block currentHead then Storage.made host.disk (.head block.hash) else []
    let chain := chain.chooseHead host block currentHead
    ofHead ++
      match host.disk (.block block) with
      | some _ => []
      | none =>
        let chain := chain.withStorage (chain.storage.put (.block block))
        .block block ::
          (chain.state.accountWrites crypto host (host.order chain.state.pendingChanges.keys) ++
            match chain.state.applyChanges crypto host with
            | some (.ok (), state) =>
              let ofHeight := Storage.made host.disk (.height block.header.slot block.hash)
              ofHeight ++ indexWrites crypto host block block.transactions (state.storage.putAll ofHeight)
            | _ => [])

/-- The chain with the executed state, when a block reaches the fork choice. -/
def prepared (crypto : Crypto) (host : Host) (chain : Chain) (block : Block) : Option Chain :=
  match chain.getBlock block.header.parentHash with
  | none => none
  | some parentBlock =>
    match chain.detectEquivocation host block with
    | (true, _) => none
    | (false, chain) =>
      match Consensus.validateBlock crypto block parentBlock chain.validators with
      | .error _ => none
      | .ok () =>
        match processTransactions crypto chain.state.discardChanges block.transactions with
        | (.error _, _) => none
        | (.ok (), state) =>
          if block.header.stateRoot ≠ "" ∧ block.header.stateRoot ≠ state.getRootHash then none
          else some { chain with state }

/-- The write of the equivocation check. -/
def headerWrites (host : Host) (chain : Chain) (block : Block) : List Write :=
  if (chain.getBlock block.header.parentHash).isSome ∧
      chain.existingHash block.header.slot block.header.validatorPubkey = none then
    Storage.made host.disk (.header block.header.slot block.header.validatorPubkey block.hash)
  else []

/-- The writes of `add_block` that take effect, in their order. -/
def journal (crypto : Crypto) (host : Host) (chain : Chain) (block : Block) : List Write :=
  chain.headerWrites host block ++
    match chain.prepared crypto host block with
    | none => []
    | some ready => ready.commitWrites crypto host block

/-- The accounts that the block changes. -/
def overlay (crypto : Crypto) (host : Host) (chain : Chain) (block : Block) : FiniteMap Bytes Account :=
  match chain.prepared crypto host block with
  | none => ∅
  | some ready => ready.state.pendingChanges

/-- Indexing leaves what it wrote. -/
theorem storage_foldl_indexTransaction (txs : List Transaction) (chain : Chain) :
    (txs.foldl (indexTransaction crypto host block) chain).storage =
      chain.storage.putAll (indexWrites crypto host block txs chain.storage) := by
  induction txs generalizing chain with
  | nil => rfl
  | cons tx rest ih =>
    have hmanaged : (chain.manageValidators block tx).state.storage = chain.state.storage := by
      cases manageValidators_frame chain block tx with
      | intro pending hframe => rw [hframe.1]; rfl
    have hfirst : (indexTransaction crypto host block chain tx).storage = chain.storage.putAll
        (indexWrites crypto host block [tx] chain.storage) := by
      unfold indexTransaction indexWrites
      simp only [logged, storage, withStorage, Storage.snd_addTransactionToAddress,
        Storage.storeTransactionIndex, Storage.snd_write, indexWrites, List.append_nil,
        Storage.putAll_append]
      rw [hmanaged]
    rw [List.foldl_cons, ih, hfirst, ← Storage.putAll_append]
    conv_rhs => rw [indexWrites]
    simp only [indexWrites, List.append_nil]

/-- The records that a call may write: the block, its hash as the head, the accounts of its overlay, and
records that no account, block or head is read from. -/
def Allows (block : Block) (overlay : FiniteMap Bytes Account) : Write → Prop
  | .head hash => hash = block.hash
  | .block stored => stored = block
  | .account address account => overlay.lookup address = some account
  | _ => True

theorem allows_made {overlay : FiniteMap Bytes Account} {disk : Disk} {record written : Write}
    (hrecord : Allows block overlay record) (h : written ∈ Storage.made disk record) :
    Allows block overlay written := by
  unfold Storage.made at h
  split at h
  · rw [List.mem_singleton.mp h]
    exact hrecord
  · cases h

theorem allows_historyWrites {overlay : FiniteMap Bytes Account} {disk : Disk} {storage : Storage}
    {address txHash : String} {written : Write}
    (h : written ∈ storage.historyWrites disk address txHash) : Allows block overlay written := by
  unfold Storage.historyWrites at h
  dsimp only at h
  split at h
  · cases h
  · cases List.mem_cons.mp h with
    | inl hitem => rw [hitem]; trivial
    | inr hcount =>
      apply allows_made _ hcount
      trivial

theorem allows_indexWrites {overlay : FiniteMap Bytes Account} {txs : List Transaction}
    {storage : Storage} {written : Write} (h : written ∈ indexWrites crypto host block txs storage) :
    Allows block overlay written := by
  induction txs generalizing storage with
  | nil => cases h
  | cons tx rest ih =>
    rw [indexWrites] at h
    simp only [List.mem_append] at h
    rcases h with ((htx | hsender) | hreceiver) | hrest
    · apply allows_made _ htx
      trivial
    · exact allows_historyWrites hsender
    · exact allows_historyWrites hreceiver
    · exact ih hrest

/-- The fork choice writes the head or nothing, and stores no account. -/
theorem chooseHead_made (host : Host) (chain : Chain) (block currentHead : Block) :
    let moved := if Consensus.isBetterBlock block currentHead then
      Storage.made host.disk (.head block.hash) else []
    (∀ record ∈ moved, Allows block ∅ record) ∧
      (chain.chooseHead host block currentHead).storage = chain.storage.putAll moved ∧
      (chain.chooseHead host block currentHead).state.trie = chain.state.trie := by
  unfold chooseHead
  by_cases hbetter : Consensus.isBetterBlock block currentHead
  · rw [if_pos hbetter, if_pos hbetter]
    refine ⟨fun record hrecord => ?_, Storage.snd_write _ _ _ _, rfl⟩
    exact allows_made (by rfl) hrecord
  · rw [if_neg hbetter, if_neg hbetter]
    exact ⟨fun record hrecord => absurd hrecord List.not_mem_nil, rfl, rfl⟩

/-- The end of a commit writes the height and the indices, and stores no account. -/
theorem finish_made (crypto : Crypto) (host : Host) (chain : Chain) (block : Block) :
    let ofHeight := Storage.made host.disk (.height block.header.slot block.hash)
    let after := ofHeight ++
      indexWrites crypto host block block.transactions (chain.storage.putAll ofHeight)
    let finished := block.transactions.foldl (indexTransaction crypto host block)
      (chain.logged (chain.storage.storeBlockByHeight host.disk block.header.slot block.hash))
    (∀ record ∈ after, Allows block ∅ record) ∧
      finished.storage = chain.storage.putAll after ∧ finished.state.trie = chain.state.trie := by
  refine ⟨fun record hrecord => ?_, ?_, ?_⟩
  · cases List.mem_append.mp hrecord with
    | inl hheight => exact allows_made (by trivial) hheight
    | inr hindex => exact allows_indexWrites hindex
  · have hheight :
        (chain.logged (chain.storage.storeBlockByHeight host.disk block.header.slot block.hash)).storage =
          chain.storage.putAll (Storage.made host.disk (.height block.header.slot block.hash)) :=
      Storage.snd_write _ _ _ _
    rw [storage_foldl_indexTransaction, hheight, Storage.putAll_append]
  · obtain ⟨pending, stored, hfold, -⟩ := foldl_indexTransaction_frame crypto host block
      block.transactions
      (chain.logged (chain.storage.storeBlockByHeight host.disk block.header.slot block.hash))
    rw [hfold]
    rfl

/-- What a commit does, the walk of the accounts apart, stores no account. It ends before the walk, or it
makes the walk and goes on from the state after it. -/
theorem commitBlock_cases (h : commitBlock crypto host chain block = some (accepted, chain')) :
    ∃ before, (∀ record ∈ before, Allows block ∅ record) ∧
      ((chain.commitWrites crypto host block = before ∧
          chain'.storage = chain.storage.putAll before ∧ chain'.state.trie = chain.state.trie) ∨
        ∃ (result : Except String Unit) (walked s : State) (after : List Write),
          (∀ record ∈ after, Allows block ∅ record) ∧
          s.storage = chain.storage.putAll before ∧ s.trie = chain.state.trie ∧
          s.applyChanges crypto host = some (result, walked) ∧
          chain.commitWrites crypto host block =
            before ++ (s.accountWrites crypto host (host.order s.pendingChanges.keys) ++ after) ∧
          chain'.storage = walked.storage.putAll after ∧ chain'.state.trie = walked.trie) := by
  unfold commitBlock at h
  unfold commitWrites
  cases hhead : chain.getHead with
  | none =>
    rw [hhead] at h
    contradiction
  | some currentHead =>
    rw [hhead] at h
    obtain ⟨hallowed, hchosen⟩ := chooseHead_made host chain block currentHead
    dsimp only at h hallowed ⊢
    simp only [Storage.storeBlock, Storage.write, Option.bind_eq_bind, Option.bind_some] at h
    generalize (if Consensus.isBetterBlock block currentHead then
      Storage.made host.disk (.head block.hash) else []) = moved at hallowed hchosen ⊢
    generalize chain.chooseHead host block currentHead = chosen at h hchosen ⊢
    cases hdisk : host.disk (.block block) with
    | some error =>
      rw [hdisk] at h
      cases h
      exact ⟨moved, hallowed, .inl ⟨List.append_nil moved, hchosen⟩⟩
    | none =>
      rw [hdisk] at h
      dsimp only at h ⊢
      have hblock : ∀ record ∈ moved ++ [.block block], Allows block ∅ record := by
        intro record hrecord
        cases List.mem_append.mp hrecord with
        | inl hmove => exact hallowed record hmove
        | inr hstore =>
          rw [List.mem_singleton.mp hstore]
          exact rfl
      have hput : (chosen.withStorage (chosen.storage.put (.block block))).state.storage =
          chain.storage.putAll (moved ++ [.block block]) := by
        rw [Storage.putAll_append, ← hchosen.1]
        rfl
      have htrie : (chosen.withStorage (chosen.storage.put (.block block))).state.trie = chain.state.trie :=
        hchosen.2
      have hsplit : ∀ rest, moved ++ Write.block block :: rest = (moved ++ [.block block]) ++ rest := by
        intro rest
        rw [List.append_assoc, List.singleton_append]
      refine ⟨moved ++ [.block block], hblock, .inr ?_⟩
      generalize chosen.withStorage (chosen.storage.put (.block block)) = stocked at h hput htrie ⊢
      cases happly : stocked.state.applyChanges crypto host with
      | none =>
        rw [happly] at h
        contradiction
      | some outcome =>
        rw [happly] at h
        obtain ⟨result, walked⟩ := outcome
        cases result with
        | error error =>
          cases h
          exact ⟨_, walked, stocked.state, [], fun _ hnone => absurd hnone List.not_mem_nil, hput, htrie,
            happly, hsplit _, rfl, rfl⟩
        | ok =>
          cases h
          obtain ⟨hafter, hfinished⟩ := finish_made crypto host { stocked with state := walked } block
          exact ⟨_, walked, stocked.state, _, hafter, hput, htrie, happly, hsplit _, hfinished⟩

/-- A commit leaves what it wrote. -/
theorem storage_commitBlock (h : commitBlock crypto host chain block = some (accepted, chain')) :
    chain'.storage = chain.storage.putAll (chain.commitWrites crypto host block) := by
  obtain ⟨before, -, hends⟩ := commitBlock_cases h
  cases hends with
  | inl hended => rw [hended.1, hended.2.1]
  | inr hwalked =>
    obtain ⟨result, walked, s, after, -, hbefore, -, happly, hwrites, hafter, -⟩ := hwalked
    rw [hwrites, hafter, (State.applyChanges_made happly).1, hbefore, Storage.putAll_append,
      Storage.putAll_append]

/-- The equivocation check leaves what it wrote. -/
theorem storage_recordHeader {parent : Block} (hparent : chain.getBlock block.header.parentHash = some parent) :
    (chain.recordHeader host block).storage = chain.storage.putAll (chain.headerWrites host block) := by
  unfold recordHeader headerWrites
  rw [hparent]
  cases hexisting : chain.existingHash block.header.slot block.header.validatorPubkey with
  | some existing =>
    rw [if_neg fun hboth => Option.some_ne_none existing hboth.2]
    rfl
  | none =>
    simp only [Option.isSome_some, and_self, if_true]
    exact Storage.snd_write _ _ _ _

/-- A call ends before the fork choice, or it goes on to the commit of the prepared chain; either way the
header record was written, and the trie left alone. -/
theorem addBlock_cases (h : addBlock crypto host chain block = some (accepted, chain')) :
    (chain.prepared crypto host block = none ∧ accepted = false ∧
        chain'.storage = chain.storage.putAll (chain.headerWrites host block) ∧
        chain'.state.trie = chain.state.trie) ∨
      ∃ ready, chain.prepared crypto host block = some ready ∧
        ready.storage = chain.storage.putAll (chain.headerWrites host block) ∧
        ready.state.trie = chain.state.trie ∧
        commitBlock crypto host ready block = some (accepted, chain') := by
  unfold addBlock at h
  unfold prepared
  cases hparent : chain.getBlock block.header.parentHash with
  | none =>
    rw [hparent] at h
    cases h
    have hnone : chain.headerWrites host block = [] := by
      rw [headerWrites, hparent]
      exact if_neg fun hboth => Bool.false_ne_true hboth.1
    rw [hnone]
    exact .inl ⟨rfl, rfl, rfl, rfl⟩
  | some parent =>
    rw [hparent] at h
    cases detectEquivocation_cases host chain block with
    | inl hfound =>
      obtain ⟨existing, hexisting, hne, hdetect⟩ := hfound
      rw [hdetect] at h ⊢
      cases h
      have hnone : chain.headerWrites host block = [] := by
        rw [headerWrites, hexisting]
        exact if_neg fun hboth => Option.some_ne_none existing hboth.2
      rw [hnone]
      exact .inl ⟨rfl, rfl, rfl, rfl⟩
    | inr hclean =>
      have hrecorded : (chain.recordHeader host block).storage =
          chain.storage.putAll (chain.headerWrites host block) := storage_recordHeader hparent
      have hroot : (chain.recordHeader host block).state.trie = chain.state.trie := by
        cases recordHeader_frame host chain block with
        | intro seenHeaders hframe =>
          cases hframe with
          | intro headers hrecord => rw [hrecord]
      rw [hclean.2] at h ⊢
      rw [← hrecorded, ← hroot]
      generalize chain.recordHeader host block = recorded at h ⊢
      dsimp only at h ⊢
      cases hvalid : Consensus.validateBlock crypto block parent recorded.validators with
      | error error =>
        rw [hvalid] at h
        cases h
        exact .inl ⟨rfl, rfl, rfl, rfl⟩
      | ok =>
        rw [hvalid] at h
        dsimp only at h ⊢
        have hkept := storage_processTransactions crypto recorded.state.discardChanges block.transactions
        cases hexec : processTransactions crypto recorded.state.discardChanges block.transactions with
        | mk result state =>
          rw [hexec] at h hkept
          cases result with
          | error error =>
            cases h
            exact .inl ⟨rfl, rfl, hkept.1, hkept.2⟩
          | ok =>
            dsimp only at h ⊢
            split at h
            · rename_i hother
              cases h
              rw [if_pos hother]
              exact .inl ⟨rfl, rfl, hkept.1, hkept.2⟩
            · rename_i hnamed
              rw [if_neg hnamed]
              exact .inr ⟨_, rfl, hkept.1, hkept.2, h⟩

/-- What `add_block` leaves in the database is what its journal lists. -/
theorem storage_addBlock (h : addBlock crypto host chain block = some (accepted, chain')) :
    chain'.storage = chain.storage.putAll (chain.journal crypto host block) := by
  unfold journal
  rw [Storage.putAll_append]
  cases addBlock_cases h with
  | inl hended =>
    rw [hended.1]
    exact hended.2.2.1
  | inr hready =>
    obtain ⟨ready, hprepared, hstorage, -, hcommit⟩ := hready
    rw [hprepared, ← hstorage]
    exact storage_commitBlock hcommit

theorem allows_commitWrites {written : Write} (h : written ∈ chain.commitWrites crypto host block) :
    Allows block chain.state.pendingChanges written := by
  unfold commitWrites at h
  split at h
  · cases h
  · rename_i currentHead hhead
    have hpending : (chain.chooseHead host block currentHead).state.pendingChanges =
        chain.state.pendingChanges := by
      cases chooseHead_frame host chain block currentHead with
      | intro head hframe =>
        cases hframe with
        | intro stored hframe => rw [hframe]
    cases List.mem_append.mp h with
    | inl hhead =>
      split at hhead
      · apply allows_made _ hhead
        exact rfl
      · cases hhead
    | inr hblock =>
      split at hblock
      · cases hblock
      · cases List.mem_cons.mp hblock with
        | inl hstored => rw [hstored]; exact rfl
        | inr hafter =>
          cases List.mem_append.mp hafter with
          | inl haccount =>
            obtain ⟨address, account, hwritten, hlookup⟩ := State.pending_of_accountWrites haccount
            rw [hwritten, ← hpending]
            exact hlookup
          | inr hindex =>
            split at hindex
            · cases List.mem_append.mp hindex with
              | inl hheight =>
                apply allows_made _ hheight
                trivial
              | inr hrest => exact allows_indexWrites hrest
            · cases hindex

/-- Every record of the journal is allowed. -/
theorem allows_journal {written : Write} (h : written ∈ chain.journal crypto host block) :
    Allows block (chain.overlay crypto host block) written := by
  unfold journal at h
  unfold overlay
  cases List.mem_append.mp h with
  | inl hheader =>
    unfold headerWrites at hheader
    split at hheader
    · apply allows_made _ hheader
      trivial
    · cases hheader
  | inr hcommit =>
    cases hready : chain.prepared crypto host block with
    | none =>
      rw [hready] at hcommit
      cases hcommit
    | some ready =>
      rw [hready] at hcommit
      exact allows_commitWrites hcommit

/-- Writes that store no account insert nothing. -/
theorem insertions_eq_nil (block : Block) {writes : List Write} (h : ∀ record ∈ writes, Allows block ∅ record) :
    insertions host writes = [] := by
  apply List.filterMap_eq_nil_iff.mpr
  intro record hrecord
  cases record with
  | account address account => exact absurd (h _ hrecord) (by simp [Allows])
  | _ => rfl

/-- A call writes the account of an address once at most. -/
theorem nodup_insertions_journal :
    ((insertions host (chain.journal crypto host block)).map Prod.fst).Nodup := by
  have hmade : ∀ record, Allows block ∅ record → insertions host (Storage.made host.disk record) = [] :=
    fun record hrecord => insertions_eq_nil block fun _ hwritten => allows_made hrecord hwritten
  have hheader : insertions host (chain.headerWrites host block) = [] := by
    unfold headerWrites
    split
    · exact hmade _ trivial
    · rfl
  unfold journal
  rw [insertions_append, hheader, List.nil_append]
  cases chain.prepared crypto host block with
  | none => exact List.nodup_nil
  | some ready =>
    dsimp only
    unfold commitWrites
    cases ready.getHead with
    | none => exact List.nodup_nil
    | some currentHead =>
      have hhead : insertions host (if Consensus.isBetterBlock block currentHead then
          Storage.made host.disk (.head block.hash) else []) = [] := by
        split
        · exact hmade _ rfl
        · rfl
      dsimp only
      rw [insertions_append, hhead, List.nil_append]
      cases host.disk (.block block) with
      | some error => exact List.nodup_nil
      | none =>
        generalize (ready.chooseHead host block currentHead).withStorage _ = stocked
        have hindices : ∀ after, (∀ record ∈ after, Allows block ∅ record) →
            ((insertions host (.block block :: (stocked.state.accountWrites crypto host
              (host.order stocked.state.pendingChanges.keys) ++ after))).map Prod.fst).Nodup := by
          intro after hafter
          change ((insertions host (_ ++ after)).map Prod.fst).Nodup
          rw [insertions_append, insertions_eq_nil block hafter, List.append_nil]
          exact (State.insertions_accountWrites_sublist _ _).nodup (host.nodup_order _)
        dsimp only
        apply hindices
        intro record hrecord
        split at hrecord
        · cases List.mem_append.mp hrecord with
          | inl hheight => exact allows_made (by trivial) hheight
          | inr hindex => exact allows_indexWrites hindex
        · cases hrecord

end Chain

end Nocostcoin
