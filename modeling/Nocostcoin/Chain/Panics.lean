import Nocostcoin.Chain.Advance
import Nocostcoin.Chain.RootHistory

/-!
# When `add_block` panics

A call panics where the head block is missing, or where a commit inserts into the trie an address at which
the trie is indexed out of bounds. The head stays in place as long as the database takes blocks and heads;
what is inserted are addresses that transactions name.
-/

namespace Nocostcoin

open MerklePatriciaTrie (insertAll)

/-- The database refuses neither blocks nor heads. -/
structure Host.KeepsHeads (host : Host) : Prop where
  block : ∀ block, host.disk (.block block) = none
  head : ∀ hash, host.disk (.head hash) = none

/-- A reliable database does not. -/
theorem Host.Reliable.keepsHeads {host : Host} (h : host.Reliable) : host.KeepsHeads :=
  ⟨fun _ => h _, fun _ => h _⟩

/-- The addresses that a transaction may enter in the ledger: its sender, and whom its data credits. A channel
that is closed credits the partners that were entered when it was opened. -/
def Transaction.entered (tx : Transaction) : List Bytes :=
  tx.sender ::
    match tx.data with
    | .nativeTransfer _ | .transferAsset _ _ | .transferNFT _ _ => [tx.receiver]
    | .mintNFT _ _ _ recipient => [recipient]
    | .openChannel partner _ _ => [partner]
    | _ => []

/-- They are of a kind. -/
def Transaction.Names (Q : Bytes → Prop) (tx : Transaction) : Prop := ∀ address ∈ tx.entered, Q address

instance {Q : Bytes → Prop} [DecidablePred Q] (tx : Transaction) : Decidable (tx.Names Q) :=
  inferInstanceAs (Decidable (∀ address ∈ tx.entered, Q address))

namespace State

variable {crypto : Crypto} {host : Host} {s s' : State} {tx : Transaction} {Q : Bytes → Prop}

/-- The walk of a commit ends exactly when the insertions of what it writes complete. -/
theorem storeChanges_isSome_iff (addresses : List Bytes) (s : State) :
    (storeChanges crypto host addresses s).isSome ↔
      (insertAll crypto s.trie (insertions host (accountWrites crypto host addresses s))).isSome := by
  induction addresses generalizing s with
  | nil => exact ⟨fun _ => rfl, fun _ => rfl⟩
  | cons address rest ih =>
    rw [storeChanges, accountWrites]
    cases hpending : s.pendingChanges.lookup address with
    | none => exact ih s
    | some account =>
      dsimp only
      unfold Storage.storeAccount Storage.write
      cases hdisk : host.disk (.account address account) with
      | some error => exact ⟨fun _ => rfl, fun _ => rfl⟩
      | none =>
        dsimp only
        change _ ↔ (insertAll crypto s.trie ((address, host.encode account) :: insertions host _)).isSome
        rw [MerklePatriciaTrie.insertAll_cons]
        cases hinsert : s.trie.insert crypto address (host.encode account) with
        | none => exact ⟨fun h => h, fun h => h⟩
        | some trie => exact ih _

/-- So does the commit. -/
theorem applyChanges_isSome_iff (s : State) :
    (s.applyChanges crypto host).isSome ↔
      (insertAll crypto s.trie (insertions host
        (s.accountWrites crypto host (host.order s.pendingChanges.keys)))).isSome := by
  rw [← storeChanges_isSome_iff]
  unfold applyChanges
  cases storeChanges crypto host (host.order s.pendingChanges.keys) s with
  | none => exact ⟨fun h => h, fun h => h⟩
  | some outcome =>
    obtain ⟨result, walked⟩ := outcome
    cases result <;> exact ⟨fun _ => rfl, fun _ => rfl⟩

/-- The addresses of the ledger are of a kind: those of the accounts and the partners of the channels. -/
structure Confined (Q : Bytes → Prop) (s : State) : Prop where
  accounts : s.Everywhere fun address _ => Q address
  partners : ∀ channelId channel, s.channels.lookup channelId = some channel →
    Q channel.partnerA ∧ Q channel.partnerB

/-- A change to the account of such an address. -/
theorem Confined.modifyAccount (h : s.Confined Q) {address : Bytes} {update : Account → Account}
    (haddress : Q address) : (s.modifyAccount address update).Confined Q :=
  ⟨h.accounts.modifyAccount haddress, h.partners⟩

/-- An entry for a channel of such addresses. -/
theorem Confined.putChannel (h : s.Confined Q) {channelId : Bytes} {channel : PaymentChannel}
    (hpartners : Q channel.partnerA ∧ Q channel.partnerB) : (s.putChannel channelId channel).Confined Q := by
  refine ⟨h.accounts, fun other found hfound => ?_⟩
  change (s.channels.insert channelId channel).lookup other = some found at hfound
  rw [FiniteMap.lookup_insert_ite] at hfound
  split at hfound
  · rw [← Option.some.inj hfound]
    exact hpartners
  · exact h.partners other found hfound

/-- The effect of a transaction that names such addresses. -/
theorem confined_of_effect (h : Effect crypto s tx s') (hbefore : s.Confined Q) (hnames : tx.Names Q) :
    s'.Confined Q := by
  have hsender : Q tx.sender := hnames tx.sender List.mem_cons_self
  unfold Transaction.Names Transaction.entered at hnames
  cases h with
  | nativeTransfer hdata =>
    rw [hdata] at hnames
    exact (hbefore.modifyAccount hsender).modifyAccount (hnames tx.receiver (by simp))
  | createAsset => exact ⟨(hbefore.modifyAccount hsender).accounts, hbefore.partners⟩
  | transferAsset hdata =>
    rw [hdata] at hnames
    exact (hbefore.modifyAccount hsender).modifyAccount (hnames tx.receiver (by simp))
  | createCollection => exact ⟨hbefore.accounts, hbefore.partners⟩
  | @mintNFT _ _ recipient _ _ hdata =>
    rw [hdata] at hnames
    exact ⟨(hbefore.modifyAccount (hnames recipient (by simp))).accounts, hbefore.partners⟩
  | transferNFT hdata =>
    rw [hdata] at hnames
    exact ⟨((hbefore.modifyAccount hsender).modifyAccount (hnames tx.receiver (by simp))).accounts,
      hbefore.partners⟩
  | @openChannel partner _ _ _ hdata =>
    rw [hdata] at hnames
    exact (hbefore.modifyAccount hsender).putChannel ⟨hsender, hnames partner (by simp)⟩
  | closeChannel hdata hchannel =>
    obtain ⟨hfirst, hsecond⟩ := hbefore.partners _ _ hchannel
    exact ((hbefore.modifyAccount hfirst).modifyAccount hsecond).putChannel ⟨hfirst, hsecond⟩
  | delegateSpend => exact hbefore.modifyAccount hsender
  | registerValidator => exact hbefore.modifyAccount hsender
  | unregisterValidator => exact hbefore

/-- What such a transaction leaves when it fails. -/
theorem confined_of_residue (h : Residue crypto s tx s') (hbefore : s.Confined Q) (hnames : tx.Names Q) :
    s'.Confined Q := by
  cases h with
  | unchanged => exact hbefore
  | debited => exact hbefore.modifyAccount (hnames tx.sender List.mem_cons_self)
  | markedClosed hdata hchannel =>
    have hpartners := hbefore.partners _ _ hchannel
    exact hbefore.putChannel hpartners
  | ownerChanged => exact ⟨hbefore.accounts, hbefore.partners⟩

/-- Whatever happens to the ledger while such transactions are offered. -/
theorem confined_of_advances (h : Advances crypto (Transaction.Names Q) s s') (hbefore : s.Confined Q) :
    s'.Confined Q := by
  refine h.invariant (Confined Q) hbefore fun s s' hadvance hconfined => ?_
  cases hadvance with
  | effect hoffered _ _ heffect =>
    exact (confined_of_effect heffect hconfined hoffered).modifyAccount (hoffered _ List.mem_cons_self)
  | residue hoffered _ hresidue => exact confined_of_residue hresidue hconfined hoffered
  | commit happly =>
    refine ⟨everywhere_of_commit hconfined.accounts happly, ?_⟩
    obtain ⟨accounts, pending, trie, rfl⟩ := applyChanges_frame happly
    exact hconfined.partners
  | discard =>
    refine ⟨fun address account hfound => hconfined.accounts address account ?_, hconfined.partners⟩
    exact .inr (hfound.resolve_left (by simp [discardChanges]))
  | refund stake hoffered hdata => exact hconfined.modifyAccount (hoffered _ List.mem_cons_self)
  | write haccounts =>
    refine ⟨fun address account hfound => hconfined.accounts address account ?_, hconfined.partners⟩
    rwa [haccounts] at hfound

/-- A walk inserts such addresses. -/
theorem Confined.kind_of_walk (h : s.Confined Q) (host : Host) (addresses : List Bytes) :
    ∀ entry ∈ insertions host (accountWrites crypto host addresses s), Q entry.1 := by
  intro entry hentry
  obtain ⟨record, hrecord, hinsertion⟩ := List.mem_filterMap.mp hentry
  obtain ⟨address, account, rfl, hpending⟩ := pending_of_accountWrites hrecord
  rw [← Option.some.inj hinsertion]
  exact h.accounts address account (.inl hpending)

end State

namespace Chain

variable {crypto : Crypto} {host : Host} {chain chain' ready : Chain} {block : Block} {accepted : Bool}
  {Q : Bytes → Prop}

/-- A commit ends exactly when the insertions of what it writes complete. -/
theorem commitBlock_isSome_iff (hhead : chain.getHead.isSome) :
    (commitBlock crypto host chain block).isSome ↔
      (insertAll crypto chain.state.trie
        (insertions host (chain.commitWrites crypto host block))).isSome := by
  obtain ⟨currentHead, hcurrent⟩ := Option.isSome_iff_exists.mp hhead
  unfold commitBlock commitWrites
  rw [hcurrent]
  obtain ⟨hallowed, -, htrie⟩ := chooseHead_made host chain block currentHead
  dsimp only at hallowed ⊢
  simp only [Storage.storeBlock, Storage.write, Option.bind_eq_bind, Option.bind_some]
  rw [insertions_append, insertions_eq_nil block hallowed, List.nil_append, ← htrie]
  generalize chain.chooseHead host block currentHead = chosen
  cases hdisk : host.disk (.block block) with
  | some error => exact ⟨fun _ => rfl, fun _ => rfl⟩
  | none =>
    dsimp only
    change _ ↔ (insertAll crypto chosen.state.trie (insertions host (_ ++ _))).isSome
    rw [insertions_append]
    have hwalk := @State.applyChanges_isSome_iff crypto host
      (chosen.withStorage (chosen.storage.put (.block block))).state
    change _ ↔ (insertAll crypto
      (chosen.withStorage (chosen.storage.put (.block block))).state.trie (_ ++ _)).isSome
    generalize chosen.withStorage (chosen.storage.put (.block block)) = stocked at hwalk ⊢
    cases happly : stocked.state.applyChanges crypto host with
    | none =>
      rw [happly] at hwalk
      dsimp only
      rw [insertions_eq_nil block fun _ hnone => absurd hnone List.not_mem_nil, List.append_nil]
      exact hwalk
    | some outcome =>
      obtain ⟨result, walked⟩ := outcome
      rw [happly] at hwalk
      cases result with
      | error error =>
        dsimp only
        rw [insertions_eq_nil block fun _ hnone => absurd hnone List.not_mem_nil, List.append_nil]
        exact hwalk
      | ok =>
        have hafter : ∀ record ∈ Storage.made host.disk (.height block.header.slot block.hash) ++
            indexWrites crypto host block block.transactions
              (walked.storage.putAll (Storage.made host.disk (.height block.header.slot block.hash))),
            Allows block ∅ record := (finish_made crypto host { stocked with state := walked } block).1
        dsimp only
        rw [insertions_eq_nil block hafter, List.append_nil]
        exact hwalk

/-- A block that does not reach the fork choice is rejected. -/
theorem addBlock_of_unprepared (h : chain.prepared crypto host block = none) :
    (addBlock crypto host chain block).isSome := by
  unfold prepared at h
  unfold addBlock
  cases hparent : chain.getBlock block.header.parentHash with
  | none => rfl
  | some parent =>
    rw [hparent] at h
    dsimp only at h ⊢
    cases hdetect : chain.detectEquivocation host block with
    | mk equivocates recorded =>
      rw [hdetect] at h
      cases equivocates with
      | true => rfl
      | false =>
        dsimp only at h ⊢
        cases hvalid : Consensus.validateBlock crypto block parent recorded.validators with
        | error error => rfl
        | ok =>
          rw [hvalid] at h
          dsimp only at h ⊢
          cases hexec : processTransactions crypto recorded.state.discardChanges block.transactions with
          | mk result state =>
            rw [hexec] at h
            cases result with
            | error error => rfl
            | ok =>
              dsimp only at h ⊢
              split
              · rfl
              · rename_i hnamed
                rw [if_neg hnamed] at h
                contradiction

/-- A block that reaches it is committed, on a chain with the head, the blocks and the trie of before and
with the effects of its transactions. -/
theorem addBlock_of_prepared (h : chain.prepared crypto host block = some ready)
    (hnames : ∀ tx ∈ block.transactions, tx.Names Q) :
    addBlock crypto host chain block = commitBlock crypto host ready block ∧
      ready.getHead = chain.getHead ∧ ready.state.trie = chain.state.trie ∧
      (chain.state.Confined Q → ready.state.Confined Q) := by
  unfold prepared at h
  unfold addBlock
  cases hparent : chain.getBlock block.header.parentHash with
  | none =>
    rw [hparent] at h
    contradiction
  | some parent =>
    rw [hparent] at h
    dsimp only at h ⊢
    cases detectEquivocation_cases host chain block with
    | inl hfound =>
      obtain ⟨existing, -, -, hdetect⟩ := hfound
      rw [hdetect] at h
      contradiction
    | inr hclean =>
      obtain ⟨seenHeaders, headers, hframe⟩ := recordHeader_frame host chain block
      rw [hclean.2, hframe] at h ⊢
      dsimp only at h ⊢
      have hrecorded : State.Advances crypto (Transaction.Names Q) chain.state
          { chain.state with storage := { chain.state.storage with headers } } :=
        State.advances_write rfl
      have hready := hrecorded.tail .discard
      cases hvalid : Consensus.validateBlock crypto block parent chain.validators with
      | error error =>
        rw [hvalid] at h
        contradiction
      | ok =>
        rw [hvalid] at h
        dsimp only at h ⊢
        have hkept := storage_processTransactions crypto
          (State.discardChanges { chain.state with storage := { chain.state.storage with headers } })
          block.transactions
        cases hexec : processTransactions crypto
            (State.discardChanges { chain.state with storage := { chain.state.storage with headers } })
            block.transactions with
        | mk result state =>
          rw [hexec] at h hkept
          cases result with
          | error error => contradiction
          | ok =>
            dsimp only at h ⊢
            split at h
            · contradiction
            · rename_i hnamed
              obtain rfl := Option.some.inj h
              refine ⟨if_neg hnamed, ?_, hkept.2, fun hconfined => ?_⟩
              · unfold getHead storage
                rw [hkept.1]
                rfl
              · exact State.confined_of_advances
                  (hready.trans (advances_of_processTransactions hnames hexec)) hconfined

/-- What a delivery needs and keeps: the head in place, on disk and as a stored block, and addresses of a
kind throughout the ledger. -/
structure Upright (Q : Bytes → Prop) (chain : Chain) : Prop where
  head : chain.getHead.isSome
  stored : chain.storage.head = some chain.head
  confined : chain.state.Confined Q

/-- A delivery ends exactly when the insertions of its journal complete. -/
theorem addBlock_isSome_iff (hupright : chain.Upright Q)
    (hnames : ∀ tx ∈ block.transactions, tx.Names Q) :
    (addBlock crypto host chain block).isSome ↔
      (insertAll crypto chain.state.trie (insertions host (chain.journal crypto host block))).isSome := by
  unfold journal
  rw [insertions_append]
  have hheader : insertions host (chain.headerWrites host block) = [] := by
    apply insertions_eq_nil block
    intro record hrecord
    unfold headerWrites at hrecord
    split at hrecord
    · exact allows_made (by trivial) hrecord
    · cases hrecord
  rw [hheader, List.nil_append]
  cases hprepared : chain.prepared crypto host block with
  | none => exact ⟨fun _ => rfl, fun _ => addBlock_of_unprepared hprepared⟩
  | some ready =>
    obtain ⟨hcommit, hhead, htrie, -⟩ := addBlock_of_prepared hprepared hnames
    dsimp only
    rw [hcommit, ← htrie]
    exact commitBlock_isSome_iff (hhead ▸ hupright.head)

/-- A delivery inserts addresses of the kind. -/
theorem kind_of_journal (hupright : chain.Upright Q) (hnames : ∀ tx ∈ block.transactions, tx.Names Q) :
    ∀ entry ∈ insertions host (chain.journal crypto host block), Q entry.1 := by
  intro entry hentry
  obtain ⟨record, hrecord, hinsertion⟩ := List.mem_filterMap.mp hentry
  have hallowed := allows_journal hrecord
  cases record with
  | account address account =>
    rw [← Option.some.inj hinsertion]
    unfold overlay at hallowed
    cases hprepared : chain.prepared crypto host block with
    | none =>
      rw [hprepared] at hallowed
      exact absurd hallowed (by simp [Allows])
    | some ready =>
      rw [hprepared] at hallowed
      have hconfined := (addBlock_of_prepared hprepared hnames).2.2.2 hupright.confined
      exact hconfined.accounts address account (.inl hallowed)
  | _ => contradiction

/-- A commit leaves the head in place. -/
theorem head_of_commitBlock (hkeeps : host.KeepsHeads) (hstored : chain.storage.head = some chain.head)
    (h : commitBlock crypto host chain block = some (accepted, chain')) :
    chain'.getHead.isSome ∧ chain'.storage.head = some chain'.head := by
  obtain ⟨currentHead, hhead, h⟩ := Option.bind_eq_some_iff.mp h
  have hchosen : (chain.chooseHead host block currentHead).storage.head =
      some (chain.chooseHead host block currentHead).head ∧
      (chain.chooseHead host block currentHead).storage.blocks = chain.storage.blocks ∧
      ((chain.chooseHead host block currentHead).head = block.hash ∨
        (chain.chooseHead host block currentHead).head = chain.head) := by
    unfold chooseHead
    split
    · unfold logged Storage.storeHead Storage.write
      dsimp only
      rw [hkeeps.head]
      exact ⟨rfl, rfl, .inl rfl⟩
    · exact ⟨hstored, rfl, .inr rfl⟩
  obtain ⟨hdisk, hblocks, hwhich⟩ := hchosen
  generalize chain.chooseHead host block currentHead = chosen at h hdisk hblocks hwhich
  simp only [Storage.storeBlock, Storage.write, hkeeps.block] at h
  obtain ⟨⟨result, walked⟩, happly, h⟩ := Option.bind_eq_some_iff.mp h
  obtain ⟨accounts, pending, trie, rfl⟩ := State.applyChanges_frame happly
  have hpresent : ((chosen.storage.put (.block block)).getBlock chosen.head).isSome := by
    change ((chosen.storage.blocks.insert block.hash block).lookup chosen.head).isSome
    rw [FiniteMap.lookup_insert_ite, hblocks]
    split
    · rfl
    · rename_i hother
      rw [hwhich.resolve_left hother]
      exact Option.isSome_of_eq_some hhead
  cases result with
  | error error =>
    obtain ⟨-, rfl⟩ := Prod.mk.inj (Option.some.inj h)
    exact ⟨hpresent, hdisk⟩
  | ok =>
    obtain ⟨-, rfl⟩ := Prod.mk.inj (Option.some.inj h)
    obtain ⟨pending', storage', hfold, ⟨txIndex, historyCount, history, rfl⟩, -, -⟩ :=
      foldl_indexTransaction_frame crypto host block block.transactions _
    rw [hfold]
    unfold logged Storage.storeBlockByHeight Storage.write
    cases host.disk (.height block.header.slot block.hash) with
    | none => exact ⟨hpresent, hdisk⟩
    | some error => exact ⟨hpresent, hdisk⟩

/-- A delivery keeps the chain upright. -/
theorem upright_of_addBlock (hupright : chain.Upright Q) (hkeeps : host.KeepsHeads)
    (hnames : ∀ tx ∈ block.transactions, tx.Names Q)
    (h : addBlock crypto host chain block = some (accepted, chain')) : chain'.Upright Q := by
  have hconfined := State.confined_of_advances
    (state_advances_of_delivery hnames (delivery_of_addBlock h)) hupright.confined
  have hplace : chain'.getHead.isSome ∧ chain'.storage.head = some chain'.head := by
    obtain ⟨seenHeaders, headers, hframe⟩ := recordHeader_frame host chain block
    have hexecuted : ∀ {result : Except String Unit} {state : State},
        processTransactions crypto (chain.recordHeader host block).state.discardChanges
          block.transactions = (result, state) →
        ((chain.recordHeader host block).withState state).getHead.isSome ∧
          ((chain.recordHeader host block).withState state).storage.head =
            some ((chain.recordHeader host block).withState state).head := by
      intro result state hexec
      obtain ⟨headers', hstorage⟩ := storage_of_execution_frame hexec
      unfold getHead storage
      rw [hframe]
      change (state.storage.getBlock chain.head).isSome ∧ state.storage.head = some chain.head
      rw [hstorage]
      exact ⟨hupright.head, hupright.stored⟩
    cases delivery_of_addBlock h with
    | orphan => exact ⟨hupright.head, hupright.stored⟩
    | equivocation => exact ⟨hupright.head, hupright.stored⟩
    | invalid =>
      rw [hframe]
      exact ⟨hupright.head, hupright.stored⟩
    | failed _ _ _ hexec | mismatch _ _ _ hexec =>
      have hplace := hexecuted hexec
      exact hplace
    | commit _ _ _ hexec _ hcommit => exact head_of_commitBlock hkeeps (hexecuted hexec).2 hcommit
  exact ⟨hplace.1, hplace.2, hconfined⟩

end Chain

end Nocostcoin
