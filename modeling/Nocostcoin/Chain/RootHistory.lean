import Nocostcoin.Chain.Acceptance
import Nocostcoin.Chain.CrashPoint
import Nocostcoin.Reload
import Nocostcoin.Trie.Root

/-!
# The state root over the histories of nodes

A commit inserts every account that it writes into the trie, in the order of the walk and in the bytes of
this process; a restart inserts the stored accounts anew. So the root depends on a history only through the
insertions since the last start, and through these only on what was written last to each site.
-/

namespace Nocostcoin

open MerklePatriciaTrie (insertAll lastWrite sited PrefixFree OwnSites CollisionFree nodesOfRun)

variable {crypto : Crypto} {host : Host}

/-- Insertions of two sequences one after the other. -/
theorem MerklePatriciaTrie.insertAll_comp (trie : MerklePatriciaTrie) (entries entries' : List (Bytes × Bytes)) :
    insertAll crypto trie (entries ++ entries') =
      (insertAll crypto trie entries).bind fun trie => insertAll crypto trie entries' :=
  List.foldlM_append

namespace Chain

variable {chain chain' : Chain} {block : Block} {accepted : Bool} {storage : Storage} {genesisBlock : Block}

/-- A commit inserts the accounts that it writes. -/
theorem trie_commitBlock (h : commitBlock crypto host chain block = some (accepted, chain')) :
    insertAll crypto chain.state.trie (insertions host (chain.commitWrites crypto host block)) =
      some chain'.state.trie := by
  obtain ⟨before, hallowed, hcases⟩ := commitBlock_cases h
  cases hcases with
  | inl hended =>
    rw [hended.1, insertions_eq_nil block hallowed, hended.2.2]
    rfl
  | inr hwalked =>
    obtain ⟨result, walked, s, after, hallowed', -, htrie, happly, hwrites, -, htrie'⟩ := hwalked
    rw [hwrites, insertions_append, insertions_append, insertions_eq_nil block hallowed,
      insertions_eq_nil block hallowed', List.nil_append, List.append_nil, ← htrie, htrie']
    exact (State.applyChanges_made happly).2

/-- A delivery inserts the accounts that it writes. -/
theorem trie_addBlock (h : addBlock crypto host chain block = some (accepted, chain')) :
    insertAll crypto chain.state.trie (insertions host (chain.journal crypto host block)) =
      some chain'.state.trie := by
  have hheader : insertions host (chain.headerWrites host block) = [] := by
    apply insertions_eq_nil block
    intro record hrecord
    unfold headerWrites at hrecord
    split at hrecord
    · exact allows_made (by trivial) hrecord
    · cases hrecord
  unfold journal
  rw [insertions_append, hheader, List.nil_append]
  cases addBlock_cases h with
  | inl hended =>
    obtain ⟨hprepared, -, -, htrie⟩ := hended
    rw [hprepared, htrie]
    rfl
  | inr hready =>
    obtain ⟨ready, hprepared, -, htrie, hcommit⟩ := hready
    rw [hprepared, ← htrie]
    exact trie_commitBlock hcommit

/-- The insertions of the start of a node: those of the rebuild, then those of the set-up. -/
def openingInsertions (crypto : Crypto) (host : Host) (storage : Storage) (genesisBlock : Block)
    (balances : List (Bytes × UInt64)) : List (Bytes × Bytes) :=
  match new crypto host storage genesisBlock with
  | none => []
  | some chain =>
    let state := balances.foldl (fun state entry => state.setBalance entry.1 entry.2) chain.state
    rebuildEntries host chain.storage ++
      insertions host (state.accountWrites crypto host (host.order state.pendingChanges.keys))

/-- The trie of a chain that was opened. -/
theorem trie_new (h : new crypto host storage genesisBlock = some chain) :
    insertAll crypto .new (rebuildEntries host chain.storage) = some chain.state.trie := by
  obtain ⟨⟨head, opened⟩, -, h⟩ := Option.bind_eq_some_iff.mp h
  obtain ⟨state, hstate, h⟩ := Option.bind_eq_some_iff.mp h
  obtain ⟨trie, htrie, hstate⟩ := Option.bind_eq_some_iff.mp hstate
  obtain rfl := Option.some.inj hstate
  obtain rfl := Option.some.inj h
  exact List.foldlM_map.trans htrie

/-- The trie of a node that was started. -/
theorem trie_start {balances stakes : List (Bytes × UInt64)}
    (h : start crypto host storage genesisBlock balances stakes = some chain) :
    insertAll crypto .new (openingInsertions crypto host storage genesisBlock balances) =
      some chain.state.trie := by
  obtain ⟨opened, hnew, h⟩ := Option.bind_eq_some_iff.mp h
  obtain ⟨⟨result, state⟩, happly, h⟩ := Option.bind_eq_some_iff.mp h
  obtain rfl := Option.some.inj h
  obtain ⟨pending, hfold, -⟩ := State.foldl_setBalance balances opened.state
  have htrie := (State.applyChanges_made happly).2
  rw [openingInsertions, hnew]
  dsimp only
  rw [MerklePatriciaTrie.insertAll_comp, trie_new hnew]
  rw [hfold] at htrie ⊢
  exact htrie

/-- The insertions of a node after a call: a delivery adds those of its journal, a restart starts over. -/
def insertedAfter (crypto : Crypto) (inserted : List (Bytes × Bytes))
    (call : Execution.Call Chain Request Bool) : List (Bytes × Bytes) :=
  match call.label with
  | .deliver host block => inserted ++ insertions host (call.pre.journal crypto host block)
  | .vote _ _ => inserted
  | .reopen host genesisBlock balances _ =>
      openingInsertions crypto host call.pre.storage genesisBlock balances

/-- The history of a node: how it was started, and the calls that it has answered since. -/
structure History (crypto : Crypto) where
  host : Host
  storage : Storage
  genesisBlock : Block
  balances : List (Bytes × UInt64)
  stakes : List (Bytes × UInt64)
  opened : Chain
  calls : List (Execution.Call Chain Request Bool)
  chain : Chain
  started : start crypto host storage genesisBlock balances stakes = some opened
  run : Execution.Run (serve crypto) opened calls chain

namespace History

/-- The insertions into the node's trie, in their order: address and serialized account. -/
def inserted (history : History crypto) : List (Bytes × Bytes) :=
  history.calls.foldl (insertedAfter crypto)
    (openingInsertions crypto history.host history.storage history.genesisBlock history.balances)

/-- The trie of a node is made of the insertions of its history. -/
theorem trie_eq (history : History crypto) :
    insertAll crypto .new history.inserted = some history.chain.state.trie := by
  obtain ⟨host, storage, genesisBlock, balances, stakes, opened, calls, chain, hstart, hrun⟩ := history
  unfold inserted
  dsimp only
  induction hrun with
  | nil => exact trie_start hstart
  | @snoc calls s s' request output _ hnext ih =>
    rw [List.foldl_append, List.foldl_cons, List.foldl_nil]
    cases request with
    | deliver host block =>
      change insertAll crypto .new (_ ++ insertions host (s.journal crypto host block)) = _
      rw [MerklePatriciaTrie.insertAll_comp, ih]
      exact trie_addBlock hnext
    | vote host vote =>
      obtain ⟨votes, stored, finalizedHead, rfl⟩ := serve_vote_frame hnext
      exact ih
    | reopen host genesisBlock balances stakes =>
      exact trie_start (start_of_serve hnext)

/-- Where no address is a proper prefix of another the roots of two nodes are equal exactly when the last
insertions at every site are. -/
theorem getRootHash_eq_iff_sited (hdigest : ∀ bytes, (crypto.sha256 bytes).length = 32)
    (history history' : History crypto) (hkeys : PrefixFree history.inserted)
    (hkeys' : PrefixFree history'.inserted)
    (hfree : CollisionFree crypto
      (nodesOfRun crypto history.inserted ++ nodesOfRun crypto history'.inserted)) :
    history.chain.state.getRootHash = history'.chain.state.getRootHash ↔
      ∀ path, lastWrite (sited history.inserted) path = lastWrite (sited history'.inserted) path := by
  obtain ⟨trie, trie', hall, hall', hroot⟩ :=
    MerklePatriciaTrie.rootHash_eq_iff_sited hdigest hkeys hkeys' hfree
  rw [history.trie_eq] at hall
  rw [history'.trie_eq] at hall'
  obtain rfl := Option.some.inj hall
  obtain rfl := Option.some.inj hall'
  exact hroot

/-- The bytes that a database leads to for an address. -/
def serialized (encode : Account → Bytes) (storage : Storage) (address : Bytes) : Option Bytes :=
  (storage.accounts.lookup address).map encode

/-- What was inserted last under every address is the serialized account of the database. -/
def Mirrors (encode : Account → Bytes) (entries : List (Bytes × Bytes)) (storage : Storage) : Prop :=
  ∀ address, lastWrite entries address = serialized encode storage address

/-- Writes and their insertions keep the mirror. -/
theorem Mirrors.putAll {entries : List (Bytes × Bytes)} {storage : Storage}
    (h : Mirrors host.encode entries storage) (writes : List Write) :
    Mirrors host.encode (entries ++ insertions host writes) (storage.putAll writes) := by
  induction writes generalizing entries storage with
  | nil =>
    rw [insertions, List.filterMap_nil, List.append_nil]
    exact h
  | cons record rest ih =>
    cases record with
    | account address account =>
      have hfirst : Mirrors host.encode (entries ++ [(address, host.encode account)])
          (storage.put (.account address account)) := by
        intro other
        rw [MerklePatriciaTrie.lastWrite_append, h other]
        unfold serialized
        change _ = ((storage.accounts.insert address account).lookup other).map _
        rw [FiniteMap.lookup_insert_ite]
        split
        · rfl
        · rfl
      have hrest := ih hfirst
      rw [List.append_assoc] at hrest
      exact hrest
    | _ => exact ih h

/-- Insertions of different keys leave them all. -/
theorem lastWrite_eq_some_iff {entries : List (Bytes × Bytes)} (hnodup : (entries.map Prod.fst).Nodup)
    {key value : Bytes} : lastWrite entries key = some value ↔ (key, value) ∈ entries := by
  induction entries using List.reverseRecOn with
  | nil => simp [lastWrite]
  | append_singleton before entry ih =>
    obtain ⟨last, bytes⟩ := entry
    rw [List.map_append, List.map_singleton, List.nodup_append] at hnodup
    rw [MerklePatriciaTrie.lastWrite_append, List.mem_append, List.mem_singleton, Prod.mk.injEq]
    by_cases heq : key = last
    · have hfresh : (key, value) ∉ before := by
        intro hmem
        exact hnodup.2.2 key (List.mem_map_of_mem hmem) last (List.mem_singleton_self _) heq
      rw [if_pos heq, Option.some_inj]
      constructor
      · intro hvalue
        exact .inr ⟨heq, hvalue.symm⟩
      · intro hmem
        cases hmem with
        | inl hold => exact absurd hold hfresh
        | inr hnew => exact hnew.2.symm
    · rw [if_neg heq, ih hnodup.1]
      constructor
      · intro hmem
        exact .inl hmem
      · intro hmem
        cases hmem with
        | inl hold => exact hold
        | inr hnew => exact absurd hnew.1 heq

/-- The rebuild mirrors the database. -/
theorem mirrors_rebuildEntries (host : Host) (storage : Storage) :
    Mirrors host.encode (rebuildEntries host storage) storage := by
  have hnodup : ((rebuildEntries host storage).map Prod.fst).Nodup := by
    unfold rebuildEntries
    rw [List.map_map]
    exact Host.plain.nodup_walk storage.accounts
  intro address
  have hwalk : ∀ account, (address, account) ∈ storage.getAllAccounts ↔
      storage.accounts.lookup address = some account := by
    intro account
    have hplain : (address, account) ∈ Host.plain.walk storage.accounts ↔ _ := Host.mem_walk
    exact hplain
  apply Option.ext
  intro bytes
  have hmem : (address, bytes) ∈ rebuildEntries host storage ↔
      ∃ account, storage.accounts.lookup address = some account ∧ host.encode account = bytes := by
    unfold rebuildEntries
    rw [List.mem_map]
    constructor
    · intro hentry
      obtain ⟨⟨found, account⟩, hwalked, heq⟩ := hentry
      obtain ⟨rfl, hbytes⟩ := Prod.mk.inj heq
      exact ⟨account, (hwalk account).mp hwalked, hbytes⟩
    · intro hstored
      obtain ⟨account, hlookup, hbytes⟩ := hstored
      exact ⟨(address, account), (hwalk account).mpr hlookup, Prod.ext rfl hbytes⟩
  rw [lastWrite_eq_some_iff hnodup, hmem]
  exact Option.map_eq_some_iff.symm

/-- So does the start of a node. -/
theorem mirrors_openingInsertions {balances stakes : List (Bytes × UInt64)}
    (h : start crypto host storage genesisBlock balances stakes = some chain) :
    Mirrors host.encode (openingInsertions crypto host storage genesisBlock balances) chain.storage := by
  obtain ⟨opened, hnew, h⟩ := Option.bind_eq_some_iff.mp h
  obtain ⟨⟨result, state⟩, happly, h⟩ := Option.bind_eq_some_iff.mp h
  obtain rfl := Option.some.inj h
  obtain ⟨pending, hfold, -⟩ := State.foldl_setBalance balances opened.state
  have hstorage := (State.applyChanges_made happly).1
  rw [openingInsertions, hnew]
  change Mirrors host.encode _ state.storage
  dsimp only
  rw [hfold] at hstorage ⊢
  rw [hstorage]
  exact (mirrors_rebuildEntries host opened.storage).putAll _

/-- All processes of the history serialize accounts in one way. -/
def Serializes (encode : Account → Bytes) (history : History crypto) : Prop :=
  history.host.encode = encode ∧ ∀ call ∈ history.calls, call.label.host.encode = encode

/-- Then the insertions of the history mirror the database of the node. -/
theorem mirrors {encode : Account → Bytes} {history : History crypto} (h : history.Serializes encode) :
    Mirrors encode history.inserted history.chain.storage := by
  obtain ⟨host, storage, genesisBlock, balances, stakes, opened, calls, chain, hstart, hrun⟩ := history
  obtain ⟨hopening, hcalls⟩ := h
  unfold inserted
  dsimp only at hopening hcalls ⊢
  induction hrun with
  | nil =>
    rw [← hopening]
    exact mirrors_openingInsertions hstart
  | @snoc calls s s' request output _ hnext ih =>
    have hbefore := ih fun call hcall => hcalls call (List.mem_append_left _ hcall)
    have hhost := hcalls ⟨s, request, output, s'⟩ (List.mem_append_right _ (List.mem_singleton_self _))
    rw [List.foldl_append, List.foldl_cons, List.foldl_nil]
    cases request with
    | deliver host block =>
      change host.encode = encode at hhost
      rw [← hhost] at hbefore ⊢
      rw [storage_addBlock hnext]
      exact hbefore.putAll (s.journal crypto host block)
    | vote host vote =>
      obtain ⟨votes, stored, finalizedHead, rfl⟩ := serve_vote_frame hnext
      exact hbefore
    | reopen host genesisBlock balances stakes =>
      change host.encode = encode at hhost
      rw [← hhost]
      exact mirrors_openingInsertions (start_of_serve hnext)

/-- Where moreover all processes serialize accounts in one way and every insertion writes under its own
address, they are equal exactly when the nodes store the same serialized accounts. -/
theorem getRootHash_eq_iff_serialized (hdigest : ∀ bytes, (crypto.sha256 bytes).length = 32)
    {encode : Account → Bytes} {history history' : History crypto} (hencode : history.Serializes encode)
    (hencode' : history'.Serializes encode) (hkeys : PrefixFree history.inserted)
    (hkeys' : PrefixFree history'.inserted) (hown : OwnSites history.inserted)
    (hown' : OwnSites history'.inserted)
    (hfree : CollisionFree crypto
      (nodesOfRun crypto history.inserted ++ nodesOfRun crypto history'.inserted)) :
    history.chain.state.getRootHash = history'.chain.state.getRootHash ↔
      ∀ address, serialized encode history.chain.storage address =
        serialized encode history'.chain.storage address := by
  rw [getRootHash_eq_iff_sited hdigest history history' hkeys hkeys' hfree,
    MerklePatriciaTrie.lastWrite_sited_iff hown hown']
  apply forall_congr'
  intro address
  rw [mirrors hencode address, mirrors hencode' address]

/-- The node has committed the blocks in this order, on databases that refuse nothing. It may have taken
votes in between. -/
structure Commits (history : History crypto) (blocks : List Block) : Prop where
  opening : history.host.Reliable
  reliable : ∀ call ∈ history.calls, call.label.host.Reliable
  answers : ∀ call ∈ history.calls, (∃ host block, call.label = .deliver host block ∧ call.output = true) ∨
    ∃ host vote, call.label = .vote host vote
  blocks : history.calls.filterMap (fun call => call.label.delivered) = blocks

/-- The ledger after some blocks on the initial accounts. -/
def ledgerAfter (crypto : Crypto) (accounts : FiniteMap Bytes Account) (blocks : List Block) : Ledger :=
  blocks.foldl (fun ledger block => (ledger.execute crypto block.transactions).2)
    { accounts, assets := ∅, collections := ∅, channels := ∅ }

/-- A node that has committed some blocks stores the ledger after them. -/
theorem ledger_of_commits {history : History crypto} {blocks : List Block} (h : history.Commits blocks) :
    history.chain.state.discardChanges.ledger =
      ledgerAfter crypto (fundedAccounts history.storage.accounts history.balances) blocks := by
  obtain ⟨host, storage, genesisBlock, balances, stakes, opened, calls, chain, hstart, hrun⟩ := history
  obtain ⟨hopening, hreliable, hanswers, hblocks⟩ := h
  dsimp only at hopening hreliable hanswers hblocks ⊢
  subst hblocks
  induction hrun with
  | nil =>
    obtain ⟨trie, rfl⟩ := start_eq hopening hstart
    unfold State.ledger ledgerAfter
    rw [List.filterMap_nil, List.foldl_nil]
    congr 1
    exact Finmap.empty_union
  | @snoc calls s s' request output _ hnext ih =>
    have hlast : (⟨s, request, output, s'⟩ : Execution.Call Chain Request Bool) ∈
        calls ++ [⟨s, request, output, s'⟩] := List.mem_append_right _ (List.mem_singleton_self _)
    have hbefore := ih (fun call hcall => hreliable call (List.mem_append_left _ hcall))
      fun call hcall => hanswers call (List.mem_append_left _ hcall)
    rw [List.filterMap_append]
    cases hanswers _ hlast with
    | inl hdelivered =>
      obtain ⟨host, block, rfl, rfl⟩ := hdelivered
      have hhost : host.Reliable := hreliable _ hlast
      cases acceptance_or_rejection hhost (delivery_of_addBlock hnext) with
      | inl haccepted =>
        have hledger := congrArg Prod.snd
          (ledger_processTransactions crypto s.state.discardChanges block.transactions)
        rw [haccepted.2.ledger]
        change _ = (calls.filterMap _ ++ [block]).foldl _ _
        rw [List.foldl_append, List.foldl_cons, List.foldl_nil]
        rw [hbefore] at hledger
        exact hledger
      | inr hrejected => exact absurd hrejected.1.symm Bool.false_ne_true
    | inr hvote =>
      obtain ⟨host, vote, rfl⟩ := hvote
      obtain ⟨votes, stored, finalizedHead, rfl⟩ := serve_vote_frame hnext
      change _ = ledgerAfter crypto _ (calls.filterMap _ ++ [])
      rw [List.append_nil]
      exact hbefore

/-- Nodes that commit the same blocks on the same initial accounts have one root, if all processes serialize
accounts in one way and every insertion writes under its own address. -/
theorem getRootHash_of_commits (hdigest : ∀ bytes, (crypto.sha256 bytes).length = 32)
    {encode : Account → Bytes} {history history' : History crypto} {blocks : List Block}
    (hblocks : history.Commits blocks) (hblocks' : history'.Commits blocks)
    (hinitial : fundedAccounts history.storage.accounts history.balances =
      fundedAccounts history'.storage.accounts history'.balances)
    (hencode : history.Serializes encode) (hencode' : history'.Serializes encode)
    (hkeys : PrefixFree history.inserted) (hkeys' : PrefixFree history'.inserted)
    (hown : OwnSites history.inserted) (hown' : OwnSites history'.inserted)
    (hfree : CollisionFree crypto
      (nodesOfRun crypto history.inserted ++ nodesOfRun crypto history'.inserted)) :
    history.chain.state.getRootHash = history'.chain.state.getRootHash := by
  have hledger := ledger_of_commits hblocks
  rw [hinitial, ← ledger_of_commits hblocks'] at hledger
  have haccounts : ∅ ∪ history.chain.storage.accounts = ∅ ∪ history'.chain.storage.accounts :=
    congrArg Ledger.accounts hledger
  rw [Finmap.empty_union, Finmap.empty_union] at haccounts
  apply (getRootHash_eq_iff_serialized hdigest hencode hencode' hkeys hkeys' hown hown' hfree).mpr
  intro address
  rw [serialized, serialized, haccounts]

/-- For any histories of two nodes, and of one node up to a restart and past it, over any orders of the walks
and any serializations, where no address is a proper prefix of another: the roots are equal if and only if the
last insertions at every site are. If all processes serialize accounts in one way and every insertion writes
under its own address, this is the case if and only if the nodes store the same serialized accounts. -/
theorem getRootHash_eq_iff (hdigest : ∀ bytes, (crypto.sha256 bytes).length = 32)
    (history history' : History crypto) (hkeys : PrefixFree history.inserted)
    (hkeys' : PrefixFree history'.inserted)
    (hfree : CollisionFree crypto
      (nodesOfRun crypto history.inserted ++ nodesOfRun crypto history'.inserted)) :
    (history.chain.state.getRootHash = history'.chain.state.getRootHash ↔
      ∀ path, lastWrite (sited history.inserted) path = lastWrite (sited history'.inserted) path) ∧
    (∀ encode, history.Serializes encode → history'.Serializes encode →
      OwnSites history.inserted → OwnSites history'.inserted →
        (history.chain.state.getRootHash = history'.chain.state.getRootHash ↔
          ∀ address, serialized encode history.chain.storage address =
            serialized encode history'.chain.storage address)) := by
  refine ⟨getRootHash_eq_iff_sited hdigest history history' hkeys hkeys' hfree, ?_⟩
  intro encode hencode hencode' hown hown'
  exact getRootHash_eq_iff_serialized hdigest hencode hencode' hkeys hkeys' hown hown' hfree

end History

end Chain

/-- A reliable database and maps that are walked against the order of their keys. -/
def Host.backwards : Host where
  disk _ := none
  order keys := (keysInOrder keys).reverse
  mem_order keys address := List.mem_reverse.trans (Host.plain.mem_order keys address)
  nodup_order keys := List.nodup_reverse.mpr (Host.plain.nodup_order keys)
  encode := Account.serialize fun keys => (keysInOrder keys).reverse

theorem Host.backwards_reliable : Host.backwards.Reliable := fun _ => rfl

namespace Chain

namespace History

/-- A block in which Alice creates two assets. -/
def issuingBlock : Block := Sample.block Sample.genesis 1 [Sample.creation, Sample.secondCreation]

/-- The sample network on a host. -/
def opening (host : Host) : Option Chain :=
  Chain.start Crypto.plain host .empty Sample.genesis [(Sample.alice, 100)] [(Sample.validator, 1000)]

/-- The history of a node of the network that accepted one block. -/
def ofBlock {opened chain : Chain} {block : Block} (hstart : opening host = some opened)
    (hadd : addBlock Crypto.plain host opened block = some (true, chain)) : History Crypto.plain where
  host := host
  storage := .empty
  genesisBlock := Sample.genesis
  balances := [(Sample.alice, 100)]
  stakes := [(Sample.validator, 1000)]
  opened := opened
  calls := [⟨opened, .deliver host block, true, chain⟩]
  chain := chain
  started := hstart
  run := .snoc .nil hadd

theorem commits_ofBlock (hreliable : host.Reliable) {opened chain : Chain} {block : Block}
    (hstart : opening host = some opened)
    (hadd : addBlock Crypto.plain host opened block = some (true, chain)) :
    (ofBlock hstart hadd).Commits [block] where
  opening := hreliable
  reliable call hcall := by
    rw [List.mem_singleton.mp hcall]
    exact hreliable
  answers call hcall := by
    rw [List.mem_singleton.mp hcall]
    exact .inl ⟨host, block, rfl, rfl⟩
  blocks := rfl

/-- Two nodes that walk their maps differently commit the same block on the same accounts, and have different
roots; so has the first before and after a restart in which it walks its maps as the other does. -/
theorem root_depends_on_maps :
    ∃ history history' : History Crypto.plain, history.Commits [issuingBlock] ∧
      history'.Commits [issuingBlock] ∧ history.storage = history'.storage ∧
      history.balances = history'.balances ∧
      history.chain.state.getRootHash ≠ history'.chain.state.getRootHash ∧
      ∃ reopened, Chain.start Crypto.plain Host.backwards history.chain.storage Sample.genesis [] [] =
          some reopened ∧
        reopened.storage.accounts = history.chain.storage.accounts ∧
        reopened.state.getRootHash ≠ history.chain.state.getRootHash := by
  have hcheck : (opening Host.plain).any (fun opened => (opening Host.backwards).any fun opened' =>
      (addBlock Crypto.plain Host.plain opened issuingBlock).any fun answer =>
        (addBlock Crypto.plain Host.backwards opened' issuingBlock).any fun answer' =>
          answer.1 && answer'.1 &&
            (Chain.start Crypto.plain Host.backwards answer.2.storage Sample.genesis [] []).any fun reopened =>
              decide (answer.2.state.getRootHash ≠ answer'.2.state.getRootHash ∧
                reopened.storage.accounts = answer.2.storage.accounts ∧
                reopened.state.getRootHash ≠ answer.2.state.getRootHash)) = true := by decide +kernel
  obtain ⟨opened, hopened, hcheck⟩ := (Option.any_eq_true _ _).mp hcheck
  obtain ⟨opened', hopened', hcheck⟩ := (Option.any_eq_true _ _).mp hcheck
  obtain ⟨⟨accepted, chain⟩, hadd, hcheck⟩ := (Option.any_eq_true _ _).mp hcheck
  obtain ⟨⟨accepted', chain'⟩, hadd', hcheck⟩ := (Option.any_eq_true _ _).mp hcheck
  obtain ⟨hboth, hcheck⟩ := Bool.and_eq_true_iff.mp hcheck
  obtain ⟨rfl, rfl⟩ := Bool.and_eq_true_iff.mp hboth
  obtain ⟨reopened, hreopened, hcheck⟩ := (Option.any_eq_true _ _).mp hcheck
  obtain ⟨hroots, haccounts, hroot⟩ := of_decide_eq_true hcheck
  exact ⟨ofBlock hopened hadd, ofBlock hopened' hadd', commits_ofBlock Host.plain_reliable hopened hadd,
    commits_ofBlock Host.backwards_reliable hopened' hadd', rfl, rfl, hroots, reopened, hreopened, haccounts,
    hroot⟩

/-- The history of a node that was restarted. -/
def reopen (history : History crypto) {genesisBlock : Block} {balances stakes : List (Bytes × UInt64)}
    {reopened : Chain}
    (hstart : start crypto host history.chain.storage genesisBlock balances stakes = some reopened) :
    History crypto :=
  { history with
    calls := history.calls ++
      [⟨history.chain, .reopen host genesisBlock balances stakes, true, reopened⟩]
    chain := reopened
    run := .snoc history.run (by rw [serve, hstart]; rfl) }

/-- After a payment the node has the same root before and after a restart. -/
theorem root_kept_by_reopening :
    ∃ history reopened : History Crypto.plain, history.Commits [payingBlock] ∧
      reopened.calls = history.calls ++
        [⟨history.chain, .reopen Host.plain Sample.genesis [] [], true, reopened.chain⟩] ∧
      history.chain.state.getRootHash = reopened.chain.state.getRootHash := by
  have hcheck : (opening Host.plain).any (fun opened =>
      (addBlock Crypto.plain Host.plain opened payingBlock).any fun answer => answer.1 &&
        (Chain.start Crypto.plain Host.plain answer.2.storage Sample.genesis [] []).any fun reopened =>
          let inserted := openingInsertions Crypto.plain Host.plain .empty Sample.genesis
              [(Sample.alice, 100)] ++
            insertions Host.plain (opened.journal Crypto.plain Host.plain payingBlock)
          let inserted' := openingInsertions Crypto.plain Host.plain answer.2.storage Sample.genesis []
          decide (PrefixFree inserted ∧ PrefixFree inserted' ∧ OwnSites inserted ∧ OwnSites inserted' ∧
            CollisionFree Crypto.plain
              (nodesOfRun Crypto.plain inserted ++ nodesOfRun Crypto.plain inserted') ∧
            reopened.storage.accounts = answer.2.storage.accounts)) = true := by decide +kernel
  obtain ⟨opened, hopened, hcheck⟩ := (Option.any_eq_true _ _).mp hcheck
  obtain ⟨⟨accepted, chain⟩, hadd, hcheck⟩ := (Option.any_eq_true _ _).mp hcheck
  obtain ⟨haccepted, hcheck⟩ := Bool.and_eq_true_iff.mp hcheck
  obtain rfl : accepted = true := haccepted
  obtain ⟨reopened, hreopened, hcheck⟩ := (Option.any_eq_true _ _).mp hcheck
  obtain ⟨hkeys, hkeys', hown, hown', hfree, haccounts⟩ := of_decide_eq_true hcheck
  let history := ofBlock hopened hadd
  have hcommits : history.Commits [payingBlock] := commits_ofBlock Host.plain_reliable hopened hadd
  have hencode : history.Serializes Host.plain.encode := by
    refine ⟨rfl, fun call hcall => ?_⟩
    rw [List.mem_singleton.mp hcall]
    rfl
  have hencode' : (history.reopen hreopened).Serializes Host.plain.encode := by
    refine ⟨rfl, fun call hcall => ?_⟩
    cases List.mem_append.mp hcall with
    | inl hbefore => exact hencode.2 call hbefore
    | inr hlast =>
      rw [List.mem_singleton.mp hlast]
      rfl
  refine ⟨history, history.reopen hreopened, hcommits, rfl, ?_⟩
  apply ((getRootHash_eq_iff (fun _ => rfl) history (history.reopen hreopened) hkeys hkeys' hfree).2
    Host.plain.encode hencode hencode' hown hown').mpr
  intro address
  change (chain.storage.accounts.lookup address).map _ = (reopened.storage.accounts.lookup address).map _
  rw [haccounts]

end History

end Chain

end Nocostcoin
