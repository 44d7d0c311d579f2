import Nocostcoin.Chain.Panics
import Nocostcoin.Node.Exchange
import Nocostcoin.Trie.History

/-!
# A node does not panic

What an event or a restart inserts into the trie decides whether the node goes on: it panics exactly when
those insertions do not complete. So a node whose database takes blocks and heads never panics while all
addresses have one length.
-/

namespace Nocostcoin

open Execution
open MerklePatriciaTrie (insertAll CollisionFree nodesOfRun)

variable {crypto : Crypto} {host : Host} {Q : Bytes → Prop}

/-- A pruning leaves the block of the head in place. -/
theorem Storage.getBlock_head_prune (eraser : Eraser) (chainHeadHash : String) (remaining : ℕ)
    (height deletedCount : UInt64) (storage : Storage) :
    (pruneHeights eraser chainHeadHash remaining height deletedCount storage).2.getBlock chainHeadHash =
      storage.getBlock chainHeadHash := by
  induction remaining generalizing height deletedCount storage with
  | zero => rfl
  | succ remaining ih =>
    rw [pruneHeights]
    split
    · exact ih ..
    · rename_i hash hentry
      split
      · rfl
      · dsimp only
        split
        · exact ih ..
        · rename_i hother
          have hkept : ((storage.erase (.height height)).erase (.block hash)).getBlock chainHeadHash =
              storage.getBlock chainHeadHash := by
            rw [getBlock_erase, if_neg fun heq => hother heq.symm]
            rfl
          unfold deleteBlock
          cases eraser (.block hash) with
          | none => exact (ih ..).trans hkept
          | some error => rfl

namespace Chain

variable {chain chain' : Chain} {block : Block} {entries later : List (Bytes × Bytes)}
  {after : Option Chain}

/-- What becomes of a chain that inserts entries for addresses of the kind into its trie: it is gone exactly
when the insertions do not complete, and is upright with the trie that they make otherwise. -/
structure Goes (crypto : Crypto) (Q : Bytes → Prop) (before : MerklePatriciaTrie)
    (entries : List (Bytes × Bytes)) (after : Option Chain) : Prop where
  kind : ∀ entry ∈ entries, Q entry.1
  trie : insertAll crypto before entries = after.map fun chain => chain.state.trie
  upright : ∀ chain', after = some chain' → chain'.Upright Q

variable {before : MerklePatriciaTrie}

/-- Without insertions the chain stays upright with its trie. -/
theorem Goes.quiet (h : chain'.Upright Q) (htrie : chain'.state.trie = before) :
    Goes crypto Q before [] (some chain') := by
  refine ⟨fun entry hentry => absurd hentry List.not_mem_nil, ?_,
    fun found hfound => Option.some.inj hfound ▸ h⟩
  rw [Option.map_some, htrie]
  rfl

/-- Insertions go on from where the first ones ended. -/
theorem Goes.append (h : Goes crypto Q before entries (some chain'))
    (hlater : Goes crypto Q chain'.state.trie later after) :
    Goes crypto Q before (entries ++ later) after := by
  refine ⟨fun entry hentry => ?_, ?_, hlater.upright⟩
  · exact (List.mem_append.mp hentry).elim (h.kind entry) (hlater.kind entry)
  · rw [MerklePatriciaTrie.insertAll_comp, h.trie]
    exact hlater.trie

/-- Afterwards the chain may change beside its trie. -/
theorem Goes.settle (h : Goes crypto Q before entries (some chain')) {settled : Chain}
    (hupright : settled.Upright Q) (htrie : settled.state.trie = chain'.state.trie) :
    Goes crypto Q before entries (some settled) := by
  have hsettled := h.append (Goes.quiet hupright htrie)
  rwa [List.append_nil] at hsettled

/-- A delivery. -/
theorem Upright.goes (hupright : chain.Upright Q) (hkeeps : host.KeepsHeads)
    (hnames : ∀ tx ∈ block.transactions, tx.Names Q) :
    Goes crypto Q chain.state.trie (insertions host (chain.journal crypto host block))
      ((addBlock crypto host chain block).map Prod.snd) := by
  refine ⟨kind_of_journal hupright hnames, ?_, fun found hfound => ?_⟩
  · have hends := @addBlock_isSome_iff crypto host chain block Q hupright hnames
    cases hadd : addBlock crypto host chain block with
    | none =>
      rw [hadd] at hends
      exact Option.not_isSome_iff_eq_none.mp fun hsome => Bool.false_ne_true (hends.mpr hsome)
    | some outcome => exact trie_addBlock hadd
  · obtain ⟨outcome, hadd, rfl⟩ := Option.map_eq_some_iff.mp hfound
    exact upright_of_addBlock hupright hkeeps hnames hadd

/-- The insertions of blocks that are handed over one after another: a sync stops at a rejected one that
is not stored. -/
def handed (crypto : Crypto) : Chain → List (Host × Block) → List (Bytes × Bytes)
  | _, [] => []
  | chain, (host, block) :: rest =>
    insertions host (chain.journal crypto host block) ++
      (chain.addBlock crypto host block).elim [] fun outcome =>
        if outcome.1 ∨ (outcome.2.getBlock block.hash).isSome then handed crypto outcome.2 rest else []

/-- A single block. -/
theorem handed_single (crypto : Crypto) (host : Host) (chain : Chain) (block : Block) :
    chain.handed crypto [(host, block)] = insertions host (chain.journal crypto host block) := by
  rw [handed]
  cases chain.addBlock crypto host block with
  | none => exact List.append_nil _
  | some outcome =>
    rw [Option.elim_some, handed, ite_self, List.append_nil]

/-- The blocks of a sync. -/
theorem Upright.goes_addBlocks {blocks : List (Host × Block)} (hupright : chain.Upright Q)
    (hblocks : ∀ entry ∈ blocks, entry.1.KeepsHeads ∧ ∀ tx ∈ entry.2.transactions, tx.Names Q)
    (count : ℕ) :
    Goes crypto Q chain.state.trie (chain.handed crypto blocks)
      ((SyncManager.addBlocks crypto count chain blocks).map Prod.snd) := by
  induction blocks generalizing chain count with
  | nil => exact .quiet hupright rfl
  | cons entry rest ih =>
    obtain ⟨host, block⟩ := entry
    obtain ⟨⟨hkeeps, hnames⟩, hrest⟩ := List.forall_mem_cons.mp hblocks
    have hfirst := @Upright.goes crypto host Q chain block hupright hkeeps hnames
    rw [handed, SyncManager.addBlocks]
    cases hadd : chain.addBlock crypto host block with
    | none =>
      rw [hadd] at hfirst
      rw [Option.elim_none, List.append_nil]
      exact hfirst
    | some outcome =>
      obtain ⟨accepted, mid⟩ := outcome
      rw [hadd] at hfirst
      have hmid := hfirst.upright mid rfl
      rw [Option.elim_some]
      dsimp only
      cases accepted with
      | true =>
        rw [if_pos (.inl rfl)]
        exact hfirst.append (ih hmid hrest _)
      | false =>
        dsimp only
        by_cases hstored : (mid.getBlock block.hash).isSome
        · rw [if_pos (.inr hstored), if_pos hstored]
          exact hfirst.append (ih hmid hrest _)
        · rw [if_neg (by simpa using hstored), if_neg hstored, List.append_nil]
          exact hfirst

/-- A vote. -/
theorem Upright.goes_vote (hupright : chain.Upright Q) (host : Host) (vote : Vote) :
    (chain.addVote crypto host vote).2.Upright Q ∧
      (chain.addVote crypto host vote).2.state.trie = chain.state.trie := by
  obtain ⟨votes, stored, finalizedHead, hframe⟩ := addVote_frame crypto host chain vote
  rw [hframe]
  exact ⟨⟨hupright.head, hupright.stored, ⟨hupright.confined.accounts, hupright.confined.partners⟩⟩, rfl⟩

/-- A pruning. -/
theorem Upright.prune (hupright : chain.Upright Q) (eraser : Storage.Eraser) (target : UInt64) :
    (chain.withStorage (chain.storage.pruneBlocksBefore eraser target chain.head).2).Upright Q := by
  obtain ⟨⟨blocks, heights, hframe⟩, -⟩ := chain.storage.prune_frame eraser target chain.head
  have hblock : (chain.storage.pruneBlocksBefore eraser target chain.head).2.getBlock chain.head =
      chain.storage.getBlock chain.head := Storage.getBlock_head_prune ..
  refine ⟨?_, ?_, ?_, hupright.confined.partners⟩
  · change ((chain.storage.pruneBlocksBefore eraser target chain.head).2.getBlock chain.head).isSome
    rw [hblock]
    exact hupright.head
  · change (chain.storage.pruneBlocksBefore eraser target chain.head).2.head = some chain.head
    rw [hframe]
    exact hupright.stored
  · rw [hframe]
    exact hupright.confined.accounts

/-- Setting balances of such addresses. -/
theorem confined_setBalances {state : State} (hconfined : state.Confined Q) {balances : List (Bytes × UInt64)}
    (hbalances : ∀ entry ∈ balances, Q entry.1) :
    (balances.foldl (fun state entry => state.setBalance entry.1 entry.2) state).Confined Q := by
  induction balances generalizing state with
  | nil => exact hconfined
  | cons entry rest ih =>
    obtain ⟨hfirst, hrest⟩ := List.forall_mem_cons.mp hbalances
    have hset : (state.modifyAccount entry.1 fun account =>
        { account with balance := entry.2 }).Confined Q := hconfined.modifyAccount hfirst
    exact ih hset hrest

/-- The insertions of a start: those of the rebuild, and those of the set-up if it gets there. -/
def opening (crypto : Crypto) (host : Host) (storage : Storage) (genesisBlock : Block)
    (balances : List (Bytes × UInt64)) : List (Bytes × Bytes) :=
  match new crypto host storage genesisBlock with
  | none => rebuildEntries host storage
  | some _ => openingInsertions crypto host storage genesisBlock balances

variable {storage : Storage} {genesisBlock : Block} {balances stakes : List (Bytes × UInt64)}

/-- A database whose head, if there is one, is stored, and whose accounts have addresses of the kind. -/
structure Sound (Q : Bytes → Prop) (storage : Storage) : Prop where
  head : ∀ head, storage.head = some head → (storage.getBlock head).isSome
  accounts : ∀ address, (storage.accounts.lookup address).isSome → Q address

/-- What is opened on it. -/
theorem confined_opened (hsound : Sound Q storage) (genesisBlock : Block) (trie : MerklePatriciaTrie) :
    State.Confined Q { State.empty with storage := storage.opened genesisBlock, trie } := by
  refine ⟨fun address account hfound => ?_, fun channelId channel hchannel => ?_⟩
  · have hstored := hfound.resolve_left (by simp [State.empty])
    rw [Storage.accounts_opened] at hstored
    exact hsound.accounts address (Option.isSome_of_eq_some hstored)
  · simp [State.empty] at hchannel

/-- A start on such a database. -/
theorem upright_of_start (hsound : Sound Q storage) (hbalances : ∀ entry ∈ balances, Q entry.1)
    (h : start crypto host storage genesisBlock balances stakes = some chain) : chain.Upright Q := by
  have hplace : chain.getHead.isSome ∧ chain.storage.head = some chain.head := by
    obtain ⟨accounts, pendingChanges, trie, rfl⟩ := start_frame h
    change ((storage.opened genesisBlock).getBlock (storage.head.getD genesisBlock.hash)).isSome ∧
      (storage.opened genesisBlock).head = some (storage.head.getD genesisBlock.hash)
    unfold Storage.opened
    cases hhead : storage.head with
    | some head =>
      dsimp only
      exact ⟨hsound.head head hhead, hhead⟩
    | none =>
      refine ⟨?_, rfl⟩
      change ((storage.blocks.insert genesisBlock.hash genesisBlock).lookup genesisBlock.hash).isSome
      rw [FiniteMap.lookup_insert_ite, if_pos rfl]
      rfl
  obtain ⟨opened, hopen, hset⟩ := Option.bind_eq_some_iff.mp h
  obtain ⟨⟨result, state⟩, happly, hlast⟩ := Option.bind_eq_some_iff.mp hset
  obtain rfl := Option.some.inj hlast
  obtain ⟨trie, rfl⟩ := new_eq hopen
  have hopened := confined_opened hsound genesisBlock trie
  have hcommit : State.Advances crypto (Transaction.Names Q) _ state := .single (.commit happly)
  exact ⟨hplace.1, hplace.2,
    State.confined_of_advances hcommit (confined_setBalances hopened hbalances)⟩

/-- A start inserts addresses of the kind. -/
theorem kind_of_opening (hsound : Sound Q storage) (hbalances : ∀ entry ∈ balances, Q entry.1) :
    ∀ entry ∈ opening crypto host storage genesisBlock balances, Q entry.1 := by
  have hrebuilt : ∀ stored : Storage, stored.accounts = storage.accounts →
      ∀ entry ∈ rebuildEntries host stored, Q entry.1 := by
    intro stored haccounts entry hentry
    obtain ⟨found, hfound, rfl⟩ := List.mem_map.mp hentry
    obtain ⟨address, -, hlookup⟩ := List.mem_filterMap.mp hfound
    obtain ⟨account, haccount, rfl⟩ := Option.map_eq_some_iff.mp hlookup
    rw [haccounts] at haccount
    exact hsound.accounts address (Option.isSome_of_eq_some haccount)
  unfold opening
  split
  · exact hrebuilt storage rfl
  · rename_i opened hopen
    unfold openingInsertions
    rw [hopen]
    obtain ⟨trie, rfl⟩ := new_eq hopen
    intro entry hentry
    cases List.mem_append.mp hentry with
    | inl hrebuild => exact hrebuilt _ (Storage.accounts_opened _ _) entry hrebuild
    | inr hset =>
      exact (confined_setBalances (confined_opened hsound genesisBlock trie) hbalances).kind_of_walk
        host _ entry hset

/-- A start on a database with a head ends exactly when its insertions complete. -/
theorem goes_start {head : String} (hhead : storage.head = some head) (hsound : Sound Q storage)
    (hbalances : ∀ entry ∈ balances, Q entry.1) :
    Goes crypto Q .new (opening crypto host storage genesisBlock balances)
      (start crypto host storage genesisBlock balances stakes) := by
  refine ⟨kind_of_opening hsound hbalances, ?_,
    fun chain hstart => upright_of_start hsound hbalances hstart⟩
  cases hstart : start crypto host storage genesisBlock balances stakes with
  | some chain =>
    obtain ⟨opened, hopen, -⟩ := Option.bind_eq_some_iff.mp hstart
    unfold opening
    rw [hopen]
    exact trie_start hstart
  | none =>
    unfold opening
    have hrebuild := @new_of_head crypto host genesisBlock storage head hhead
    cases hinsert : insertAll crypto .new (rebuildEntries host storage) with
    | none =>
      rw [hinsert] at hrebuild
      rw [hrebuild]
      exact hinsert
    | some trie =>
      rw [hinsert, Option.map_some] at hrebuild
      rw [hrebuild]
      unfold start at hstart
      rw [hrebuild] at hstart
      unfold openingInsertions
      rw [hrebuild]
      dsimp only [Option.bind_eq_bind, Option.bind_some] at hstart ⊢
      rw [MerklePatriciaTrie.insertAll_comp]
      change (insertAll crypto .new (rebuildEntries host storage)).bind _ = _
      rw [hinsert, Option.bind_some]
      obtain ⟨pending, hfold, -⟩ := State.foldl_setBalance balances { State.empty with storage, trie }
      have hends := @State.applyChanges_isSome_iff crypto host
        (balances.foldl (fun state entry => state.setBalance entry.1 entry.2)
          { State.empty with storage, trie })
      have hnone : State.applyChanges crypto host
          (balances.foldl (fun state entry => state.setBalance entry.1 entry.2)
            { State.empty with storage, trie }) = none := by
        cases happly : State.applyChanges crypto host
          (balances.foldl (fun state entry => state.setBalance entry.1 entry.2)
            { State.empty with storage, trie }) with
        | none => rfl
        | some outcome =>
          rw [happly] at hstart
          contradiction
      rw [hnone, hfold] at hends
      rw [hfold]
      exact Option.not_isSome_iff_eq_none.mp fun hsome => Bool.false_ne_true (hends.mpr hsome)

end Chain

namespace Node

variable {node node' : Node} {event : Event} {commands : List NetworkCommand}

/-- The insertions of an event: those of the blocks that it hands to the chain. -/
def eventInsertions (crypto : Crypto) (node : Node) (event : Event) : List (Bytes × Bytes) :=
  match node.deliveries crypto event with
  | some (chain, blocks) => chain.handed crypto blocks
  | none => []

/-- The blocks that an event hands to the chain: received ones, or the one of the node's own slot. -/
def blocksIn (crypto : Crypto) (node : Node) (event : Event) : List Block :=
  match node.deliveries crypto event with
  | some (_, blocks) => blocks.map Prod.snd
  | none => []

/-- What becomes of the node's chain in an event. -/
def Steps (crypto : Crypto) (Q : Bytes → Prop) (node : Node) (event : Event) : Prop :=
  Chain.Goes crypto Q node.chain.state.trie (node.eventInsertions crypto event)
    ((node.handle crypto event).map fun outcome => outcome.2.chain)

/-- An event that hands over no blocks and leaves the chain as it is, or adds a vote. -/
theorem steps_of_quiet {after : Chain} (hnone : node.deliveries crypto event = none)
    (h : (node.handle crypto event).map (fun outcome => outcome.2.chain) = some after)
    (hupright : after.Upright Q) (htrie : after.state.trie = node.chain.state.trie) :
    node.Steps crypto Q event := by
  unfold Steps eventInsertions
  rw [hnone, h]
  exact .quiet hupright htrie

/-- A transaction of the node's own leaves the chain alone. -/
theorem chain_publish (crypto : Crypto) (node : Node) (tx : Transaction) :
    (node.publish crypto tx).2.chain = node.chain := by
  rw [publish_snd]
  rfl

/-- So does a submitted one. -/
theorem chain_submit (crypto : Crypto) (node : Node) (tx : Transaction) (onError : String → String) :
    (node.submit crypto tx onError).2.chain = node.chain := by
  rw [submit_snd]
  rfl

/-- So does a faucet claim. -/
theorem chain_handleFaucet (crypto : Crypto) (host : Host) (node : Node) (receiver : Option Bytes)
    (currentTime : Int64) (recorded : Option String) :
    (node.handleFaucet crypto host receiver currentTime recorded).2.chain = node.chain := by
  unfold handleFaucet
  split
  · rfl
  · rename_i address
    have hadded : (node.addTransaction crypto (node.newTransfer crypto host address 1000)).2.chain =
        node.chain := rfl
    split
    · rfl
    · split
      · rfl
      · dsimp only
        split
        · rfl
        · split <;> rename_i hresult <;> rw [hresult] at hadded
          · exact hadded
          · exact hadded

/-- So does a generated transfer. -/
theorem chain_simulate (crypto : Crypto) (host : Host) (node : Node) (tick : Tick) :
    (node.simulate crypto host tick).2.chain = node.chain := by
  unfold simulate
  split
  · rfl
  · split
    · exact chain_publish ..
    · rfl

/-- On an upright chain the height is there. -/
theorem getHeight_of_upright {chain : Chain} (hupright : chain.Upright Q) :
    ∃ height, chain.getHeight = some height := by
  obtain ⟨head, hhead⟩ := Option.isSome_iff_exists.mp hupright.head
  exact ⟨head.header.slot, by rw [Chain.getHeight, hhead]; rfl⟩

/-- The end of a sync message leaves the chain alone. -/
theorem continueSync_of_upright (hupright : node.chain.Upright Q) (received : Bool) :
    (node.continueSync received).map (fun outcome => outcome.2.chain) = some node.chain := by
  obtain ⟨height, hheight⟩ := getHeight_of_upright hupright
  unfold continueSync
  split
  · rw [hheight]
    dsimp only [Option.bind_eq_bind, Option.bind_some]
    split
    · split <;> rfl
    · rfl
  · rfl

/-- A message of blocks. -/
theorem steps_blocks {sender : Bytes} {blocks : List (Host × Block)} (hupright : node.chain.Upright Q)
    (hmet : ∀ host, (Event.blocks sender blocks).meets host → host.KeepsHeads)
    (hnames : ∀ block ∈ node.blocksIn crypto (.blocks sender blocks), ∀ tx ∈ block.transactions,
      tx.Names Q) : node.Steps crypto Q (.blocks sender blocks) := by
  have hgoes := @Chain.Upright.goes_addBlocks crypto Q node.chain blocks hupright
    (fun entry hentry => ⟨hmet entry.1 ⟨entry, hentry, rfl⟩,
      hnames entry.2 (List.mem_map_of_mem hentry)⟩) 0
  change Chain.Goes crypto Q node.chain.state.trie (node.chain.handed crypto blocks)
    ((node.handleBlocks crypto blocks).map fun outcome => outcome.2.chain)
  suffices hsame : (node.handleBlocks crypto blocks).map (fun outcome => outcome.2.chain) =
      (SyncManager.addBlocks crypto 0 node.chain blocks).map Prod.snd by
    rw [hsame]
    exact hgoes
  unfold handleBlocks SyncManager.processBlocks
  have hafter := hgoes.upright
  cases hadded : SyncManager.addBlocks crypto 0 node.chain blocks with
  | none => rfl
  | some outcome =>
    obtain ⟨result, chain⟩ := outcome
    rw [hadded] at hafter
    have hupright' := hafter chain rfl
    cases result with
    | error error => rfl
    | ok count =>
      obtain ⟨height, hheight⟩ := getHeight_of_upright hupright'
      have hchecked : ∃ manager, node.syncManager.checkTarget count chain = some manager := by
        unfold SyncManager.checkTarget
        split
        · split
          · rw [hheight]
            exact ⟨_, rfl⟩
          · exact ⟨_, rfl⟩
        · exact ⟨_, rfl⟩
      obtain ⟨manager, hmanager⟩ := hchecked
      dsimp only
      rw [hmanager]
      exact @continueSync_of_upright Q { node with chain, syncManager := manager } hupright' _

/-- A gossiped block. -/
theorem steps_block {block : Block} (hupright : node.chain.Upright Q) (hkeeps : host.KeepsHeads)
    (hnames : ∀ tx ∈ block.transactions, tx.Names Q) : node.Steps crypto Q (.block host block) := by
  have hgoes := @Chain.Upright.goes crypto host Q node.chain block hupright hkeeps hnames
  change Chain.Goes crypto Q node.chain.state.trie (node.chain.handed crypto [(host, block)])
    ((node.handleBlock crypto host block).map fun outcome => outcome.2.chain)
  rw [Chain.handed_single]
  unfold handleBlock
  cases hadd : node.chain.addBlock crypto host block with
  | none =>
    rw [hadd] at hgoes
    exact hgoes
  | some outcome =>
    obtain ⟨accepted, chain⟩ := outcome
    rw [hadd] at hgoes
    cases accepted with
    | false => exact hgoes
    | true =>
      have hafter := hgoes.upright chain rfl
      obtain ⟨head, hhead⟩ := Option.isSome_iff_exists.mp hafter.head
      dsimp only [Option.bind_eq_bind, Option.bind_some]
      rw [hhead, Option.bind_some]
      split
      · obtain ⟨hvoted, htrie⟩ := @Chain.Upright.goes_vote crypto Q chain hafter host
          (castVote crypto node.validatorKey head)
        exact hgoes.settle hvoted htrie
      · exact hgoes

/-- The pruning of a slot. -/
theorem prune_of_upright (hupright : node.chain.Upright Q) (tick : Tick) :
    ∃ pruned, node.prune tick = some pruned ∧ pruned.chain.Upright Q ∧
      pruned.chain.state.trie = node.chain.state.trie := by
  obtain ⟨height, hheight⟩ := getHeight_of_upright hupright
  unfold prune
  split
  · rw [hheight]
    dsimp only [Option.bind_eq_bind, Option.bind_some]
    split
    · exact ⟨_, rfl, hupright.prune _ _, rfl⟩
    · exact ⟨_, rfl, hupright, rfl⟩
  · exact ⟨_, rfl, hupright, rfl⟩

/-- The block that a node makes in a slot. -/
def slotBlock (crypto : Crypto) (host : Host) (node : Node) (tick : Tick) (parent : Block) : Block :=
  produceBlock crypto parent tick.currentSlot node.validatorKey
    (node.mempool.getTransactionsForBlock host 100) tick.timestamp

/-- Making it. -/
theorem goes_produce {tick : Tick} {parent : Block} {pruned : Node} (hkeeps : host.KeepsHeads)
    (hprune : node.prune tick = some pruned) (hupright : pruned.chain.Upright Q)
    (htrie : pruned.chain.state.trie = node.chain.state.trie)
    (hnames : ∀ tx ∈ (node.slotBlock crypto host tick parent).transactions, tx.Names Q) :
    Chain.Goes crypto Q node.chain.state.trie
      (insertions host (pruned.chain.journal crypto host (node.slotBlock crypto host tick parent)))
      ((node.produce crypto host tick parent).map fun outcome => outcome.2.chain) := by
  have hgoes := (Chain.Goes.quiet hupright htrie).append
    (@Chain.Upright.goes crypto host Q pruned.chain _ hupright hkeeps hnames)
  rw [List.nil_append] at hgoes
  unfold produce
  rw [hprune]
  dsimp only [Option.bind_eq_bind, Option.bind_some]
  change Chain.Goes crypto Q node.chain.state.trie _ (Option.map _
    (Option.bind (pruned.chain.addBlock crypto host (node.slotBlock crypto host tick parent)) _))
  cases hadd : pruned.chain.addBlock crypto host (node.slotBlock crypto host tick parent) with
  | none =>
    rw [hadd] at hgoes
    exact hgoes
  | some outcome =>
    obtain ⟨accepted, chain⟩ := outcome
    rw [hadd] at hgoes
    cases accepted with
    | false => exact hgoes
    | true =>
      obtain ⟨hvoted, hsame⟩ := @Chain.Upright.goes_vote crypto Q chain (hgoes.upright chain rfl) host
        (castVote crypto pruned.validatorKey (node.slotBlock crypto host tick parent))
      exact hgoes.settle hvoted hsame

/-- A slot. -/
theorem steps_slot {tick : Tick} (hupright : node.chain.Upright Q) (hkeeps : host.KeepsHeads)
    (hnames : ∀ block ∈ node.blocksIn crypto (.slot host tick), ∀ tx ∈ block.transactions, tx.Names Q) :
    node.Steps crypto Q (.slot host tick) := by
  by_cases hturn : ¬ node.syncManager.isSyncing ∧ node.lastSlot < tick.currentSlot
  · have hready : (node.selecting crypto host tick).chain = node.chain := chain_simulate ..
    have hupright' : (node.selecting crypto host tick).chain.Upright Q := hready ▸ hupright
    obtain ⟨parent, hparent⟩ := Option.isSome_iff_exists.mp hupright'.head
    obtain ⟨pruned, hprune, hpruned, htrie⟩ := prune_of_upright hupright' tick
    have hentered : node.handleSlot crypto host tick =
        ((node.selecting crypto host tick).chain.getHead.bind fun parent =>
          if (node.selecting crypto host tick).isLeader crypto parent tick.currentSlot then
            ((node.selecting crypto host tick).produce crypto host tick parent).bind fun produced =>
              some ((simulate crypto host { node with lastSlot := tick.currentSlot } tick).1 ++ produced.1,
                produced.2)
          else some ((simulate crypto host { node with lastSlot := tick.currentSlot } tick).1,
            node.selecting crypto host tick)) := if_pos hturn
    have hown : node.ownBlock crypto host tick =
        ((node.selecting crypto host tick).chain.getHead.bind fun parent =>
          if (node.selecting crypto host tick).isLeader crypto parent tick.currentSlot then
            ((node.selecting crypto host tick).prune tick).bind fun pruned =>
              some (pruned.chain, (node.selecting crypto host tick).slotBlock crypto host tick parent)
          else none) := if_pos hturn
    rw [hparent, Option.bind_some] at hentered hown
    have hdeliveries : node.deliveries crypto (.slot host tick) =
        (node.ownBlock crypto host tick).map fun own => (own.1, [(host, own.2)]) := rfl
    by_cases hleader : (node.selecting crypto host tick).isLeader crypto parent tick.currentSlot = true
    · rw [if_pos hleader] at hentered hown
      rw [hprune, Option.bind_some] at hown
      rw [hown, Option.map_some] at hdeliveries
      unfold blocksIn at hnames
      rw [hdeliveries] at hnames
      have hgoes := goes_produce hkeeps hprune hpruned htrie (hnames _ (List.mem_singleton_self _))
      unfold Steps eventInsertions
      rw [hdeliveries]
      change Chain.Goes crypto Q node.chain.state.trie (pruned.chain.handed crypto [(host, _)])
        ((node.handleSlot crypto host tick).map fun outcome => outcome.2.chain)
      rw [Chain.handed_single, hentered]
      rw [hready] at hgoes
      cases hproduce : (node.selecting crypto host tick).produce crypto host tick parent with
      | none =>
        rw [hproduce] at hgoes
        exact hgoes
      | some produced =>
        rw [hproduce] at hgoes
        exact hgoes
    · rw [if_neg hleader] at hentered hown
      rw [hown] at hdeliveries
      refine steps_of_quiet hdeliveries ?_ hupright rfl
      change (node.handleSlot crypto host tick).map _ = _
      rw [hentered, Option.map_some, hready]
  · have hnone : node.ownBlock crypto host tick = none := if_neg hturn
    refine steps_of_quiet ?_ ?_ hupright rfl
    · change (node.ownBlock crypto host tick).map _ = none
      rw [hnone]
      rfl
    · change (node.handleSlot crypto host tick).map _ = _
      unfold handleSlot
      rw [if_neg hturn]
      rfl

/-- Any event. -/
theorem steps_of_event (hupright : node.chain.Upright Q)
    (hmet : ∀ host, event.meets host → host.KeepsHeads)
    (hnames : ∀ block ∈ node.blocksIn crypto event, ∀ tx ∈ block.transactions, tx.Names Q) :
    node.Steps crypto Q event := by
  cases event with
  | vote host vote =>
    obtain ⟨hafter, htrie⟩ := @Chain.Upright.goes_vote crypto Q node.chain hupright host vote
    exact steps_of_quiet rfl rfl hafter htrie
  | chainInfo host peerId height headHash =>
    obtain ⟨ourHeight, hheight⟩ := getHeight_of_upright hupright
    refine steps_of_quiet rfl ?_ hupright rfl
    change (node.handleChainInfo host peerId height).map _ = _
    unfold handleChainInfo
    rw [hheight]
    dsimp only [Option.bind_eq_bind, Option.bind_some]
    split <;> rfl
  | blocks sender blocks => exact steps_blocks hupright hmet hnames
  | incomingRequest peerId request channel =>
    obtain ⟨ourHeight, hheight⟩ := getHeight_of_upright hupright
    refine steps_of_quiet rfl ?_ hupright rfl
    change (node.handleRequest request channel).map _ = _
    unfold handleRequest
    cases request with
    | getChainInfo =>
      dsimp only
      rw [hheight]
      rfl
    | getBlocks startHash limit => rfl
  | send host receiver amount =>
    refine steps_of_quiet rfl ?_ hupright rfl
    change some (node.handleSend crypto host receiver amount).2.chain = _
    unfold handleSend
    split
    · rfl
    · rw [chain_publish]
  | slot host tick => exact steps_slot hupright (hmet host rfl) hnames
  | block host block => exact steps_block hupright (hmet host rfl) (hnames block (by simp [blocksIn, deliveries]))
  | submitTransaction tx =>
    refine steps_of_quiet rfl ?_ hupright rfl
    exact congrArg some (chain_submit ..)
  | createTransaction host receiver amount =>
    refine steps_of_quiet rfl ?_ hupright rfl
    change some (node.handleCreate crypto host receiver amount).2.chain = _
    unfold handleCreate
    split
    · rfl
    · rw [chain_submit]
  | faucet host receiver currentTime recorded =>
    refine steps_of_quiet rfl ?_ hupright rfl
    exact congrArg some (chain_handleFaucet ..)
  | registerValidator stake =>
    refine steps_of_quiet rfl ?_ hupright rfl
    change some (node.handleRegister crypto stake).2.chain = _
    unfold handleRegister
    split
    · rfl
    · rw [chain_submit]
  | _ => exact steps_of_quiet rfl rfl hupright rfl

/-- The database of an upright chain can be opened again. -/
theorem sound_of_upright (hupright : node.chain.Upright Q) : Chain.Sound Q node.chain.storage := by
  refine ⟨fun head hhead => ?_, fun address haccount => ?_⟩
  · obtain rfl := Option.some.inj (hupright.stored.symm.trans hhead)
    exact hupright.head
  · obtain ⟨account, hlookup⟩ := Option.isSome_iff_exists.mp haccount
    exact hupright.confined.accounts address account (.inr hlookup)

variable {schemes : KeySchemes} {config : NodeConfig} {booted : Node} {operation : Operation}
  {calls : List (Call Node Operation (List NetworkCommand))} {entries : List (Bytes × Bytes)}

/-- The database takes the blocks and heads of an event; a restart writes none. -/
def Operation.KeepsHeads : Operation → Prop
  | .event event => ∀ host, event.meets host → host.KeepsHeads
  | .restart _ => True

/-- The transactions of the blocks that are handed to the chain name such addresses. -/
def NamesIn (crypto : Crypto) (Q : Bytes → Prop) (node : Node) : Operation → Prop
  | .event event => ∀ block ∈ node.blocksIn crypto event, ∀ tx ∈ block.transactions, tx.Names Q
  | .restart _ => True

instance [DecidablePred Q] (node : Node) : (operation : Operation) →
    Decidable (node.NamesIn crypto Q operation)
  | .event event => inferInstanceAs
      (Decidable (∀ block ∈ node.blocksIn crypto event, ∀ tx ∈ block.transactions, tx.Names Q))
  | .restart _ => inferInstanceAs (Decidable True)

/-- The insertions that the trie is made of after an operation: those before and those of an event, or
those of a restart alone. -/
def insertedAfter (crypto : Crypto) (schemes : KeySchemes) (config : NodeConfig)
    (entries : List (Bytes × Bytes)) (node : Node) : Operation → List (Bytes × Bytes)
  | .event event => entries ++ node.eventInsertions crypto event
  | .restart host => Chain.opening crypto host node.chain.storage (config.genesisBlock schemes crypto)
      (config.grants schemes node.chain.storage.accounts)

/-- Those after the start and some calls. -/
def insertedSince (crypto : Crypto) (schemes : KeySchemes) (config : NodeConfig)
    (entries : List (Bytes × Bytes)) (calls : List (Call Node Operation (List NetworkCommand))) :
    List (Bytes × Bytes) :=
  calls.foldl (fun entries call => insertedAfter crypto schemes config entries call.pre call.label) entries

/-- A start grants coins to start keys. -/
theorem kind_of_grants (hkeys : ∀ key ∈ config.startKeys schemes, Q key)
    (accounts : FiniteMap Bytes Account) : ∀ entry ∈ config.grants schemes accounts, Q entry.1 := by
  intro entry hentry
  obtain ⟨key, hkey, rfl⟩ := List.mem_map.mp hentry
  exact hkeys key ((mem_unfunded _ _ _).mp hkey).1

/-- What becomes of the chain in an operation. -/
theorem goes_of_operation (hkeys : ∀ key ∈ config.startKeys schemes, Q key)
    (hbefore : Chain.Goes crypto Q .new entries (some node.chain))
    (hmet : operation.KeepsHeads) (hnames : node.NamesIn crypto Q operation) :
    Chain.Goes crypto Q .new (insertedAfter crypto schemes config entries node operation)
      ((operate crypto schemes config node operation).map fun outcome => outcome.2.chain) := by
  have hupright := hbefore.upright node.chain rfl
  cases operation with
  | event event => exact hbefore.append (steps_of_event hupright hmet hnames)
  | restart host =>
    have hgoes := @Chain.goes_start crypto host Q node.chain.storage
      (config.genesisBlock schemes crypto) (config.grants schemes node.chain.storage.accounts)
      (config.grants schemes node.chain.storage.accounts) node.chain.head hupright.stored
      (sound_of_upright hupright) (kind_of_grants hkeys _)
    change Chain.Goes crypto Q .new _ (((boot crypto schemes host node.chain.storage config
      node.claims).map fun restarted => ([], restarted)).map fun outcome => outcome.2.chain)
    rw [boot_eq]
    unfold start
    cases hstart : Chain.start crypto host node.chain.storage (config.genesisBlock schemes crypto)
        (config.grants schemes node.chain.storage.accounts)
        (config.grants schemes node.chain.storage.accounts) with
    | none =>
      rw [hstart] at hgoes
      exact hgoes
    | some chain =>
      rw [hstart] at hgoes
      exact hgoes

/-- The trie of a node is made of the insertions since its last start, in every run. -/
theorem goes_of_run (hkeys : ∀ key ∈ config.startKeys schemes, Q key)
    (hbooted : Chain.Goes crypto Q .new entries (some booted.chain))
    (hrun : Run (operate crypto schemes config) booted calls node)
    (hmet : ∀ call ∈ calls, call.label.KeepsHeads)
    (hnames : ∀ call ∈ calls, call.pre.NamesIn crypto Q call.label) :
    Chain.Goes crypto Q .new (insertedSince crypto schemes config entries calls) (some node.chain) := by
  induction hrun with
  | nil => exact hbooted
  | @snoc calls s s' operation commands hrun hnext ih =>
    obtain ⟨hmetBefore, hmetLast⟩ := List.forall_mem_append.mp hmet
    obtain ⟨hnamesBefore, hnamesLast⟩ := List.forall_mem_append.mp hnames
    have hgoes := goes_of_operation hkeys (ih hmetBefore hnamesBefore)
      (hmetLast _ (List.mem_singleton_self _)) (hnamesLast _ (List.mem_singleton_self _))
    rw [hnext] at hgoes
    unfold insertedSince
    rw [List.foldl_append]
    exact hgoes

/-- The insertions of a first start. -/
theorem goes_of_boot {storage : Storage} {claims : FiniteMap Bytes Int64}
    (hkeys : ∀ key ∈ config.startKeys schemes, Q key) (hsound : Chain.Sound Q storage)
    (hboot : boot crypto schemes host storage config claims = some booted) :
    Chain.Goes crypto Q .new (Chain.opening crypto host storage (config.genesisBlock schemes crypto)
      (config.grants schemes storage.accounts)) (some booted.chain) := by
  rw [boot_eq] at hboot
  obtain ⟨chain, hstart, hnode⟩ := Option.bind_eq_some_iff.mp hboot
  obtain rfl := Option.some.inj hnode
  have hgranted := kind_of_grants hkeys storage.accounts
  refine ⟨Chain.kind_of_opening hsound hgranted, ?_, fun found hfound => ?_⟩
  · obtain ⟨opened, hopen, -⟩ := Option.bind_eq_some_iff.mp hstart
    unfold Chain.opening
    rw [hopen]
    exact Chain.trie_start hstart
  · rw [← Option.some.inj hfound]
    exact Chain.upright_of_start hsound hgranted hstart

/-- A node does not panic, whatever happens to it: while its database takes blocks and heads, all addresses
that are named have one length, and no two trie nodes collide, every event and every restart ends. -/
theorem never_panics {storage : Storage} {claims : FiniteMap Bytes Int64} {n : ℕ}
    (hsound : Chain.Sound (fun address => address.length = n) storage)
    (hboot : boot crypto schemes host storage config claims = some booted)
    (hkeys : ∀ key ∈ config.startKeys schemes, key.length = n)
    (hrun : Run (operate crypto schemes config) booted calls node)
    (hmet : ∀ call ∈ calls, call.label.KeepsHeads)
    (hnames : ∀ call ∈ calls, call.pre.NamesIn crypto (fun address => address.length = n) call.label)
    (hmeets : operation.KeepsHeads)
    (hnamed : node.NamesIn crypto (fun address => address.length = n) operation)
    (hfree : CollisionFree crypto (nodesOfRun crypto (insertedAfter crypto schemes config
      (insertedSince crypto schemes config (Chain.opening crypto host storage
        (config.genesisBlock schemes crypto) (config.grants schemes storage.accounts)) calls)
      node operation))) :
    (operate crypto schemes config node operation).isSome := by
  have hbooted := goes_of_boot hkeys hsound hboot
  have hreached := goes_of_run hkeys hbooted hrun hmet hnames
  have hgoes := goes_of_operation hkeys hreached hmeets hnamed
  obtain ⟨trie, tree, hinserted, -, -⟩ := MerklePatriciaTrie.insertAll_grown hfree hgoes.kind
    fun _ hnode => hnode
  have hends := hgoes.trie.symm.trans hinserted
  rw [Option.map_map] at hends
  obtain ⟨outcome, houtcome, -⟩ := Option.map_eq_some_iff.mp hends
  exact Option.isSome_of_eq_some houtcome

/-- A transfer, and a slot whose block packs it. -/
def panicOperations : List Operation :=
  [.event (.createTransaction Host.plain (some Sample.bob) 5), .event (.slot Host.plain (Sample.tick 3))]

/-- A node that made a block of a transfer can be restarted. -/
theorem never_panics_restarted :
    ∃ booted calls node, Sample.booted (some "first") = some booted ∧
      Run (operate Crypto.plain KeySchemes.plain (Sample.config (some "first"))) booted calls node ∧
      calls.map Call.label = panicOperations ∧ node.chain.head ≠ booted.chain.head ∧
      (operate Crypto.plain KeySchemes.plain (Sample.config (some "first")) node
        (.restart Host.plain)).isSome := by
  obtain ⟨booted, calls, node, hbooted, hrun, hlabels, hcheck⟩ :=
    Run.exists_of_trace_from (operate Crypto.plain KeySchemes.plain (Sample.config (some "first")))
      (Sample.booted (some "first")) panicOperations
      (fun booted calls node => decide (node.chain.head ≠ booted.chain.head ∧
        (∀ call ∈ calls, call.pre.NamesIn Crypto.plain (fun address => address.length = 32) call.label) ∧
        CollisionFree Crypto.plain (nodesOfRun Crypto.plain (insertedAfter Crypto.plain KeySchemes.plain
          (Sample.config (some "first")) (insertedSince Crypto.plain KeySchemes.plain
            (Sample.config (some "first")) (Chain.opening Crypto.plain Host.plain .empty
              ((Sample.config (some "first")).genesisBlock KeySchemes.plain Crypto.plain)
              ((Sample.config (some "first")).grants KeySchemes.plain ∅)) calls)
          node (.restart Host.plain)))))
      (by decide +kernel)
  obtain ⟨hmoved, hnames, hfree⟩ := of_decide_eq_true hcheck
  have hempty : Chain.Sound (fun address => address.length = 32) .empty :=
    ⟨by simp [Storage.empty], by simp [Storage.empty]⟩
  have hmet : ∀ call ∈ calls, call.label.KeepsHeads := by
    intro call hcall
    have hlabel : call.label ∈ panicOperations := hlabels ▸ List.mem_map_of_mem hcall
    rcases List.mem_cons.mp hlabel with hcreated | hslot
    · rw [hcreated]
      exact fun host hnone => absurd hnone id
    · rw [List.mem_singleton.mp hslot]
      rintro host rfl
      exact Host.plain_reliable.keepsHeads
  refine ⟨booted, calls, node, hbooted, hrun, hlabels, hmoved, ?_⟩
  exact never_panics hempty hbooted (by decide) hrun hmet hnames trivial trivial hfree

end Node

end Nocostcoin
