import Nocostcoin.Chain.Advance
import Nocostcoin.Chain.OneBlock
import Nocostcoin.Chain.Pruning
import Nocostcoin.Chain.Tally
import Nocostcoin.Node.OwnNonces
import Nocostcoin.Node.Restart

/-!
# What a node takes in and sends

An event brings blocks and votes, and a slot may make one block of the node's own. Whatever the event,
the chain takes in only those, and the commands broadcast only the block that was made and votes for
blocks that are stored.
-/

namespace Nocostcoin

open Execution

namespace Storage

/-- A pruning removes blocks and entries of the height index, and nothing else. -/
theorem prune_frame (eraser : Eraser) (storage : Storage) (target : UInt64) (chainHeadHash : String) :
    (∃ blocks heights,
      (storage.pruneBlocksBefore eraser target chainHeadHash).2 = { storage with blocks, heights }) ∧
    ∀ hash block, (storage.pruneBlocksBefore eraser target chainHeadHash).2.getBlock hash = some block →
      storage.getBlock hash = some block := by
  have herasures : Relation.ReflTransGen Erasure storage
      (storage.pruneBlocksBefore eraser target chainHeadHash).2 :=
    erasures_pruneHeights eraser chainHeadHash (target.toNat - 1) 1 0 storage
  generalize (storage.pruneBlocksBefore eraser target chainHeadHash).2 = pruned at herasures ⊢
  induction herasures with
  | refl => exact ⟨⟨storage.blocks, storage.heights, rfl⟩, fun _ _ h => h⟩
  | tail _ herasure ih =>
    obtain ⟨⟨blocks, heights, hframe⟩, hkept⟩ := ih
    cases herasure with
    | entry =>
      rw [hframe] at hkept ⊢
      exact ⟨⟨blocks, _, rfl⟩, hkept⟩
    | @both height erased =>
      refine ⟨?_, fun hash block hstored => hkept hash block ?_⟩
      · rw [hframe]
        exact ⟨_, _, rfl⟩
      · rw [getBlock_erase] at hstored
        split at hstored
        · contradiction
        · exact hstored

end Storage

namespace Chain

/-- One thing that a node does to its chain: deliver one of some blocks or add one of some votes, meeting
one of some hosts, or prune. -/
inductive Act (crypto : Crypto) (met : Host → Prop) (offered : Block → Prop) (cast : Vote → Prop)
    (chain : Chain) : Chain → Prop
  | deliver {host : Host} {block : Block} {accepted : Bool} {chain' : Chain} (hmet : met host)
      (hoffered : offered block) (hadd : chain.addBlock crypto host block = some (accepted, chain')) :
      Act crypto met offered cast chain chain'
  | vote {host : Host} {vote : Vote} (hmet : met host) (hcast : cast vote) :
      Act crypto met offered cast chain (chain.addVote crypto host vote).2
  | prune (eraser : Storage.Eraser) (target : UInt64) :
      Act crypto met offered cast chain
        (chain.withStorage (chain.storage.pruneBlocksBefore eraser target chain.head).2)

/-- Several such things one after another. -/
abbrev Acts (crypto : Crypto) (met : Host → Prop) (offered : Block → Prop) (cast : Vote → Prop) :
    Chain → Chain → Prop :=
  Relation.ReflTransGen (Act crypto met offered cast)

variable {crypto : Crypto} {met met' : Host → Prop} {offered offered' : Block → Prop}
  {cast cast' : Vote → Prop} {chain chain' : Chain}

/-- More hosts, blocks and votes may be allowed. -/
theorem Acts.mono (h : Acts crypto met offered cast chain chain') (hmet : ∀ host, met host → met' host)
    (hoffered : ∀ block, offered block → offered' block) (hcast : ∀ vote, cast vote → cast' vote) :
    Acts crypto met' offered' cast' chain chain' := by
  refine Relation.ReflTransGen.mono (fun before after hact => ?_) _ _ h
  cases hact with
  | deliver hhost hblock hadd => exact .deliver (hmet _ hhost) (hoffered _ hblock) hadd
  | vote hhost hvote => exact .vote (hmet _ hhost) (hcast _ hvote)
  | prune eraser target => exact .prune eraser target

/-- The transactions of a processed list are valid. -/
theorem valid_of_processTransactions {s s' : State} {txs : List Transaction}
    (h : processTransactions crypto s txs = (.ok (), s')) : ∀ tx ∈ txs, tx.validate crypto = .ok () := by
  induction txs generalizing s with
  | nil => simp
  | cons tx rest ih =>
    rw [processTransactions] at h
    split at h
    · simp at h
    · rename_i hfirst
      refine List.forall_mem_cons.mpr ⟨?_, ih h⟩
      unfold processTransaction at hfirst
      split at hfirst
      · simp at hfirst
      · assumption

/-- A delivery stores a block only with its header on record and with valid transactions. -/
theorem getBlock_of_delivery {host : Host} {block : Block} {accepted : Bool}
    (h : Delivery crypto host chain block accepted chain') {hash : String} {stored : Block}
    (hstored : chain'.getBlock hash = some stored) : chain.getBlock hash = some stored ∨
      stored = block ∧
        chain'.existingHash block.header.slot block.header.validatorPubkey = some block.hash ∧
        ∀ tx ∈ block.transactions, tx.validate crypto = .ok () := by
  obtain ⟨seenHeaders, headers, hrecord⟩ := recordHeader_frame host chain block
  cases h with
  | orphan | equivocation => exact .inl hstored
  | invalid =>
    rw [hrecord] at hstored
    exact .inl hstored
  | failed _ _ _ hexec | mismatch _ _ _ hexec =>
    rw [getBlock_congr (rejection_of_execution hexec).blocks] at hstored
    exact .inl hstored
  | @commit parent state _ _ _ hconsistent _ hexec _ hcommit =>
    have hframe := commitBlock_frame hcommit
    obtain ⟨headers', hstorage⟩ := storage_of_execution_frame hexec
    have hbefore : ((chain.recordHeader host block).withState state).storage.blocks =
        chain.storage.blocks := by
      change state.storage.blocks = _
      rw [hstorage]
      rfl
    have hblocks := hframe.blocks
    rw [hbefore] at hblocks
    rcases hblocks with hsame | hinsert
    · rw [getBlock_congr hsame] at hstored
      exact .inl hstored
    · unfold getBlock Storage.getBlock at hstored
      rw [hinsert, FiniteMap.lookup_insert_ite] at hstored
      split at hstored
      · refine .inr ⟨(Option.some.inj hstored).symm, ?_, valid_of_processTransactions hexec⟩
        rw [existingHash_congr hframe.seenHeaders hframe.headers, existingHash_of_execution hexec,
          existingHash_of_consistent hconsistent]
      · exact .inl hstored

/-- What is on record stays on record. -/
theorem Acts.existingHash (h : Acts crypto met offered cast chain chain') {slot : UInt64} {pubkey : Bytes}
    {hash : String} (hrecord : chain.existingHash slot pubkey = some hash) :
    chain'.existingHash slot pubkey = some hash := by
  induction h with
  | refl => exact hrecord
  | @tail before after _ hact ih =>
    cases hact with
    | @deliver host delivered accepted _ _ _ hadd =>
      rcases existingHash_of_delivery (delivery_of_addBlock hadd) with ⟨-, hkept⟩ | ⟨-, hafter⟩
      · rw [hkept]
        exact ih
      · rw [hafter]
        exact existingHash_kept host delivered ih
    | @vote host added _ _ =>
      obtain ⟨votes, stored, finalizedHead, hframe⟩ := addVote_frame crypto host before added
      rw [hframe]
      exact ih
    | prune eraser target =>
      obtain ⟨blocks, heights, hframe⟩ := (before.storage.prune_frame eraser target before.head).1
      rw [hframe]
      exact ih

/-- A stored block was stored before, or is one of the delivered ones with its header on record and with
valid transactions. -/
theorem Acts.getBlock (h : Acts crypto met offered cast chain chain') {hash : String} {block : Block}
    (hstored : chain'.getBlock hash = some block) : chain.getBlock hash = some block ∨
      offered block ∧
        chain'.existingHash block.header.slot block.header.validatorPubkey = some block.hash ∧
        ∀ tx ∈ block.transactions, tx.validate crypto = .ok () := by
  induction h with
  | refl => exact .inl hstored
  | @tail before after hacts hact ih =>
    have hkept : ∀ {slot pubkey hash}, before.existingHash slot pubkey = some hash →
        after.existingHash slot pubkey = some hash := fun hrecord =>
      Acts.existingHash (.single hact) hrecord
    cases hact with
    | @deliver host delivered accepted _ _ hoffered hadd =>
      rcases getBlock_of_delivery (delivery_of_addBlock hadd) hstored with hold | ⟨rfl, hrecord, hvalid⟩
      · exact (ih hold).imp_right fun h => ⟨h.1, hkept h.2.1, h.2.2⟩
      · exact .inr ⟨hoffered, hrecord, hvalid⟩
    | @vote host _ _ _ =>
      obtain ⟨votes, stored, finalizedHead, hframe⟩ := addVote_frame crypto host before _
      have hbefore : before.getBlock hash = some block := by
        rw [hframe] at hstored
        exact hstored
      exact (ih hbefore).imp_right fun h => ⟨h.1, hkept h.2.1, h.2.2⟩
    | prune eraser target =>
      have hbefore := (before.storage.prune_frame eraser target before.head).2 hash block hstored
      exact (ih hbefore).imp_right fun h => ⟨h.1, hkept h.2.1, h.2.2⟩

/-- A hash on record was on record before or is that of a delivered block. -/
theorem Acts.onRecord (h : Acts crypto met offered cast chain chain') {slot : UInt64} {pubkey : Bytes}
    {hash : String} (hrecord : chain'.OnRecord slot pubkey hash) :
    chain.OnRecord slot pubkey hash ∨ ∃ block, offered block ∧ block.header.slot = slot ∧
      block.header.validatorPubkey = pubkey ∧ block.hash = hash := by
  induction h with
  | refl => exact .inl hrecord
  | @tail before after _ hact ih =>
    cases hact with
    | @deliver host delivered accepted _ _ hoffered hadd =>
      rcases onRecord_of_delivery (delivery_of_addBlock hadd) hrecord with
        hold | ⟨hslot, hpubkey, hhash, -⟩
      · exact ih hold
      · exact .inr ⟨delivered, hoffered, hslot.symm, hpubkey.symm, hhash.symm⟩
    | @vote host _ _ _ =>
      obtain ⟨votes, stored, finalizedHead, hframe⟩ := addVote_frame crypto host before _
      rw [hframe] at hrecord
      exact ih hrecord
    | prune eraser target =>
      obtain ⟨blocks, heights, hframe⟩ := (before.storage.prune_frame eraser target before.head).1
      rw [hframe] at hrecord
      exact ih hrecord

/-- A newly slashed validator has a delivered block whose hash differs from one that was on record, or
from that of another delivered block, for the same slot. -/
theorem Acts.isSlashed (h : Acts crypto met offered cast chain chain') {pubkey : Bytes}
    (hafter : chain'.validators.isSlashed pubkey = true) :
    chain.validators.isSlashed pubkey = true ∨ ∃ block existing, offered block ∧
      block.header.validatorPubkey = pubkey ∧ existing ≠ block.hash ∧
      (chain.OnRecord block.header.slot pubkey existing ∨ ∃ other, offered other ∧
        other.header.slot = block.header.slot ∧ other.header.validatorPubkey = pubkey ∧
        other.hash = existing) := by
  induction h with
  | refl => exact .inl hafter
  | @tail before after hacts hact ih =>
    cases hact with
    | @deliver host delivered accepted _ _ hoffered hadd =>
      cases hbefore : before.validators.isSlashed pubkey with
      | true => exact ih hbefore
      | false =>
        obtain ⟨hpubkey, -, existing, hexisting, hne⟩ :=
          slashed_of_delivery (delivery_of_addBlock hadd) hbefore hafter
        exact .inr ⟨delivered, existing, hoffered, hpubkey.symm, hne,
          Acts.onRecord hacts (onRecord_of_existingHash hexisting)⟩
    | @vote host _ _ _ =>
      obtain ⟨votes, stored, finalizedHead, hframe⟩ := addVote_frame crypto host before _
      rw [hframe] at hafter
      exact ih hafter
    | prune eraser target => exact ih hafter

/-- A recorded vote was recorded before or is one of the added ones, with a valid signature. -/
theorem Acts.votesFor (h : Acts crypto met offered cast chain chain') {hash : String} {vote : Vote}
    (hrecorded : vote ∈ chain'.votesFor hash) : vote ∈ chain.votesFor hash ∨
      cast vote ∧ vote.blockHash = hash ∧ verifyVote crypto vote = true := by
  induction h with
  | refl => exact .inl hrecorded
  | @tail before after _ hact ih =>
    cases hact with
    | deliver _ _ hadd =>
      unfold Chain.votesFor at hrecorded ih
      rw [(votes_of_delivery (delivery_of_addBlock hadd)).1] at hrecorded
      exact ih hrecorded
    | @vote host added _ hcast =>
      rcases addVote_cases crypto host before added with ⟨hcounts, -, hcounted⟩ | ⟨-, -, huncounted⟩
      · rw [hcounted.votes] at hrecorded
        split at hrecorded
        · rename_i heq
          rcases List.mem_append.mp hrecorded with hold | hnew
          · exact ih hold
          · rw [List.mem_singleton.mp hnew]
            exact .inr ⟨hcast, heq.symm, hcounts.signed⟩
        · exact ih hrecorded
      · rw [huncounted.votes] at hrecorded
        exact ih hrecorded
    | prune eraser target => exact ih hrecorded

/-- The ledger advances by the transactions of the delivered blocks. -/
theorem Acts.advances (h : Acts crypto met offered cast chain chain') :
    State.Advances crypto (fun tx => ∃ block, offered block ∧ tx ∈ block.transactions)
      chain.state chain'.state := by
  induction h with
  | refl => exact .refl
  | @tail before after _ hact ih =>
    refine ih.trans ?_
    cases hact with
    | @deliver host delivered accepted _ _ hoffered hadd =>
      exact state_advances_of_delivery (fun tx htx => ⟨delivered, hoffered, htx⟩) (delivery_of_addBlock hadd)
    | @vote host added _ _ =>
      obtain ⟨votes, stored, finalizedHead, hframe⟩ := addVote_frame crypto host before added
      rw [hframe]
      exact State.advances_write rfl
    | prune eraser target => exact State.advances_write (Storage.accounts_pruneHeights ..)

/-- The finalized head is the one of before, or has its votes now. -/
def FinalizedSince (chain chain' : Chain) : Prop :=
  chain'.finalizedHead = chain.finalizedHead ∨ chain'.Finalized chain'.finalizedHead

/-- A vote that moves the finalized head leaves it with its votes. -/
theorem finalizedSince_addVote (crypto : Crypto) (host : Host) (chain : Chain) (vote : Vote) :
    chain.FinalizedSince (chain.addVote crypto host vote).2 := by
  rcases addVote_cases crypto host chain vote with ⟨-, -, hcounted⟩ | ⟨-, -, huncounted⟩
  · have hfinalized := hcounted.finalized
    split at hfinalized
    · rename_i hmeets
      refine .inr ⟨rfl, ?_⟩
      rw [hfinalized, hcounted.validators]
      exact hmeets
    · exact .inl hfinalized
  · exact .inl huncounted.finalized

/-- A delivery leaves the finalized head alone. -/
theorem finalizedHead_of_addBlock {host : Host} {block : Block} {accepted : Bool}
    (h : chain.addBlock crypto host block = some (accepted, chain')) :
    chain'.finalizedHead = chain.finalizedHead :=
  (blocks_of_delivery (delivery_of_addBlock h)).2.2

end Chain

/-- The blocks of a message. -/
def Event.brings : Event → List Block
  | .block _ received => [received]
  | .blocks _ received => received.map Prod.snd
  | _ => []

/-- The vote of a message. -/
def Event.votes : Event → List Vote
  | .vote _ received => [received]
  | _ => []

/-- The hosts that the blocks and votes of an event meet. -/
def Event.meets : Event → Host → Prop
  | .block host _ | .vote host _ | .slot host _ => (· = host)
  | .blocks _ received => fun host => ∃ entry ∈ received, entry.1 = host
  | _ => fun _ => False

/-- The command hands out blocks or a vote. -/
def NetworkCommand.Carries : NetworkCommand → Prop
  | .broadcastBlock _ | .broadcastVote _ | .sendResponse _ (.blocks _) => True
  | _ => False

namespace Node

variable {crypto : Crypto} {host : Host} {node node' mid : Node} {event : Event} {made : Option Block}
  {commands : List NetworkCommand}

/-- The chain takes in what the event brings and the block made; the block made is for a later slot than
any before, in the node's name, and packs transactions of the mempool; what is handed out is that block
with its header on record, votes for stored blocks, and blocks that were stored before. A finalized head
that moves has its votes. -/
structure Exchanges (crypto : Crypto) (node : Node) (event : Event) (made : Option Block)
    (commands : List NetworkCommand) (node' : Node) : Prop where
  acts : Chain.Acts crypto event.meets (fun block => block ∈ event.brings ∨ made = some block)
    (fun vote => vote ∈ event.votes ∨ .broadcastVote vote ∈ commands) node.chain node'.chain
  finalized : node.chain.FinalizedSince node'.chain
  validatorKey : node'.validatorKey = node.validatorKey
  lastSlot : node.lastSlot.toNat ≤ node'.lastSlot.toNat
  fresh : ∀ block, made = some block → node.lastSlot.toNat < block.header.slot.toNat ∧
    block.header.slot.toNat ≤ node'.lastSlot.toNat ∧ block.header.validatorPubkey = node.validatorKey
  packed : ∀ block, made = some block → ∀ tx ∈ block.transactions,
    (∃ signature, node.mempool.transactions.lookup signature = some tx) ∨
      .broadcastTransaction tx ∈ commands
  blocks : ∀ block, .broadcastBlock block ∈ commands → made = some block ∧
    node'.chain.existingHash block.header.slot block.header.validatorPubkey = some block.hash
  votes : ∀ vote, .broadcastVote vote ∈ commands → ∃ block,
    vote = castVote crypto node.validatorKey block ∧ (node'.chain.getBlock block.hash).isSome
  responses : ∀ channel blocks, .sendResponse channel (.blocks blocks) ∈ commands →
    ∀ block ∈ blocks, ∃ hash, node.chain.getBlock hash = some block

/-- An event that leaves the chain alone and hands out nothing. -/
theorem Exchanges.aside (hchain : node'.chain = node.chain)
    (hkey : node'.validatorKey = node.validatorKey) (hslot : node'.lastSlot = node.lastSlot)
    (hcommands : ∀ command ∈ commands, ¬ command.Carries) :
    Exchanges crypto node event none commands node' where
  acts := hchain ▸ .refl
  finalized := .inl (congrArg Chain.finalizedHead hchain)
  validatorKey := hkey
  lastSlot := hslot ▸ Nat.le_refl _
  fresh _ h := absurd h (by simp)
  packed _ h := absurd h (by simp)
  blocks _ hmem := absurd trivial (hcommands _ hmem)
  votes _ hmem := absurd trivial (hcommands _ hmem)
  responses _ _ hmem := absurd trivial (hcommands _ hmem)

/-- The parts of a node that a transaction of its own leaves alone, and what it hands out. -/
structure Aside (node : Node) (commands : List NetworkCommand) (node' : Node) : Prop where
  chain : node'.chain = node.chain
  validatorKey : node'.validatorKey = node.validatorKey
  lastSlot : node'.lastSlot = node.lastSlot
  commands : ∀ command ∈ commands, ¬ command.Carries

/-- Nothing but an answer. -/
theorem Aside.reply (node : Node) (result : Except String String) : Aside node [.reply result] node :=
  ⟨rfl, rfl, rfl, by simp [NetworkCommand.Carries]⟩

/-- Nothing at all. -/
theorem Aside.nil (node : Node) : Aside node [] node := ⟨rfl, rfl, rfl, by simp⟩

/-- A published transaction. -/
theorem aside_publish (crypto : Crypto) (node : Node) (tx : Transaction) :
    Aside node (node.publish crypto tx).1 (node.publish crypto tx).2 := by
  unfold publish
  rcases node.addTransaction_eq crypto tx with ⟨error, hrefused⟩ | ⟨-, htaken⟩
  · rw [hrefused]
    exact .nil node
  · rw [htaken]
    exact ⟨rfl, rfl, rfl, by simp [NetworkCommand.Carries]⟩

/-- A submitted one. -/
theorem aside_submit (crypto : Crypto) (node : Node) (tx : Transaction) (onError : String → String) :
    Aside node (node.submit crypto tx onError).1 (node.submit crypto tx onError).2 := by
  unfold submit
  rcases node.addTransaction_eq crypto tx with ⟨error, hrefused⟩ | ⟨-, htaken⟩
  · rw [hrefused]
    exact .reply node _
  · rw [htaken]
    exact ⟨rfl, rfl, rfl, by simp [NetworkCommand.Carries]⟩

/-- A faucet claim. -/
theorem aside_handleFaucet (crypto : Crypto) (host : Host) (node : Node) (receiver : Option Bytes)
    (currentTime : Int64) (recorded : Option String) :
    Aside node (node.handleFaucet crypto host receiver currentTime recorded).1
      (node.handleFaucet crypto host receiver currentTime recorded).2 := by
  unfold handleFaucet
  split
  · exact .reply node _
  · rename_i address
    split
    · exact .reply node _
    · split
      · exact .reply node _
      · dsimp only
        split
        · exact .reply node _
        · rcases node.addTransaction_eq crypto (node.newTransfer crypto host address 1000) with
            ⟨error, hrefused⟩ | ⟨-, htaken⟩
          · rw [hrefused]
            exact .reply node _
          · rw [htaken]
            exact ⟨rfl, rfl, rfl, by simp [NetworkCommand.Carries]⟩

/-- A generated transfer. -/
theorem aside_simulate (crypto : Crypto) (host : Host) (node : Node) (tick : Tick) :
    Aside node (node.simulate crypto host tick).1 (node.simulate crypto host tick).2 := by
  unfold simulate
  split
  · exact .nil node
  · split
    · exact aside_publish ..
    · exact .nil node

/-- Such a part of an event exchanges nothing. -/
theorem Aside.exchanges (h : Aside node commands node') :
    Exchanges crypto node event none commands node' :=
  .aside h.chain h.validatorKey h.lastSlot h.commands

/-- A block that a node adds is stored if it is accepted. -/
theorem getBlock_of_addBlock {chain chain' : Chain} {block : Block}
    (h : chain.addBlock crypto host block = some (true, chain')) : (chain'.getBlock block.hash).isSome := by
  unfold Chain.getBlock Storage.getBlock
  rw [(Chain.blocks_of_accepted (Chain.delivery_of_addBlock h)).2, FiniteMap.lookup_insert_ite,
    if_pos rfl]
  rfl

/-- A vote leaves the stored blocks alone. -/
theorem getBlock_addVote (crypto : Crypto) (host : Host) (chain : Chain) (vote : Vote) (hash : String) :
    (chain.addVote crypto host vote).2.getBlock hash = chain.getBlock hash := by
  obtain ⟨votes, stored, finalizedHead, hframe⟩ := Chain.addVote_frame crypto host chain vote
  rw [hframe]
  rfl

/-- And the recorded headers. -/
theorem existingHash_addVote (crypto : Crypto) (host : Host) (chain : Chain) (vote : Vote)
    (slot : UInt64) (pubkey : Bytes) :
    (chain.addVote crypto host vote).2.existingHash slot pubkey = chain.existingHash slot pubkey := by
  obtain ⟨votes, stored, finalizedHead, hframe⟩ := Chain.addVote_frame crypto host chain vote
  rw [hframe]
  rfl

/-- A block from the network. -/
theorem exchanges_handleBlock {block : Block}
    (h : node.handleBlock crypto host block = some (commands, node')) :
    Exchanges crypto node (.block host block) none commands node' := by
  obtain ⟨⟨accepted, chain⟩, hadd, hact⟩ := Option.bind_eq_some_iff.mp h
  have hbrings : block ∈ (Event.block host block).brings ∨ (none : Option Block) = some block :=
    .inl List.mem_cons_self
  have hhead := Chain.finalizedHead_of_addBlock hadd
  cases accepted with
  | false =>
    obtain ⟨rfl, rfl⟩ := Prod.mk.inj (Option.some.inj hact)
    exact ⟨.single (.deliver rfl hbrings hadd), .inl hhead, rfl, Nat.le_refl _, by simp, by simp,
      by simp, by simp, by simp⟩
  | true =>
    obtain ⟨head, -, hvote⟩ := Option.bind_eq_some_iff.mp hact
    split at hvote
    · rename_i hhash
      obtain ⟨rfl, rfl⟩ := Prod.mk.inj (Option.some.inj hvote)
      refine ⟨.tail (.single (.deliver rfl hbrings hadd)) (.vote rfl (.inr List.mem_cons_self)),
        ?_, rfl, Nat.le_refl _, by simp, by simp, by simp, ?_, by simp⟩
      · exact (Chain.finalizedSince_addVote crypto host chain _).imp_left fun hkept => hkept.trans hhead
      intro vote hmem
      obtain rfl : vote = castVote crypto node.validatorKey head := by simpa using hmem
      refine ⟨head, rfl, ?_⟩
      have hstored : (chain.getBlock head.hash).isSome := hhash ▸ getBlock_of_addBlock hadd
      rwa [← getBlock_addVote crypto host chain (castVote crypto node.validatorKey head)] at hstored
    · obtain ⟨rfl, rfl⟩ := Prod.mk.inj (Option.some.inj hvote)
      exact ⟨.single (.deliver rfl hbrings hadd), .inl hhead, rfl, Nat.le_refl _, by simp, by simp,
        by simp, by simp, by simp⟩

/-- Pruning leaves key, slot and finalized head alone. -/
theorem acts_prune {met : Host → Prop} {offered : Block → Prop} {cast : Vote → Prop} {tick : Tick}
    (h : node.prune tick = some node') :
    Chain.Acts crypto met offered cast node.chain node'.chain ∧
      node'.chain.finalizedHead = node.chain.finalizedHead ∧
      node'.validatorKey = node.validatorKey ∧ node'.lastSlot = node.lastSlot := by
  unfold prune at h
  split at h
  · obtain ⟨height, -, hprune⟩ := Option.bind_eq_some_iff.mp h
    dsimp only at hprune
    split at hprune
    · rw [← Option.some.inj hprune]
      exact ⟨.single (.prune tick.eraser _), rfl, rfl, rfl⟩
    · rw [← Option.some.inj hprune]
      exact ⟨.refl, rfl, rfl, rfl⟩
  · rw [← Option.some.inj h]
    exact ⟨.refl, rfl, rfl, rfl⟩

/-- A broadcast of a transaction is one of the commands. -/
theorem mem_broadcasts_iff {tx : Transaction} :
    tx ∈ broadcasts commands ↔ .broadcastTransaction tx ∈ commands := by
  unfold broadcasts
  rw [List.mem_filterMap]
  constructor
  · rintro ⟨command, hmem, heq⟩
    cases command with
    | broadcastTransaction other =>
      obtain rfl := Option.some.inj heq
      exact hmem
    | _ => simp at heq
  · exact fun hmem => ⟨_, hmem, rfl⟩

/-- What is in the mempool after a transaction was offered was there, or is broadcast. -/
theorem Offers.lookup {tx found : Transaction} (h : Offers crypto node tx commands node')
    {signature : Bytes} (hlookup : node'.mempool.transactions.lookup signature = some found) :
    node.mempool.transactions.lookup signature = some found ∨
      .broadcastTransaction found ∈ commands := by
  rcases h.outcome with ⟨-, hmempool⟩ | ⟨-, hone, hmempool⟩
  · rw [hmempool] at hlookup
    exact .inl hlookup
  · rw [hmempool, Mempool.lookup_entered] at hlookup
    split at hlookup
    · obtain rfl := Option.some.inj hlookup
      exact .inr (mem_broadcasts_iff.mp (hone ▸ List.mem_singleton_self _))
    · exact .inl hlookup

/-- The production of one block: it alone is delivered, and what is handed out is the block, once its
header is on record, and a vote for a stored block. -/
structure Produces (crypto : Crypto) (host : Host) (node : Node) (slot : UInt64) (made : Block)
    (commands : List NetworkCommand) (node' : Node) : Prop where
  acts : Chain.Acts crypto (· = host) (fun block => some made = some block)
    (fun vote => .broadcastVote vote ∈ commands) node.chain node'.chain
  finalized : node.chain.FinalizedSince node'.chain
  validatorKey : node'.validatorKey = node.validatorKey
  lastSlot : node'.lastSlot = node.lastSlot
  slot : made.header.slot = slot
  name : made.header.validatorPubkey = node.validatorKey
  packed : ∀ tx ∈ made.transactions, ∃ signature, node.mempool.transactions.lookup signature = some tx
  blocks : ∀ block, .broadcastBlock block ∈ commands → some made = some block ∧
    node'.chain.existingHash block.header.slot block.header.validatorPubkey = some block.hash
  votes : ∀ vote, .broadcastVote vote ∈ commands → ∃ block,
    vote = castVote crypto node.validatorKey block ∧ (node'.chain.getBlock block.hash).isSome
  responses : ∀ channel blocks, .sendResponse channel (.blocks blocks) ∉ commands

/-- A leader produces one block. -/
theorem produces_of_produce {tick : Tick} {parent : Block}
    (h : node.produce crypto host tick parent = some (commands, node')) :
    ∃ made, Produces crypto host node tick.currentSlot made commands node' := by
  obtain ⟨pruned, hprune, hadd⟩ := Option.bind_eq_some_iff.mp h
  have hfor : (produceBlock crypto parent tick.currentSlot node.validatorKey
      (node.mempool.getTransactionsForBlock host 100) tick.timestamp).header.slot = tick.currentSlot := rfl
  have hby : (produceBlock crypto parent tick.currentSlot node.validatorKey
      (node.mempool.getTransactionsForBlock host 100) tick.timestamp).header.validatorPubkey =
        node.validatorKey := rfl
  have hpacked : ∀ tx ∈ (produceBlock crypto parent tick.currentSlot node.validatorKey
      (node.mempool.getTransactionsForBlock host 100) tick.timestamp).transactions,
      ∃ signature, node.mempool.transactions.lookup signature = some tx :=
    fun tx htx => Mempool.lookup_of_selected htx
  generalize produceBlock crypto parent tick.currentSlot node.validatorKey
    (node.mempool.getTransactionsForBlock host 100) tick.timestamp = made at hadd hfor hby hpacked
  obtain ⟨⟨accepted, chain⟩, hdelivered, hact⟩ := Option.bind_eq_some_iff.mp hadd
  obtain ⟨hpruned, hfinalized, hkey, hsame⟩ : Chain.Acts crypto (· = host)
      (fun block => some made = some block) (fun vote => .broadcastVote vote ∈ commands)
      node.chain pruned.chain ∧ pruned.chain.finalizedHead = node.chain.finalizedHead ∧
      pruned.validatorKey = node.validatorKey ∧ pruned.lastSlot = node.lastSlot := acts_prune hprune
  have hacts := hpruned.tail (.deliver rfl rfl hdelivered)
  have hhead := (Chain.finalizedHead_of_addBlock hdelivered).trans hfinalized
  refine ⟨made, ?_⟩
  cases accepted with
  | false =>
    obtain ⟨rfl, rfl⟩ := Prod.mk.inj (Option.some.inj hact)
    exact ⟨hacts, .inl hhead, hkey, hsame, hfor, hby, hpacked, by simp, by simp, by simp⟩
  | true =>
    obtain ⟨rfl, rfl⟩ := Prod.mk.inj (Option.some.inj hact)
    refine ⟨hacts.tail (.vote rfl (by simp)), ?_, hkey, hsame, hfor, hby, hpacked, fun block hmem => ?_,
      fun vote hmem => ?_, by simp⟩
    · exact (Chain.finalizedSince_addVote crypto host chain _).imp_left fun hkept => hkept.trans hhead
    · obtain rfl : block = made := by simpa using hmem
      have hrecord := Chain.existingHash_of_accepted (Chain.delivery_of_addBlock hdelivered)
      rw [← existingHash_addVote crypto host chain (castVote crypto pruned.validatorKey block)] at hrecord
      exact ⟨rfl, hrecord⟩
    · obtain rfl : vote = castVote crypto pruned.validatorKey made := by simpa using hmem
      refine ⟨made, by rw [hkey], ?_⟩
      have hstored := getBlock_of_addBlock hdelivered
      rwa [← getBlock_addVote crypto host chain (castVote crypto pruned.validatorKey made)] at hstored

/-- A slot: a transfer may be generated before the block is produced. -/
theorem exchanges_handleSlot {tick : Tick}
    (h : node.handleSlot crypto host tick = some (commands, node')) :
    ∃ made, Exchanges crypto node (.slot host tick) made commands node' := by
  unfold handleSlot at h
  split at h
  · rename_i hentered
    have hlater : node.lastSlot.toNat < tick.currentSlot.toNat := UInt64.lt_iff_toNat_lt.mp hentered.2
    have haside := aside_simulate crypto host { node with lastSlot := tick.currentSlot } tick
    obtain ⟨address, amount, hoffers⟩ :=
      offers_simulate crypto host { node with lastSlot := tick.currentSlot } tick
    generalize simulate crypto host { node with lastSlot := tick.currentSlot } tick = generated
      at h haside hoffers
    obtain ⟨hchain, hkey, hslot, hcommands⟩ := haside
    obtain ⟨parent, -, hact⟩ := Option.bind_eq_some_iff.mp h
    split at hact
    · obtain ⟨⟨produced, next⟩, hproduce, hlast⟩ := Option.bind_eq_some_iff.mp hact
      obtain ⟨rfl, rfl⟩ := Prod.mk.inj (Option.some.inj hlast)
      obtain ⟨made, hproduces⟩ := produces_of_produce hproduce
      have hcarried : ∀ command, command.Carries → command ∈ generated.1 ++ produced →
          command ∈ produced := by
        intro command hcarries hmem
        rcases List.mem_append.mp hmem with hmem | hmem
        · exact absurd hcarries (hcommands command hmem)
        · exact hmem
      refine ⟨some made, ?_⟩
      constructor
      case acts =>
        rw [← show generated.2.chain = node.chain from hchain]
        exact hproduces.acts.mono (fun _ h => h) (fun block h => .inr h)
          fun vote h => .inr (List.mem_append_right _ h)
      case finalized =>
        rw [← show generated.2.chain = node.chain from hchain]
        exact hproduces.finalized
      case validatorKey => exact hproduces.validatorKey.trans hkey
      case lastSlot =>
        rw [hproduces.lastSlot, hslot]
        exact hlater.le
      case fresh =>
        intro block hblock
        obtain rfl := Option.some.inj hblock
        rw [hproduces.slot, hproduces.name, hproduces.lastSlot, hslot, hkey]
        exact ⟨hlater, Nat.le_refl _, rfl⟩
      case packed =>
        intro block hblock tx htx
        obtain rfl := Option.some.inj hblock
        obtain ⟨signature, hlookup⟩ := hproduces.packed tx htx
        exact (hoffers.lookup hlookup).imp (fun hold => ⟨signature, hold⟩)
          fun hbroadcast => List.mem_append_left _ hbroadcast
      case blocks =>
        intro block hmem
        exact hproduces.blocks block (hcarried (.broadcastBlock block) trivial hmem)
      case votes =>
        intro vote hmem
        obtain ⟨block, hvote, hstored⟩ :=
          hproduces.votes vote (hcarried (.broadcastVote vote) trivial hmem)
        rw [hkey] at hvote
        exact ⟨block, hvote, hstored⟩
      case responses =>
        intro channel blocks hmem
        exact absurd (hcarried (.sendResponse channel (.blocks blocks)) trivial hmem)
          (hproduces.responses channel blocks)
    · obtain ⟨rfl, rfl⟩ := Prod.mk.inj (Option.some.inj hact)
      refine ⟨none, hchain ▸ .refl, .inl (congrArg Chain.finalizedHead hchain), hkey, ?_, by simp,
        by simp, fun block hmem => ?_, fun vote hmem => ?_, fun channel blocks hmem => ?_⟩
      · rw [hslot]
        exact hlater.le
      · exact absurd trivial (hcommands (.broadcastBlock block) hmem)
      · exact absurd trivial (hcommands (.broadcastVote vote) hmem)
      · exact absurd trivial (hcommands (.sendResponse channel (.blocks blocks)) hmem)
  · obtain ⟨rfl, rfl⟩ := Prod.mk.inj (Option.some.inj h)
    exact ⟨none, .aside rfl rfl rfl (by simp)⟩

/-- The blocks of a message leave the finalized head alone. -/
theorem finalizedHead_of_addBlocks {chain chain' : Chain} {blocks : List (Host × Block)} {before : ℕ}
    {result : Except String ℕ}
    (h : SyncManager.addBlocks crypto before chain blocks = some (result, chain')) :
    chain'.finalizedHead = chain.finalizedHead := by
  induction blocks generalizing chain before with
  | nil =>
    obtain ⟨-, rfl⟩ := Prod.mk.inj (Option.some.inj h)
    rfl
  | cons entry rest ih =>
    obtain ⟨host, block⟩ := entry
    rw [SyncManager.addBlocks] at h
    split at h
    · contradiction
    · rename_i next hdelivered
      exact (ih h).trans (Chain.finalizedHead_of_addBlock hdelivered)
    · rename_i next hdelivered
      split at h
      · exact (ih h).trans (Chain.finalizedHead_of_addBlock hdelivered)
      · obtain ⟨-, rfl⟩ := Prod.mk.inj (Option.some.inj h)
        exact Chain.finalizedHead_of_addBlock hdelivered

/-- They are delivered in turn. -/
theorem acts_addBlocks {cast : Vote → Prop} {chain chain' : Chain} {blocks : List (Host × Block)}
    {before : ℕ} {result : Except String ℕ}
    (h : SyncManager.addBlocks crypto before chain blocks = some (result, chain')) :
    Chain.Acts crypto (fun host => ∃ entry ∈ blocks, entry.1 = host)
      (fun block => block ∈ blocks.map Prod.snd) cast chain chain' := by
  induction blocks generalizing chain before with
  | nil =>
    obtain ⟨-, rfl⟩ := Prod.mk.inj (Option.some.inj h)
    exact .refl
  | cons entry rest ih =>
    obtain ⟨host, block⟩ := entry
    have hfirst : block ∈ ((host, block) :: rest).map Prod.snd := List.mem_cons_self
    have hmet : ∃ entry ∈ (host, block) :: rest, entry.1 = host := ⟨_, List.mem_cons_self, rfl⟩
    have hlater : ∀ other, (∃ entry ∈ rest, entry.1 = other) → ∃ entry ∈ (host, block) :: rest,
        entry.1 = other := fun other ⟨entry, hmem, heq⟩ => ⟨entry, List.mem_cons_of_mem _ hmem, heq⟩
    have hrest : ∀ other ∈ rest.map Prod.snd, other ∈ ((host, block) :: rest).map Prod.snd :=
      fun other hother => List.mem_cons_of_mem block hother
    rw [SyncManager.addBlocks] at h
    split at h
    · contradiction
    · rename_i next hdelivered
      exact .head (.deliver hmet hfirst hdelivered)
        (Chain.Acts.mono (ih h) hlater hrest fun _ hcast => hcast)
    · rename_i next hdelivered
      split at h
      · exact .head (.deliver hmet hfirst hdelivered)
          (Chain.Acts.mono (ih h) hlater hrest fun _ hcast => hcast)
      · obtain ⟨-, rfl⟩ := Prod.mk.inj (Option.some.inj h)
        exact .single (.deliver hmet hfirst hdelivered)

/-- Going on with a sync asks for blocks at most. -/
theorem continueSync_asks {received : Bool} (h : node.continueSync received = some (commands, node')) :
    ∀ command ∈ commands, ¬ command.Carries := by
  unfold continueSync at h
  split at h
  · obtain ⟨height, -, hact⟩ := Option.bind_eq_some_iff.mp h
    split at hact
    · split at hact <;>
        · obtain ⟨rfl, -⟩ := Prod.mk.inj (Option.some.inj hact)
          simp [NetworkCommand.Carries]
    · obtain ⟨rfl, -⟩ := Prod.mk.inj (Option.some.inj hact)
      simp
  · obtain ⟨rfl, -⟩ := Prod.mk.inj (Option.some.inj h)
    simp

/-- A message of blocks. -/
theorem exchanges_handleBlocks {sender : Bytes} {blocks : List (Host × Block)}
    (h : node.handleBlocks crypto blocks = some (commands, node')) :
    Exchanges crypto node (.blocks sender blocks) none commands node' := by
  have hquiet : ∀ {chain : Chain},
      Chain.Acts crypto (fun host => ∃ entry ∈ blocks, entry.1 = host)
        (fun block => block ∈ blocks.map Prod.snd) (fun vote => .broadcastVote vote ∈ commands)
        node.chain chain →
      chain.finalizedHead = node.chain.finalizedHead → (∀ command ∈ commands, ¬ command.Carries) →
      ∀ {syncManager : SyncManager},
        Exchanges crypto node (.blocks sender blocks) none commands { node with chain, syncManager } := by
    intro chain hacts hhead hcommands syncManager
    exact ⟨hacts.mono (fun _ h => h) (fun _ h => .inl h) fun _ h => .inr h, .inl hhead, rfl,
      Nat.le_refl _, by simp, by simp,
      fun block hmem => absurd trivial (hcommands (.broadcastBlock block) hmem),
      fun vote hmem => absurd trivial (hcommands (.broadcastVote vote) hmem),
      fun channel blocks hmem => absurd trivial (hcommands (.sendResponse channel (.blocks blocks)) hmem)⟩
  rcases handleBlocks_cases h with ⟨error, chain', hadded, rfl, rfl⟩ |
    ⟨count, chain', syncManager, hadded, -, hcontinue⟩
  · exact hquiet (acts_addBlocks hadded) (finalizedHead_of_addBlocks hadded) (by simp)
  · rw [continueSync_eq hcontinue]
    exact hquiet (acts_addBlocks hadded) (finalizedHead_of_addBlocks hadded) (continueSync_asks hcontinue)

/-- The blocks of an answer are stored. -/
theorem stored_of_blocksFrom {chain : Chain} {limit : ℕ} {height : UInt64} {block : Block}
    (h : block ∈ chain.blocksFrom limit height) : ∃ hash, chain.getBlock hash = some block := by
  induction limit generalizing height with
  | zero => exact absurd h List.not_mem_nil
  | succ limit ih =>
    rw [Chain.blocksFrom] at h
    split at h
    · exact absurd h List.not_mem_nil
    · rename_i hash _
      split at h
      · exact absurd h List.not_mem_nil
      · rename_i stored hstored
        rcases List.mem_cons.mp h with rfl | hrest
        · exact ⟨hash, hstored⟩
        · exact ih hrest

/-- A request of a peer. -/
theorem exchanges_handleRequest {peerId : Bytes} {request : SyncRequest} {channel : ℕ}
    (h : node.handleRequest request channel = some (commands, node')) :
    Exchanges crypto node (.incomingRequest peerId request channel) none commands node' := by
  cases request with
  | getChainInfo =>
    obtain ⟨height, -, hact⟩ := Option.bind_eq_some_iff.mp h
    obtain ⟨rfl, rfl⟩ := Prod.mk.inj (Option.some.inj hact)
    exact .aside rfl rfl rfl (by simp [NetworkCommand.Carries])
  | getBlocks startHash limit =>
    obtain ⟨rfl, rfl⟩ := Prod.mk.inj (Option.some.inj h)
    refine ⟨.refl, .inl rfl, rfl, Nat.le_refl _, by simp, by simp, by simp, by simp, ?_⟩
    intro other blocks hmem block hblock
    obtain ⟨-, rfl⟩ : other = channel ∧ blocks = node.chain.getBlocksRange startHash limit := by
      simpa using hmem
    unfold Chain.getBlocksRange at hblock
    split at hblock
    · exact absurd hblock List.not_mem_nil
    · exact stored_of_blocksFrom hblock

/-- Every event of the loop exchanges no more than this. -/
theorem exchanges_of_handle (h : node.handle crypto event = some (commands, node')) :
    ∃ made, Exchanges crypto node event made commands node' := by
  cases event with
  | slot host tick => exact exchanges_handleSlot h
  | block host block => exact ⟨none, exchanges_handleBlock h⟩
  | blocks sender blocks => exact ⟨none, exchanges_handleBlocks h⟩
  | incomingRequest peerId request channel => exact ⟨none, exchanges_handleRequest h⟩
  | vote host vote =>
    obtain ⟨rfl, rfl⟩ := Prod.mk.inj (Option.some.inj h)
    exact ⟨none, .single (.vote rfl (.inl List.mem_cons_self)), Chain.finalizedSince_addVote ..,
      rfl, Nat.le_refl _, by simp, by simp, by simp, by simp, by simp⟩
  | chainInfo host peerId height headHash =>
    obtain ⟨ourHeight, -, hact⟩ := Option.bind_eq_some_iff.mp h
    split at hact <;>
      · obtain ⟨rfl, rfl⟩ := Prod.mk.inj (Option.some.inj hact)
        exact ⟨none, .aside rfl rfl rfl (by simp [NetworkCommand.Carries])⟩
  | send host receiver amount =>
    obtain ⟨rfl, rfl⟩ := Prod.mk.inj (Option.some.inj h)
    cases receiver with
    | none => exact ⟨none, (Aside.nil node).exchanges⟩
    | some receiver => exact ⟨none, (aside_publish ..).exchanges⟩
  | createTransaction host receiver amount =>
    obtain ⟨rfl, rfl⟩ := Prod.mk.inj (Option.some.inj h)
    cases receiver with
    | none => exact ⟨none, (Aside.reply node _).exchanges⟩
    | some receiver => exact ⟨none, (aside_submit ..).exchanges⟩
  | submitTransaction tx =>
    obtain ⟨rfl, rfl⟩ := Prod.mk.inj (Option.some.inj h)
    exact ⟨none, (aside_submit ..).exchanges⟩
  | faucet host receiver currentTime recorded =>
    obtain ⟨rfl, rfl⟩ := Prod.mk.inj (Option.some.inj h)
    exact ⟨none, (aside_handleFaucet ..).exchanges⟩
  | registerValidator stake =>
    rw [handle, handleRegister] at h
    split at h
    · obtain ⟨rfl, rfl⟩ := Prod.mk.inj (Option.some.inj h)
      exact ⟨none, (Aside.reply node _).exchanges⟩
    · obtain ⟨rfl, rfl⟩ := Prod.mk.inj (Option.some.inj h)
      exact ⟨none, (aside_submit ..).exchanges⟩
  | transaction tx =>
    obtain ⟨rfl, rfl⟩ := Prod.mk.inj (Option.some.inj h)
    exact ⟨none, .aside rfl rfl rfl (by simp)⟩
  | peerConnected peerId =>
    obtain ⟨rfl, rfl⟩ := Prod.mk.inj (Option.some.inj h)
    exact ⟨none, .aside rfl rfl rfl (by simp [NetworkCommand.Carries])⟩
  | peerDisconnected peerId =>
    obtain ⟨rfl, rfl⟩ := Prod.mk.inj (Option.some.inj h)
    exact ⟨none, .aside rfl rfl rfl (by simp)⟩
  | peerIdentified peerId protocol address =>
    obtain ⟨rfl, rfl⟩ := Prod.mk.inj (Option.some.inj h)
    exact ⟨none, .aside rfl rfl rfl (by simp)⟩
  | toggleSim =>
    obtain ⟨rfl, rfl⟩ := Prod.mk.inj (Option.some.inj h)
    exact ⟨none, .aside rfl rfl rfl (by simp)⟩
  | setWallet address =>
    obtain ⟨rfl, rfl⟩ := Prod.mk.inj (Option.some.inj h)
    exact ⟨none, .aside rfl rfl rfl (by simp)⟩

end Node

end Nocostcoin
