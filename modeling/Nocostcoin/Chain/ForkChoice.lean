import Nocostcoin.Chain.Agreement

/-!
# The fork choice over whole runs

The head is a stored block that no stored block is better than, it is the head on disk, and it only
moves to better blocks. From every stored block the parent links lead down to the genesis block.
Headers decide all of this, so a block that is delivered again with the same header changes nothing.
-/

namespace Nocostcoin

open Execution

variable {crypto : Crypto}

namespace Consensus

variable {a b c : Block}

/-- A block is not better than itself, nor than a block with its header. -/
theorem not_isBetterBlock_of_header (h : a.header = b.header) : isBetterBlock a b = false := by
  unfold isBetterBlock
  grind

/-- The fork choice reads headers alone. -/
theorem isBetterBlock_congr {a' b' : Block} (ha : a'.header = a.header) (hb : b'.header = b.header) :
    isBetterBlock a' b' = isBetterBlock a b := by
  unfold isBetterBlock
  rw [ha, hb]

/-- What is not better than the head is not better than a better head. -/
theorem not_isBetterBlock_of_better (h : isBetterBlock a b = false) (hbetter : isBetterBlock c b = true) :
    isBetterBlock a c = false := by
  cases hac : isBetterBlock a c with
  | false => rfl
  | true => rw [isBetterBlock_trans hac hbetter] at h; contradiction

/-- A better block is not of an earlier slot. -/
theorem slot_le_of_better (h : isBetterBlock a b = true) : b.header.slot ≤ a.header.slot := by
  unfold isBetterBlock at h
  grind

/-- A block that is not better is not of a later slot. -/
theorem slot_le_of_not_better (h : isBetterBlock a b = false) : a.header.slot ≤ b.header.slot := by
  unfold isBetterBlock at h
  grind

end Consensus

namespace Chain

variable {host : Host} {chain chain' start : Chain} {block genesisBlock : Block} {accepted : Bool}
  {calls : List (Call Chain Request Bool)}

/-- What an accepted block does to the head, the stored blocks and the height index. -/
structure Chosen (chain : Chain) (block : Block) (chain' : Chain) : Prop where
  head : ∃ currentHead, chain.getHead = some currentHead ∧
    chain'.head = (if Consensus.isBetterBlock block currentHead then block.hash else chain.head) ∧
    chain'.storage.head =
      if Consensus.isBetterBlock block currentHead then some block.hash else chain.storage.head
  blocks : chain'.storage.blocks = chain.storage.blocks.insert block.hash block
  heights : chain'.storage.heights = chain.storage.heights.insert block.header.slot block.hash

/-- The head, the stored blocks and the height index are what they were. -/
structure Unchosen (chain chain' : Chain) : Prop where
  head : chain'.head = chain.head
  storedHead : chain'.storage.head = chain.storage.head
  blocks : chain'.storage.blocks = chain.storage.blocks
  heights : chain'.storage.heights = chain.storage.heights

/-- A rejection after the header was recorded. -/
theorem unchosen_of_execution {result : Except String Unit} {state : State}
    (hexec : processTransactions crypto (chain.recordHeader host block).state.discardChanges
      block.transactions = (result, state)) :
    Unchosen chain ((chain.recordHeader host block).withState state.discardChanges) := by
  obtain ⟨seenHeaders, headers, hrecord⟩ := recordHeader_frame host chain block
  obtain ⟨headers', hstorage⟩ := storage_of_execution_frame hexec
  have hafter : ((chain.recordHeader host block).withState state.discardChanges).storage =
      { chain.state.storage with headers := headers' } := hstorage
  constructor
  · rw [hrecord]
    rfl
  · rw [hafter]
    rfl
  · rw [hafter]
    rfl
  · rw [hafter]
    rfl

/-- A commit on a reliable database chooses the head and indexes the block. -/
theorem chosen_of_commit (hreliable : host.Reliable) {state : State}
    (hexec : processTransactions crypto (chain.recordHeader host block).state.discardChanges
      block.transactions = (.ok (), state))
    (hcommit : commitBlock crypto host ((chain.recordHeader host block).withState state) block =
      some (accepted, chain')) : accepted = true ∧ Chosen chain block chain' := by
  obtain ⟨seenHeaders, headers, hrecord⟩ := recordHeader_frame host chain block
  obtain ⟨headers', hstorage⟩ := storage_of_execution_frame hexec
  have hbefore : ((chain.recordHeader host block).withState state).storage =
      { chain.state.storage with headers := headers' } := hstorage
  obtain ⟨rfl, currentHead, trie, hhead, rfl⟩ := commitBlock_reliable hreliable hcommit
  obtain ⟨pending, storage, hfold, ⟨txIndex, historyCount, history, rfl⟩, -, -⟩ :=
    foldl_indexTransaction_frame crypto host block block.transactions
      (((chain.recordHeader host block).withState state).committed block currentHead trie)
  refine ⟨rfl, ⟨currentHead, ?_, ?_, ?_⟩, ?_, ?_⟩
  · unfold getHead at hhead
    rw [hbefore, hrecord] at hhead
    exact hhead
  · rw [hfold, hrecord]
    rfl
  · rw [hfold]
    change (if _ then some block.hash else state.storage.head) = _
    rw [hstorage]
    rfl
  · rw [hfold]
    change state.storage.blocks.insert block.hash block = _
    rw [hstorage]
    rfl
  · rw [hfold]
    change state.storage.heights.insert block.header.slot block.hash = _
    rw [hstorage]
    rfl

/-- A delivery on a reliable database chooses between the head and a block that passes the checks, or
leaves everything as it is. -/
theorem chosen_or_unchosen (hreliable : host.Reliable)
    (h : Delivery crypto host chain block accepted chain') :
    (accepted = true ∧ (∃ parent, chain.Passes crypto block parent) ∧ Chosen chain block chain') ∨
      (accepted = false ∧ Unchosen chain chain') := by
  cases h with
  | orphan | equivocation => exact .inr ⟨rfl, rfl, rfl, rfl, rfl⟩
  | invalid =>
    obtain ⟨seenHeaders, headers, hrecord⟩ := recordHeader_frame host chain block
    rw [hrecord]
    exact .inr ⟨rfl, rfl, rfl, rfl, rfl⟩
  | failed _ _ _ hexec | mismatch _ _ _ hexec _ => exact .inr ⟨rfl, unchosen_of_execution hexec⟩
  | commit hparent hconsistent hvalid hexec hroot hcommit =>
    obtain ⟨haccepted, hchosen⟩ := chosen_of_commit hreliable hexec hcommit
    exact .inl ⟨haccepted, ⟨_, passes_of_commit hparent hconsistent hvalid hexec hroot⟩, hchosen⟩

/-- Each block carries the hash of its header, and among them no two headers collide. -/
structure HeaderHashed (crypto : Crypto) (blocks : List Block) : Prop where
  own : ∀ block ∈ blocks, block.hash = Block.calculateHash crypto block.header
  free : ∀ a ∈ blocks, ∀ b ∈ blocks,
    Block.calculateHash crypto a.header = Block.calculateHash crypto b.header → a.header = b.header

instance (crypto : Crypto) (blocks : List Block) : Decidable (HeaderHashed crypto blocks) :=
  decidable_of_iff ((∀ block ∈ blocks, block.hash = Block.calculateHash crypto block.header) ∧
      ∀ a ∈ blocks, ∀ b ∈ blocks,
        Block.calculateHash crypto a.header = Block.calculateHash crypto b.header → a.header = b.header)
    ⟨fun h => ⟨h.1, h.2⟩, fun h => ⟨h.own, h.free⟩⟩

/-- Among such blocks the hash decides the header. -/
theorem HeaderHashed.header_eq {blocks : List Block} (h : HeaderHashed crypto blocks) {a b : Block}
    (ha : a ∈ blocks) (hb : b ∈ blocks) (hhash : a.hash = b.hash) : a.header = b.header := by
  rw [h.own a ha, h.own b hb] at hhash
  exact h.free a ha b hb hhash

/-- Stored headers stay under their hashes. -/
def HeadersStay (chain chain' : Chain) : Prop :=
  ∀ hash stored, chain.getBlock hash = some stored →
    ∃ kept, chain'.getBlock hash = some kept ∧ kept.header = stored.header

theorem HeadersStay.refl (chain : Chain) : chain.HeadersStay chain :=
  fun _ stored hstored => ⟨stored, hstored, rfl⟩

theorem HeadersStay.trans {a b c : Chain} (hab : a.HeadersStay b) (hbc : b.HeadersStay c) :
    a.HeadersStay c := by
  intro hash stored hstored
  obtain ⟨kept, hkept, hheader⟩ := hab hash stored hstored
  obtain ⟨kept', hkept', hheader'⟩ := hbc hash kept hkept
  exact ⟨kept', hkept', hheader'.trans hheader⟩

/-- The stored blocks form a tree over the genesis block, each lies under its hash and comes from the
list, and the head, the same on disk, is one that no stored block is better than. -/
structure Tip (genesisBlock : Block) (blocks : List Block) (chain : Chain) : Prop where
  rooted : chain.Rooted genesisBlock.hash
  named : ∀ hash stored, chain.getBlock hash = some stored → stored.hash = hash ∧ stored ∈ blocks
  persisted : chain.storage.head = some chain.head
  best : ∃ head, chain.getHead = some head ∧
    ∀ hash stored, chain.getBlock hash = some stored → Consensus.isBetterBlock stored head = false

/-- Reading a block after one was accepted. -/
theorem Chosen.getBlock (h : Chosen chain block chain') (hash : String) :
    chain'.getBlock hash = if hash = block.hash then some block else chain.getBlock hash := by
  unfold Chain.getBlock Storage.getBlock
  rw [h.blocks]
  exact FiniteMap.lookup_insert_ite _ _ _ _

/-- Reading a block after one was rejected. -/
theorem Unchosen.getBlock (h : Unchosen chain chain') : chain'.getBlock = chain.getBlock :=
  getBlock_congr h.blocks

/-- An accepted block that shares a hash shares the header. -/
theorem Chosen.headersStay {blocks : List Block} (htip : chain.Tip genesisBlock blocks)
    (hhashed : HeaderHashed crypto blocks) (hmem : block ∈ blocks) (h : Chosen chain block chain') :
    chain.HeadersStay chain' := by
  intro hash stored hstored
  rw [h.getBlock]
  by_cases heq : hash = block.hash
  · obtain ⟨hhash, hstoredMem⟩ := htip.named hash stored hstored
    exact ⟨block, if_pos heq, hhashed.header_eq hmem hstoredMem (heq ▸ hhash.symm)⟩
  · exact ⟨stored, (if_neg heq).trans hstored, rfl⟩

/-- An accepted block hangs below a stored one. -/
theorem Chosen.rooted {parent : Block} (hrooted : chain.Rooted genesisBlock.hash)
    (hstay : chain.HeadersStay chain') (hpasses : chain.Passes crypto block parent)
    (h : Chosen chain block chain') : chain'.Rooted genesisBlock.hash := by
  apply rooted_of_headers hrooted hstay
  intro hash stored hstored
  rw [h.getBlock] at hstored
  by_cases heq : hash = block.hash
  · rw [if_pos heq] at hstored
    obtain rfl := Option.some.inj hstored
    exact .inr ⟨parent, hpasses.stored, slot_lt_of_valid hpasses.valid⟩
  · rw [if_neg heq] at hstored
    exact .inl ⟨stored, hstored, rfl⟩

/-- The head after an accepted block: the block if it is better, else what it was. -/
theorem Chosen.getHead {head : Block} (h : Chosen chain block chain') (hstay : chain.HeadersStay chain')
    (hhead : chain.getHead = some head) :
    ∃ head', chain'.getHead = some head' ∧
      (Consensus.isBetterBlock block head = true ∧ head' = block ∨
        Consensus.isBetterBlock block head = false ∧ head'.header = head.header) := by
  obtain ⟨currentHead, hcurrent, hchoice, -⟩ := h.head
  obtain rfl := Option.some.inj (hhead.symm.trans hcurrent)
  unfold Chain.getHead at *
  rw [hchoice]
  cases hbetter : Consensus.isBetterBlock block head with
  | true =>
    rw [if_pos rfl]
    exact ⟨block, (h.getBlock block.hash).trans (if_pos rfl), .inl ⟨rfl, rfl⟩⟩
  | false =>
    rw [if_neg Bool.false_ne_true]
    obtain ⟨kept, hkept, hheader⟩ := hstay chain.head head hhead
    exact ⟨kept, hkept, .inr ⟨rfl, hheader⟩⟩

/-- The head after an accepted block is not of an earlier slot, and no stored block is better. -/
theorem Chosen.best {blocks : List Block} {head : Block} (htip : chain.Tip genesisBlock blocks)
    (hstay : chain.HeadersStay chain') (hhead : chain.getHead = some head)
    (h : Chosen chain block chain') :
    ∃ head', chain'.getHead = some head' ∧ head.header.slot ≤ head'.header.slot ∧
      ∀ hash stored, chain'.getBlock hash = some stored →
        Consensus.isBetterBlock stored head' = false := by
  obtain ⟨head', hhead', hchoice⟩ := h.getHead hstay hhead
  obtain ⟨best, hbest, hnone⟩ := htip.best
  obtain rfl := Option.some.inj (hhead.symm.trans hbest)
  refine ⟨head', hhead', ?_, fun hash stored hstored => ?_⟩
  · rcases hchoice with ⟨hbetter, rfl⟩ | ⟨-, hsame⟩
    · exact Consensus.slot_le_of_better hbetter
    · exact UInt64.le_of_eq (congrArg BlockHeader.slot hsame.symm)
  · rw [h.getBlock] at hstored
    by_cases heq : hash = block.hash
    · rw [if_pos heq] at hstored
      obtain rfl := Option.some.inj hstored
      rcases hchoice with ⟨-, rfl⟩ | ⟨hworse, hsame⟩
      · exact Consensus.not_isBetterBlock_of_header rfl
      · rw [Consensus.isBetterBlock_congr rfl hsame, hworse]
    · rw [if_neg heq] at hstored
      have hold := hnone hash stored hstored
      rcases hchoice with ⟨hbetter, rfl⟩ | ⟨-, hsame⟩
      · exact Consensus.not_isBetterBlock_of_better hold hbetter
      · rw [Consensus.isBetterBlock_congr rfl hsame, hold]

/-- The head did not go back to an earlier slot. -/
def HeightKept (chain chain' : Chain) : Prop :=
  ∃ height height', chain.getHeight = some height ∧ chain'.getHeight = some height' ∧ height ≤ height'

/-- An accepted block keeps the tip. -/
theorem Chosen.tip {blocks : List Block} {parent : Block} (htip : chain.Tip genesisBlock blocks)
    (hhashed : HeaderHashed crypto blocks) (hmem : block ∈ blocks)
    (hpasses : chain.Passes crypto block parent) (h : Chosen chain block chain') :
    chain'.Tip genesisBlock blocks ∧ chain.HeadersStay chain' ∧ chain.HeightKept chain' := by
  have hstay := h.headersStay htip hhashed hmem
  obtain ⟨head, hhead, -⟩ := htip.best
  obtain ⟨head', hhead', hslot, hnone⟩ := h.best htip hstay hhead
  refine ⟨⟨h.rooted htip.rooted hstay hpasses, ?_, ?_, head', hhead', hnone⟩, hstay,
    head.header.slot, head'.header.slot, ?_, ?_, hslot⟩
  · intro hash stored hstored
    rw [h.getBlock] at hstored
    by_cases heq : hash = block.hash
    · rw [if_pos heq] at hstored
      obtain rfl := Option.some.inj hstored
      exact ⟨heq.symm, hmem⟩
    · rw [if_neg heq] at hstored
      exact htip.named hash stored hstored
  · obtain ⟨currentHead, -, hchoice, hdisk⟩ := h.head
    rw [hchoice, hdisk, htip.persisted]
    split
    · rfl
    · rfl
  · rw [getHeight, hhead, Option.map_some]
  · rw [getHeight, hhead', Option.map_some]

/-- What leaves the head and the stored blocks alone keeps the tip. -/
theorem Unchosen.tip {blocks : List Block} (htip : chain.Tip genesisBlock blocks)
    (h : Unchosen chain chain') :
    chain'.Tip genesisBlock blocks ∧ chain.HeadersStay chain' ∧ chain.HeightKept chain' := by
  have hread := h.getBlock
  have hstay : chain.HeadersStay chain' := fun hash stored hstored =>
    ⟨stored, by rw [hread]; exact hstored, rfl⟩
  have hhead : chain'.getHead = chain.getHead := by
    change chain'.getBlock chain'.head = chain.getBlock chain.head
    rw [hread, h.head]
  obtain ⟨head, hbest, hnone⟩ := htip.best
  refine ⟨⟨rooted_of_headers htip.rooted hstay fun hash stored hstored => ?_, ?_, ?_, head, ?_, ?_⟩,
    hstay, head.header.slot, head.header.slot, ?_, ?_, UInt64.le_refl _⟩
  · exact .inl ⟨stored, hread ▸ hstored, rfl⟩
  · rw [hread]
    exact htip.named
  · rw [h.storedHead, h.head]
    exact htip.persisted
  · exact hhead.trans hbest
  · rw [hread]
    exact hnone
  · rw [getHeight, hbest, Option.map_some]
  · rw [getHeight, hhead, hbest, Option.map_some]

variable {request : Request} {output : Bool}

/-- A running node on a reliable database accepts a block that passes the checks, or leaves the head
and the stored blocks alone. -/
theorem chosen_or_unchosen_of_serve (hreliable : request.host.Reliable) (hrunning : request.Running)
    (h : serve crypto chain request = some (output, chain')) :
    (∃ block, request.delivered = some block ∧ output = true ∧
      (∃ parent, chain.Passes crypto block parent) ∧ Chosen chain block chain') ∨
      ((∀ block, request.delivered = some block → output = false) ∧ Unchosen chain chain') := by
  cases request with
  | deliver host block =>
    rcases chosen_or_unchosen hreliable (delivery_of_addBlock h) with
      ⟨haccepted, hpasses, hchosen⟩ | ⟨hrejected, hunchosen⟩
    · exact .inl ⟨block, rfl, haccepted, hpasses, hchosen⟩
    · exact .inr ⟨fun _ _ => hrejected, hunchosen⟩
  | vote host vote =>
    obtain ⟨votes, stored, finalizedHead, rfl⟩ := serve_vote_frame h
    exact .inr ⟨fun block hblock => absurd hblock (by simp [Request.delivered]), rfl, rfl, rfl, rfl⟩
  | reopen => exact hrunning.elim

/-- A running node keeps the tip. -/
theorem tip_of_serve {blocks : List Block} (hreliable : request.host.Reliable)
    (hrunning : request.Running) (hhashed : HeaderHashed crypto blocks)
    (hmem : ∀ block, request.delivered = some block → block ∈ blocks)
    (htip : chain.Tip genesisBlock blocks) (h : serve crypto chain request = some (output, chain')) :
    chain'.Tip genesisBlock blocks ∧ chain.HeadersStay chain' ∧ chain.HeightKept chain' := by
  rcases chosen_or_unchosen_of_serve hreliable hrunning h with
    ⟨block, hdelivered, -, ⟨parent, hpasses⟩, hchosen⟩ | ⟨-, hunchosen⟩
  · exact hchosen.tip htip hhashed (hmem block hdelivered) hpasses
  · exact hunchosen.tip htip

/-- A fresh node's tip is the genesis block. -/
theorem tip_of_start {storage : Storage} {balances stakes : List (Bytes × UInt64)} {blocks : List Block}
    (hblocks : storage.blocks = ∅) (hfresh : storage.head = none) (hmem : genesisBlock ∈ blocks)
    (hopened : Chain.start crypto host storage genesisBlock balances stakes = some chain) :
    chain.Tip genesisBlock blocks := by
  obtain ⟨hstored, -, hhead, -⟩ := start_on_fresh hblocks hfresh hopened
  refine ⟨rooted_of_genesis hstored, fun hash stored hfound => ?_, ?_, genesisBlock, ?_, ?_⟩
  · obtain ⟨rfl, rfl⟩ := eq_genesis_of_getBlock hstored hfound
    exact ⟨rfl, hmem⟩
  · obtain ⟨accounts, pendingChanges, trie, rfl⟩ := start_frame hopened
    change (storage.opened genesisBlock).head = some (storage.head.getD genesisBlock.hash)
    rw [Storage.opened, hfresh]
    rfl
  · change chain.getBlock chain.head = some genesisBlock
    rw [getBlock_of_genesis hstored, if_pos hhead]
  · intro hash stored hfound
    obtain ⟨-, rfl⟩ := eq_genesis_of_getBlock hstored hfound
    exact Consensus.not_isBetterBlock_of_header rfl

/-- The genesis block and the blocks that the calls deliver. -/
def blocksOf (genesisBlock : Block) (calls : List (Call Chain Request Bool)) : List Block :=
  genesisBlock :: calls.filterMap fun call => call.label.delivered

/-- A delivered block is one of them. -/
theorem mem_blocksOf {call : Call Chain Request Bool} (hcall : call ∈ calls)
    (hdelivered : call.label.delivered = some block) : block ∈ blocksOf genesisBlock calls :=
  List.mem_cons_of_mem _ (List.mem_filterMap.mpr ⟨call, hcall, hdelivered⟩)

/-- A run of a running node on reliable databases keeps the tip. -/
theorem tip_of_run {blocks : List Block} (hhashed : HeaderHashed crypto blocks)
    (htip : start.Tip genesisBlock blocks) (hrun : Run (serve crypto) start calls chain)
    (hreliable : ∀ call ∈ calls, call.label.host.Reliable)
    (hrunning : ∀ call ∈ calls, call.label.Running)
    (hmem : ∀ call ∈ calls, ∀ block, call.label.delivered = some block → block ∈ blocks) :
    chain.Tip genesisBlock blocks ∧ start.HeadersStay chain := by
  apply Run.invariant (fun s => s.Tip genesisBlock blocks ∧ start.HeadersStay s)
    (fun _ request => request.host.Reliable ∧ request.Running ∧
      ∀ block, request.delivered = some block → block ∈ blocks) ⟨htip, .refl start⟩ ?_ hrun
    fun call hcall => ⟨hreliable call hcall, hrunning call hcall, hmem call hcall⟩
  intro s request output s' ⟨hbefore, hstay⟩ ⟨hhost, hrequest, hdelivered⟩ hnext
  obtain ⟨hafter, hstep, -⟩ := tip_of_serve hhost hrequest hhashed hdelivered hbefore hnext
  exact ⟨hafter, hstay.trans hstep⟩

/-- Around every call of such a run the tip is kept, and the stored headers stay to its end. -/
theorem tip_around {blocks : List Block} (hhashed : HeaderHashed crypto blocks)
    (htip : start.Tip genesisBlock blocks) (hrun : Run (serve crypto) start calls chain)
    (hreliable : ∀ call ∈ calls, call.label.host.Reliable)
    (hrunning : ∀ call ∈ calls, call.label.Running)
    (hmem : ∀ call ∈ calls, ∀ block, call.label.delivered = some block → block ∈ blocks)
    {call : Call Chain Request Bool} (hcall : call ∈ calls) :
    call.pre.Tip genesisBlock blocks ∧ call.pre.HeightKept call.post ∧
      call.post.HeadersStay chain := by
  have hnext := hrun.next_of_mem hcall
  obtain ⟨before, after, rfl⟩ := List.append_of_mem hcall
  have hbefore : ∀ earlier ∈ before, earlier ∈ before ++ call :: after := fun earlier hearlier =>
    List.mem_append_left _ hearlier
  have hafter : ∀ later ∈ after, later ∈ before ++ call :: after := fun later hlater =>
    List.mem_append_right _ (List.mem_cons_of_mem _ hlater)
  obtain ⟨hpre, -⟩ := tip_of_run hhashed htip hrun.around.1
    (fun earlier hearlier => hreliable earlier (hbefore earlier hearlier))
    (fun earlier hearlier => hrunning earlier (hbefore earlier hearlier))
    fun earlier hearlier => hmem earlier (hbefore earlier hearlier)
  obtain ⟨hpost, -, hheight⟩ := tip_of_serve (hreliable call hcall) (hrunning call hcall) hhashed
    (hmem call hcall) hpre hnext
  obtain ⟨-, hstay⟩ := tip_of_run hhashed hpost hrun.around.2
    (fun later hlater => hreliable later (hafter later hlater))
    (fun later hlater => hrunning later (hafter later hlater))
    fun later hlater => hmem later (hafter later hlater)
  exact ⟨hpre, hheight, hstay⟩

/-- The header of an accepted block is stored to the end of the run. -/
theorem stored_of_accepted {blocks : List Block} (hhashed : HeaderHashed crypto blocks)
    (htip : start.Tip genesisBlock blocks) (hrun : Run (serve crypto) start calls chain)
    (hreliable : ∀ call ∈ calls, call.label.host.Reliable)
    (hrunning : ∀ call ∈ calls, call.label.Running)
    (hmem : ∀ call ∈ calls, ∀ block, call.label.delivered = some block → block ∈ blocks)
    (haccepted : AcceptedIn calls block) :
    ∃ kept, chain.getBlock block.hash = some kept ∧ kept.header = block.header := by
  obtain ⟨call, hcall, hdelivered, houtput⟩ := haccepted
  obtain ⟨-, -, hstay⟩ := tip_around hhashed htip hrun hreliable hrunning hmem hcall
  rcases chosen_or_unchosen_of_serve (hreliable call hcall) (hrunning call hcall)
    (hrun.next_of_mem hcall) with ⟨block', hdelivered', -, -, hchosen⟩ | ⟨hrejected, -⟩
  · obtain rfl := Option.some.inj (hdelivered.symm.trans hdelivered')
    exact hstay block.hash block ((hchosen.getBlock block.hash).trans (if_pos rfl))
  · rw [hrejected block hdelivered] at houtput
    contradiction

/-- The fork choice of a node after a run: the head is on disk and names a stored block that no
accepted block is better than, the height never fell, and from every stored block the parent links
lead to the genesis block over falling slots. -/
structure ForkChoice (genesisBlock : Block) (calls : List (Call Chain Request Bool)) (chain : Chain) :
    Prop where
  head : ∃ head, chain.storage.head = some chain.head ∧ chain.getHead = some head ∧
    ∀ block, AcceptedIn calls block → Consensus.isBetterBlock block head = false
  height : ∀ call ∈ calls, call.pre.HeightKept call.post
  ancestry : ∀ hash stored, chain.getBlock hash = some stored → ∃ root path,
    chain.getBlock genesisBlock.hash = some root ∧ root.header = genesisBlock.header ∧
      ParentTree.Path genesisBlock.hash Block.parentHash chain.getBlock genesisBlock.hash hash path ∧
      ((root :: path).map fun block => block.header.slot).Pairwise (· < ·)

/-- Slots rise along the path from the genesis block to a stored one. -/
theorem Tip.ancestry {blocks : List Block} {hash : String} {stored : Block}
    (hhashed : HeaderHashed crypto blocks) (hmem : genesisBlock ∈ blocks)
    (htip : chain.Tip genesisBlock blocks) (hstored : chain.getBlock hash = some stored) :
    ∃ root path, chain.getBlock genesisBlock.hash = some root ∧ root.header = genesisBlock.header ∧
      ParentTree.Path genesisBlock.hash Block.parentHash chain.getBlock genesisBlock.hash hash path ∧
      ((root :: path).map fun block => block.header.slot).Pairwise (· < ·) := by
  obtain ⟨root, hroot⟩ := Option.isSome_iff_exists.mp htip.rooted.root
  obtain ⟨path, hpath⟩ := htip.rooted.descends hstored
  obtain ⟨hhash, hrootMem⟩ := htip.named _ _ hroot
  obtain ⟨habove, hrise⟩ := hpath.ranks htip.rooted.grounded
    fun _ _ hnode => (slotOf_eq hnode).symm
  refine ⟨root, path, hroot, hhashed.header_eq hrootMem hmem hhash, hpath, ?_⟩
  rw [List.map_cons, List.pairwise_cons]
  constructor
  · intro slot hslot
    obtain ⟨above, habovePath, rfl⟩ := List.mem_map.mp hslot
    have hlt := (habove above habovePath).1
    rw [slotOf_eq hroot] at hlt
    exact UInt64.lt_iff_toNat_lt.mpr hlt
  · rw [List.pairwise_map] at hrise ⊢
    exact hrise.imp fun hlt => UInt64.lt_iff_toNat_lt.mpr hlt

/-- In every run of a node from a fresh database, over deliveries of any blocks that carry the hashes
of their headers, in any order and any number of times, the fork choice stays sound. -/
theorem forkChoice_of_run {storage : Storage} {balances stakes : List (Bytes × UInt64)} {opened : Chain}
    (hblocks : storage.blocks = ∅) (hfresh : storage.head = none)
    (hopened : Chain.start crypto host storage genesisBlock balances stakes = some opened)
    (hrun : Run (serve crypto) opened calls chain)
    (hreliable : ∀ call ∈ calls, call.label.host.Reliable)
    (hrunning : ∀ call ∈ calls, call.label.Running)
    (hhashed : HeaderHashed crypto (blocksOf genesisBlock calls)) :
    ForkChoice genesisBlock calls chain := by
  have hgenesis : genesisBlock ∈ blocksOf genesisBlock calls := List.mem_cons_self
  have hmem : ∀ call ∈ calls, ∀ block, call.label.delivered = some block →
      block ∈ blocksOf genesisBlock calls := fun call hcall block hdelivered =>
    mem_blocksOf hcall hdelivered
  have hstart := tip_of_start hblocks hfresh hgenesis hopened
  obtain ⟨htip, -⟩ := tip_of_run hhashed hstart hrun hreliable hrunning hmem
  obtain ⟨head, hhead, hnone⟩ := htip.best
  refine ⟨⟨head, htip.persisted, hhead, fun block haccepted => ?_⟩, fun call hcall => ?_, ?_⟩
  · obtain ⟨kept, hkept, hheader⟩ :=
      stored_of_accepted hhashed hstart hrun hreliable hrunning hmem haccepted
    rw [← Consensus.isBetterBlock_congr hheader rfl]
    exact hnone _ kept hkept
  · exact (tip_around hhashed hstart hrun hreliable hrunning hmem hcall).2.1
  · intro hash stored hstored
    exact htip.ancestry hhashed hgenesis hstored

/-- A chain of two blocks, a late block on a fork, a block again, and a block without its parent. -/
def lateForkRequests : List Request :=
  let first := Sample.block Sample.genesis 1 []
  let orphan := Sample.block (Sample.block first 4 []) 5 []
  [.deliver Host.plain first, .deliver Host.plain (Sample.block first 3 []),
    .deliver Host.plain (Sample.block Sample.genesis 2 []), .deliver Host.plain first,
    .deliver Host.plain orphan]

/-- Calls that answer deliveries are those of a running node. -/
theorem running_of_labels {requests : List Request} (hlabels : calls.map Call.label = requests)
    (hdelivers : ∀ request ∈ requests, request.delivered.isSome) :
    ∀ call ∈ calls, call.label.Running := by
  intro call hcall
  have hmem : call.label ∈ requests := hlabels ▸ List.mem_map_of_mem hcall
  have hdelivered := hdelivers _ hmem
  cases hrequest : call.label with
  | deliver => trivial
  | vote => trivial
  | reopen =>
    rw [hrequest] at hdelivered
    exact absurd hdelivered Bool.false_ne_true

/-- All but the last are accepted, and the fork choice is sound. -/
theorem forkChoice_of_lateFork :
    ∃ opened calls chain, Sample.start = some opened ∧ Run (serve Crypto.plain) opened calls chain ∧
      calls.map Call.label = lateForkRequests ∧
      calls.map Call.output = [true, true, true, true, false] ∧
      ForkChoice Sample.genesis calls chain := by
  obtain ⟨opened, calls, chain, hstart, hrun, hlabels, hcheck⟩ := Run.exists_of_trace_from
    (serve Crypto.plain) Sample.start lateForkRequests
    (fun _ calls _ => decide (calls.map Call.output = [true, true, true, true, false] ∧
      HeaderHashed Crypto.plain (blocksOf Sample.genesis calls)))
    (by decide +kernel)
  obtain ⟨houtputs, hhashed⟩ := of_decide_eq_true hcheck
  have hreliable := Sample.reliable_of_labels hlabels (by simp [lateForkRequests, Request.host])
  have hrunning := running_of_labels hlabels (by simp [lateForkRequests, Request.delivered])
  exact ⟨opened, calls, chain, hstart, hrun, hlabels, houtputs,
    forkChoice_of_run rfl rfl hstart hrun hreliable hrunning hhashed⟩

end Chain

end Nocostcoin
