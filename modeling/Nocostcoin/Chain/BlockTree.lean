import Nocostcoin.Library.ParentTree
import Nocostcoin.Library.Execution
import Nocostcoin.Chain.Acceptance
import Nocostcoin.Chain.Opening

/-!
# The tree of stored blocks

The stored blocks hang together by their parent hashes, with the genesis block as the root. As long
as no delivered block takes the hash of another stored one, the tree only grows: whatever a database
answers, every stored block keeps its place, and slots rise along every branch.
-/

namespace Nocostcoin

open Execution

variable {crypto : Crypto}

namespace Chain

variable {host : Host} {chain chain' : Chain} {block : Block} {accepted : Bool}

/-- The slot of a stored block. -/
def slotOf (chain : Chain) (hash : String) : ℕ :=
  ((chain.getBlock hash).map fun block => block.header.slot.toNat).getD 0

/-- One stored block is, or descends from, another. -/
def Descends (genesisHash : String) (chain : Chain) (ancestor hash : String) : Prop :=
  ParentTree.Descends genesisHash Block.parentHash chain.getBlock ancestor hash

/-- The genesis block is stored, and every other stored block has a stored parent of an earlier
slot. -/
structure Rooted (genesisHash : String) (chain : Chain) : Prop where
  root : (chain.getBlock genesisHash).isSome
  grounded : ParentTree.Grounded genesisHash Block.parentHash chain.getBlock chain.slotOf

/-- Every stored block is still stored. -/
def Grows (chain chain' : Chain) : Prop :=
  ∀ hash block, chain.getBlock hash = some block → chain'.getBlock hash = some block

/-- A delivered block that passes the checks does not take the hash of another stored block. -/
def KeepsBlocks (crypto : Crypto) (chain : Chain) (request : Request) : Prop :=
  ∀ host block parent, request = .deliver host block → chain.Passes crypto block parent →
    ∀ other, chain.getBlock block.hash = some other → other = block

theorem Grows.refl (chain : Chain) : chain.Grows chain := fun _ _ h => h

theorem Grows.trans {a b c : Chain} (hab : a.Grows b) (hbc : b.Grows c) : a.Grows c :=
  fun hash block h => hbc hash block (hab hash block h)

/-- A delivery stores a block that passes the checks or leaves the stored blocks alone. -/
theorem blocks_of_delivery (h : Delivery crypto host chain block accepted chain') :
    (chain'.storage.blocks = chain.storage.blocks ∨
      (∃ parent, chain.Passes crypto block parent) ∧
        chain'.storage.blocks = chain.storage.blocks.insert block.hash block) ∧
      chain'.votes = chain.votes ∧ chain'.finalizedHead = chain.finalizedHead := by
  obtain ⟨seenHeaders, headers, hrecord⟩ := recordHeader_frame host chain block
  cases h with
  | orphan => exact ⟨.inl rfl, rfl, rfl⟩
  | equivocation => exact ⟨.inl rfl, rfl, rfl⟩
  | invalid =>
    rw [hrecord]
    exact ⟨.inl rfl, rfl, rfl⟩
  | failed _ _ _ hexec | mismatch _ _ _ hexec _ =>
    have hreject := rejection_of_execution hexec
    exact ⟨.inl hreject.blocks, hreject.finality⟩
  | @commit parent state _ _ hparent hconsistent hvalid hexec hroot hcommit =>
    have hpasses := passes_of_commit hparent hconsistent hvalid hexec hroot
    obtain ⟨headers', hstorage⟩ := storage_of_execution_frame hexec
    obtain ⟨-, -, hvotes, hfinalized, hblocks, -⟩ := commitBlock_frame hcommit
    rw [hrecord] at hvotes hfinalized
    have hbefore : ((chain.recordHeader host block).withState state).storage.blocks =
        chain.storage.blocks := by
      change state.storage.blocks = _
      rw [hstorage]
      rfl
    rw [hbefore] at hblocks
    exact ⟨hblocks.imp_right fun hstored => ⟨⟨_, hpasses⟩, hstored⟩, hvotes, hfinalized⟩

/-- A valid block has a later slot than its parent. -/
theorem slot_lt_of_valid {parent : Block} {validators : ValidatorSet}
    (h : Consensus.validateBlock crypto block parent validators = .ok ()) :
    parent.header.slot < block.header.slot := by
  unfold Consensus.validateBlock at h
  split at h
  · simp at h
  · split at h
    · simp at h
    · rename_i hslot
      exact UInt64.not_le.mp hslot

/-- The request is a delivery or a vote, not a restart. -/
def Request.Running : Request → Prop
  | .deliver _ _ | .vote _ _ => True
  | .reopen _ _ _ _ => False

variable {request : Request} {output : Bool}

/-- A running node stores at most a delivered block that passes the checks. -/
theorem blocks_of_running (hrunning : request.Running)
    (h : serve crypto chain request = some (output, chain')) :
    chain'.storage.blocks = chain.storage.blocks ∨
      ∃ host block parent, request = .deliver host block ∧ chain.Passes crypto block parent ∧
        chain'.storage.blocks = chain.storage.blocks.insert block.hash block := by
  cases request with
  | deliver host block =>
    apply (blocks_of_delivery (delivery_of_addBlock h)).1.imp_right
    rintro ⟨⟨parent, hpasses⟩, hblocks⟩
    exact ⟨host, block, parent, rfl, hpasses, hblocks⟩
  | vote host vote =>
    obtain ⟨votes, stored, finalizedHead, rfl⟩ := serve_vote_frame h
    exact .inl rfl
  | reopen => exact hrunning.elim

/-- Equal stored blocks are read alike. -/
theorem getBlock_congr (h : chain'.storage.blocks = chain.storage.blocks) :
    chain'.getBlock = chain.getBlock := by
  funext hash
  unfold getBlock Storage.getBlock
  rw [h]

/-- A running node keeps its stored blocks, if the delivered ones do. -/
theorem grows_of_serve (hrunning : request.Running) (hkeeps : chain.KeepsBlocks crypto request)
    (h : serve crypto chain request = some (output, chain')) : chain.Grows chain' := by
  intro hash stored hstored
  rcases blocks_of_running hrunning h with hsame | ⟨host, block, parent, hrequest, hpasses, hblocks⟩
  · rwa [getBlock_congr hsame]
  · unfold getBlock Storage.getBlock at *
    rw [hblocks, FiniteMap.lookup_insert_ite]
    split
    · rename_i heq
      rw [heq] at hstored
      rw [hkeeps host block parent hrequest hpasses stored hstored]
    · exact hstored

theorem slotOf_eq {hash : String} (h : chain.getBlock hash = some block) :
    chain.slotOf hash = block.header.slot.toNat := by
  rw [slotOf, h, Option.map_some, Option.getD_some]

/-- A known node of a rooted tree is a stored block. -/
theorem Rooted.stored {genesisHash hash : String} (hrooted : chain.Rooted genesisHash)
    (hknown : ParentTree.Known genesisHash chain.getBlock hash) :
    ∃ block, chain.getBlock hash = some block := by
  rcases hknown with rfl | hsome
  · exact Option.isSome_iff_exists.mp hrooted.root
  · exact Option.isSome_iff_exists.mp hsome

/-- Every stored block descends from the genesis block. -/
theorem Rooted.descends {genesisHash hash : String} (hrooted : chain.Rooted genesisHash)
    (hstored : chain.getBlock hash = some block) : chain.Descends genesisHash genesisHash hash :=
  ParentTree.exists_path hrooted.grounded (.inr (Option.isSome_iff_exists.mpr ⟨block, hstored⟩))

/-- The growth of the tree gives no stored block new ancestors. -/
theorem Descends.of_grows {genesisHash ancestor hash : String} (hrooted : chain.Rooted genesisHash)
    (hgrows : chain.Grows chain') (hstored : chain.getBlock hash = some block)
    (h : chain'.Descends genesisHash ancestor hash) : chain.Descends genesisHash ancestor hash := by
  obtain ⟨path, hpath⟩ := h
  exact ⟨path, hpath.shrink hrooted.grounded hgrows
    (.inr (Option.isSome_iff_exists.mpr ⟨block, hstored⟩))⟩

/-- Descent stays when the tree grows. -/
theorem Descends.grow {genesisHash ancestor hash : String} (hgrows : chain.Grows chain')
    (h : chain.Descends genesisHash ancestor hash) : chain'.Descends genesisHash ancestor hash := by
  obtain ⟨path, hpath⟩ := h
  exact ⟨path, hpath.grow hgrows⟩

/-- A tree stays rooted when the stored headers stay and a new block comes after a stored parent. -/
theorem rooted_of_headers {genesisHash : String} (hrooted : chain.Rooted genesisHash)
    (hkept : ∀ hash stored, chain.getBlock hash = some stored →
      ∃ kept, chain'.getBlock hash = some kept ∧ kept.header = stored.header)
    (hnew : ∀ hash stored, chain'.getBlock hash = some stored →
      (∃ old, chain.getBlock hash = some old ∧ old.header = stored.header) ∨
        ∃ parent, chain.getBlock stored.parentHash = some parent ∧
          parent.header.slot < stored.header.slot) : chain'.Rooted genesisHash := by
  obtain ⟨genesis, hgenesis⟩ := Option.isSome_iff_exists.mp hrooted.root
  obtain ⟨root, hroot, -⟩ := hkept _ _ hgenesis
  refine ⟨Option.isSome_iff_exists.mpr ⟨root, hroot⟩, fun hash stored hne hstored => ?_⟩
  rw [slotOf_eq hstored]
  rcases hnew hash stored hstored with ⟨old, hold, hheader⟩ | ⟨parent, hparent, hslot⟩
  · -- a block that was there before has the parent it had
    obtain ⟨hknown, hlt⟩ := hrooted.grounded hash old hne hold
    obtain ⟨parent, hparent⟩ := hrooted.stored hknown
    obtain ⟨parent', hparent', hsame⟩ := hkept _ _ hparent
    have hlink : old.parentHash = stored.parentHash := congrArg BlockHeader.parentHash hheader
    rw [slotOf_eq hparent, slotOf_eq hold, hheader, ← hsame] at hlt
    rw [hlink] at hparent'
    rw [slotOf_eq hparent']
    exact ⟨.inr (Option.isSome_iff_exists.mpr ⟨parent', hparent'⟩), hlt⟩
  · obtain ⟨parent', hparent', hsame⟩ := hkept _ _ hparent
    rw [slotOf_eq hparent', hsame]
    exact ⟨.inr (Option.isSome_iff_exists.mpr ⟨parent', hparent'⟩), UInt64.lt_iff_toNat_lt.mp hslot⟩

/-- The tree stays rooted. -/
theorem rooted_of_serve {genesisHash : String} (hrooted : chain.Rooted genesisHash)
    (hrunning : request.Running) (hkeeps : chain.KeepsBlocks crypto request)
    (h : serve crypto chain request = some (output, chain')) : chain'.Rooted genesisHash := by
  have hgrows := grows_of_serve hrunning hkeeps h
  apply rooted_of_headers hrooted fun hash stored hstored => ⟨stored, hgrows hash stored hstored, rfl⟩
  intro hash stored hstored
  rcases blocks_of_running hrunning h with hsame | ⟨host, block, parent, -, hpasses, hblocks⟩
  · exact .inl ⟨stored, getBlock_congr hsame ▸ hstored, rfl⟩
  · unfold getBlock Storage.getBlock at hstored
    rw [hblocks, FiniteMap.lookup_insert_ite] at hstored
    split at hstored
    · obtain rfl := Option.some.inj hstored
      exact .inr ⟨parent, hpasses.stored, slot_lt_of_valid hpasses.valid⟩
    · exact .inl ⟨stored, hstored, rfl⟩

variable {start : Chain} {calls : List (Call Chain Request Bool)}

/-- Over a whole run of a node the tree of its blocks stays rooted and grows. -/
theorem tree_of_run {genesisHash : String} (hrooted : start.Rooted genesisHash)
    (hrun : Run (serve crypto) start calls chain) (hrunning : ∀ call ∈ calls, call.label.Running)
    (hkeeps : ∀ call ∈ calls, call.pre.KeepsBlocks crypto call.label) :
    chain.Rooted genesisHash ∧ start.Grows chain := by
  refine Run.invariant (fun s => s.Rooted genesisHash ∧ start.Grows s)
    (fun s request => request.Running ∧ s.KeepsBlocks crypto request) ⟨hrooted, .refl start⟩ ?_ hrun
    fun call hcall => ⟨hrunning call hcall, hkeeps call hcall⟩
  rintro s request output s' ⟨hrooted, hgrows⟩ ⟨hrunning, hkeeps⟩ hnext
  exact ⟨rooted_of_serve hrooted hrunning hkeeps hnext,
    hgrows.trans (grows_of_serve hrunning hkeeps hnext)⟩

/-- Around every call of a run the tree is rooted, and it grows from there to the end of the run. -/
theorem tree_around {genesisHash : String} (hrooted : start.Rooted genesisHash)
    (hrun : Run (serve crypto) start calls chain) (hrunning : ∀ call ∈ calls, call.label.Running)
    (hkeeps : ∀ call ∈ calls, call.pre.KeepsBlocks crypto call.label)
    {call : Call Chain Request Bool} (hcall : call ∈ calls) :
    call.pre.Rooted genesisHash ∧ call.post.Rooted genesisHash ∧ call.pre.Grows call.post ∧
      call.post.Grows chain := by
  have hnext := hrun.next_of_mem hcall
  obtain ⟨before, after, rfl⟩ := List.append_of_mem hcall
  obtain ⟨hpre, -⟩ := tree_of_run hrooted hrun.around.1
    (fun earlier hearlier => hrunning earlier (List.mem_append_left _ hearlier))
    fun earlier hearlier => hkeeps earlier (List.mem_append_left _ hearlier)
  have hpost := rooted_of_serve hpre (hrunning call hcall) (hkeeps call hcall) hnext
  have hafter : ∀ later ∈ after, later ∈ before ++ call :: after := fun later hlater =>
    List.mem_append_right _ (List.mem_cons_of_mem _ hlater)
  obtain ⟨-, hgrows⟩ := tree_of_run hpost hrun.around.2
    (fun later hlater => hrunning later (hafter later hlater))
    fun later hlater => hkeeps later (hafter later hlater)
  exact ⟨hpre, hpost, grows_of_serve (hrunning call hcall) (hkeeps call hcall) hnext, hgrows⟩

/-- A node set up on a database without blocks stores the genesis block and nothing else, has it
finalized and has no votes. -/
theorem start_on_fresh {storage : Storage} {genesisBlock : Block}
    {balances stakes : List (Bytes × UInt64)} (hblocks : storage.blocks = ∅)
    (hfresh : storage.head = none)
    (h : Chain.start crypto host storage genesisBlock balances stakes = some chain) :
    chain.storage.blocks = (∅ : FiniteMap String Block).insert genesisBlock.hash genesisBlock ∧
      chain.votes = ∅ ∧ chain.head = genesisBlock.hash ∧ chain.finalizedHead = genesisBlock.hash := by
  obtain ⟨accounts, pendingChanges, trie, rfl⟩ := start_frame h
  refine ⟨?_, rfl, ?_, ?_⟩
  · change (storage.opened genesisBlock).blocks = _
    rw [Storage.opened, hfresh, ← hblocks]
  · change storage.head.getD genesisBlock.hash = _
    rw [hfresh, Option.getD_none]
  · change storage.head.getD genesisBlock.hash = _
    rw [hfresh, Option.getD_none]

/-- Reading a block where the genesis block is the only one. -/
theorem getBlock_of_genesis {genesisBlock : Block} (hblocks : chain.storage.blocks =
    (∅ : FiniteMap String Block).insert genesisBlock.hash genesisBlock) (hash : String) :
    chain.getBlock hash = if hash = genesisBlock.hash then some genesisBlock else none := by
  unfold getBlock Storage.getBlock
  rw [hblocks, FiniteMap.lookup_insert_ite]
  rfl

/-- What is found there is the genesis block. -/
theorem eq_genesis_of_getBlock {genesisBlock : Block} (hblocks : chain.storage.blocks =
    (∅ : FiniteMap String Block).insert genesisBlock.hash genesisBlock) {hash : String} {stored : Block}
    (hstored : chain.getBlock hash = some stored) : hash = genesisBlock.hash ∧ stored = genesisBlock := by
  rw [getBlock_of_genesis hblocks] at hstored
  split at hstored
  · rename_i heq
    exact ⟨heq, (Option.some.inj hstored).symm⟩
  · contradiction

/-- The tree of a genesis block alone is rooted. -/
theorem rooted_of_genesis {genesisBlock : Block} (hblocks : chain.storage.blocks =
    (∅ : FiniteMap String Block).insert genesisBlock.hash genesisBlock) :
    chain.Rooted genesisBlock.hash := by
  refine ⟨by rw [getBlock_of_genesis hblocks, if_pos rfl]; rfl, fun hash stored hroot hstored => ?_⟩
  exact absurd (eq_genesis_of_getBlock hblocks hstored).1 hroot

end Chain

end Nocostcoin
