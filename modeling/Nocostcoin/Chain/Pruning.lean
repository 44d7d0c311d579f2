import Mathlib.Algebra.Group.Nat.Defs
import Mathlib.Logic.Relation
import Nocostcoin.Chain.Crash
import Nocostcoin.Chain.HeightIndex

/-!
# What pruning removes

Every entry of the height index names a stored block of its slot, in any run of deliveries, restarts and
prunings. So the blocks that a pruning finds by height are as old as their heights say, no two heights
find the same block, and none of them finds the genesis block, which has no entry.
-/

namespace Nocostcoin

open Execution

namespace Storage

variable {storage pruned : Storage} {eraser : Eraser} {hash chainHeadHash : String} {height : UInt64}

/-- Reading the index after an entry was deleted. -/
theorem getBlockByHeight_erase (storage : Storage) (height slot : UInt64) :
    (storage.erase (.height height)).getBlockByHeight slot =
      if slot = height then none else storage.getBlockByHeight slot := by
  unfold getBlockByHeight erase
  by_cases hslot : slot = height
  · rw [if_pos hslot, hslot]
    exact Finmap.lookup_erase ..
  · rw [if_neg hslot]
    exact Finmap.lookup_erase_ne hslot

/-- Reading a block after one was deleted. -/
theorem getBlock_erase (storage : Storage) (hash other : String) :
    (storage.erase (.block hash)).getBlock other = if other = hash then none else storage.getBlock other := by
  unfold getBlock erase
  by_cases hother : other = hash
  · rw [if_pos hother, hother]
    exact Finmap.lookup_erase ..
  · rw [if_neg hother]
    exact Finmap.lookup_erase_ne hother

/-- What the loop of a pruning deletes at one height: the entry, and the block it names or not. -/
inductive Erasure (storage : Storage) : Storage → Prop
  | entry {height : UInt64} {hash : String} (hentry : storage.getBlockByHeight height = some hash) :
      Erasure storage (storage.erase (.height height))
  | both {height : UInt64} {hash : String} (hentry : storage.getBlockByHeight height = some hash) :
      Erasure storage ((storage.erase (.height height)).erase (.block hash))

/-- A pruning, whether a deletion was refused or not, is a sequence of such deletions. -/
theorem erasures_pruneHeights (eraser : Eraser) (chainHeadHash : String) (remaining : ℕ)
    (height deletedCount : UInt64) (storage : Storage) :
    Relation.ReflTransGen Erasure storage
      (pruneHeights eraser chainHeadHash remaining height deletedCount storage).2 := by
  induction remaining generalizing height deletedCount storage with
  | zero => exact .refl
  | succ remaining ih =>
    rw [pruneHeights]
    split
    · exact ih ..
    · rename_i hash hentry
      split
      · exact .refl
      · dsimp only
        split
        · exact .head (.entry hentry) (ih ..)
        · unfold deleteBlock
          cases eraser (.block hash) with
          | none => exact .head (.both hentry) (ih ..)
          | some error => exact .single (.entry hentry)

/-- Some height of a range names the block. -/
def NamedBetween (storage : Storage) (low high : ℕ) (hash : String) : Prop :=
  ∃ slot : UInt64, low ≤ slot.toNat ∧ slot.toNat < high ∧ storage.getBlockByHeight slot = some hash

/-- What a pruning of a range of heights leaves: the index without the range, the blocks without those
named there, and everything else. -/
structure Cleared (storage : Storage) (low high removed : ℕ) (pruned : Storage) : Prop where
  frame : ∃ blocks heights, pruned = { storage with blocks, heights }
  inside : ∀ slot : UInt64, low ≤ slot.toNat → slot.toNat < high → pruned.getBlockByHeight slot = none
  outside : ∀ slot : UInt64, ¬ (low ≤ slot.toNat ∧ slot.toNat < high) →
    pruned.getBlockByHeight slot = storage.getBlockByHeight slot
  gone : ∀ hash, storage.NamedBetween low high hash → pruned.getBlock hash = none
  kept : ∀ hash, ¬ storage.NamedBetween low high hash → pruned.getBlock hash = storage.getBlock hash
  count : pruned.blocks.keys.card + removed = storage.blocks.keys.card

/-- An empty range is cleared already. -/
theorem cleared_refl (storage : Storage) (low : ℕ) : storage.Cleared low low 0 storage where
  frame := ⟨storage.blocks, storage.heights, rfl⟩
  inside slot hlow hhigh := absurd hhigh (Nat.not_lt.mpr hlow)
  outside _ _ := rfl
  gone hash hnamed := by
    obtain ⟨slot, hlow, hhigh, -⟩ := hnamed
    exact absurd hhigh (Nat.not_lt.mpr hlow)
  kept _ _ := rfl
  count := rfl

variable {high removed : ℕ}

/-- A height without an entry is cleared already. -/
theorem Cleared.skip (hnone : storage.getBlockByHeight height = none)
    (h : storage.Cleared (height.toNat + 1) high removed pruned) :
    storage.Cleared height.toNat high removed pruned := by
  have hother : ∀ slot : UInt64, slot ≠ height → height.toNat ≤ slot.toNat →
      height.toNat + 1 ≤ slot.toNat := by
    intro slot hne hle
    exact Nat.lt_of_le_of_ne hle fun heq => hne (UInt64.toNat_inj.mp heq).symm
  have hnamed : ∀ hash, storage.NamedBetween height.toNat high hash →
      storage.NamedBetween (height.toNat + 1) high hash := by
    rintro hash ⟨slot, hlow, hhigh, hentry⟩
    have hne : slot ≠ height := by
      rintro rfl
      rw [hnone] at hentry
      contradiction
    exact ⟨slot, hother slot hne hlow, hhigh, hentry⟩
  refine ⟨h.frame, fun slot hlow hhigh => ?_, fun slot hout => h.outside slot (by omega),
    fun hash hin => h.gone hash (hnamed hash hin), fun hash hout => h.kept hash ?_, h.count⟩
  · by_cases hslot : slot = height
    · rw [h.outside slot (by rw [hslot]; omega), hslot, hnone]
    · exact h.inside slot (hother slot hslot hlow) hhigh
  · rintro ⟨slot, hlow, hhigh, hentry⟩
    exact hout ⟨slot, by omega, hhigh, hentry⟩

/-- Every entry of the index names a stored block of its slot. -/
def NamesStored (storage : Storage) : Prop :=
  ∀ slot hash, storage.getBlockByHeight slot = some hash →
    ∃ stored, storage.getBlock hash = some stored ∧ stored.header.slot = slot

/-- No two heights name the same block. -/
theorem NamesStored.slot_eq (h : storage.NamesStored) {slot slot' : UInt64}
    (hentry : storage.getBlockByHeight slot = some hash)
    (hentry' : storage.getBlockByHeight slot' = some hash) : slot = slot' := by
  obtain ⟨stored, hstored, rfl⟩ := h slot hash hentry
  obtain ⟨stored', hstored', rfl⟩ := h slot' hash hentry'
  rw [Option.some.inj (hstored.symm.trans hstored')]

/-- A deletion keeps it so. -/
theorem NamesStored.erasure (h : storage.NamesStored) (herasure : storage.Erasure pruned) :
    pruned.NamesStored := by
  intro slot found hfound
  cases herasure with
  | @entry height hash hentry =>
    rw [getBlockByHeight_erase] at hfound
    split at hfound
    · contradiction
    · exact h slot found hfound
  | @both height hash hentry =>
    change (storage.erase (.height height)).getBlockByHeight slot = some found at hfound
    rw [getBlockByHeight_erase] at hfound
    split at hfound
    · contradiction
    · rename_i hslot
      have hne : found ≠ hash := by
        rintro rfl
        exact hslot (h.slot_eq hfound hentry)
      rw [getBlock_erase, if_neg hne]
      exact h slot found hfound

/-- A height with an entry is cleared by deleting it and its block. -/
theorem Cleared.drop (hnames : storage.NamesStored) (hentry : storage.getBlockByHeight height = some hash)
    (hhigh : height.toNat < high)
    (h : ((storage.erase (.height height)).erase (.block hash)).Cleared (height.toNat + 1) high removed pruned) :
    storage.Cleared height.toNat high (removed + 1) pruned := by
  have hread : ∀ slot, ((storage.erase (.height height)).erase (.block hash)).getBlockByHeight slot =
      if slot = height then none else storage.getBlockByHeight slot :=
    storage.getBlockByHeight_erase height
  have hother : ∀ slot : UInt64, slot ≠ height → height.toNat ≤ slot.toNat →
      height.toNat + 1 ≤ slot.toNat := by
    intro slot hne hle
    exact Nat.lt_of_le_of_ne hle fun heq => hne (UInt64.toNat_inj.mp heq).symm
  obtain ⟨blocks, heights, hframe⟩ := h.frame
  refine ⟨⟨blocks, heights, hframe⟩, fun slot hlow hbelow => ?_, fun slot hout => ?_,
    fun found hin => ?_, fun found hout => ?_, ?_⟩
  · by_cases hslot : slot = height
    · rw [h.outside slot (by rw [hslot]; omega), hread, if_pos hslot]
    · exact h.inside slot (hother slot hslot hlow) hbelow
  · have hslot : slot ≠ height := by
      rintro rfl
      exact hout ⟨le_rfl, hhigh⟩
    rw [h.outside slot (by omega), hread, if_neg hslot]
  · obtain ⟨slot, hlow, hbelow, hfound⟩ := hin
    by_cases hslot : slot = height
    · -- this height's own block, which no later height names
      rw [hslot, hentry] at hfound
      obtain rfl := Option.some.inj hfound
      rw [h.kept, getBlock_erase, if_pos rfl]
      rintro ⟨slot', hlow', -, hentry'⟩
      rw [hread] at hentry'
      split at hentry'
      · contradiction
      · rename_i hne
        exact hne (hnames.slot_eq hentry' hentry)
    · exact h.gone found ⟨slot, hother slot hslot hlow, hbelow, by rw [hread, if_neg hslot, hfound]⟩
  · have hne : found ≠ hash := by
      rintro rfl
      exact hout ⟨height, le_rfl, hhigh, hentry⟩
    rw [h.kept, getBlock_erase, if_neg hne]
    · rfl
    · rintro ⟨slot, hlow, hbelow, hfound⟩
      rw [hread] at hfound
      split at hfound
      · contradiction
      · exact hout ⟨slot, by omega, hbelow, hfound⟩
  · obtain ⟨stored, hstored, -⟩ := hnames height hash hentry
    have hmem : hash ∈ storage.blocks.keys :=
      Finmap.mem_keys.mpr (Finmap.mem_of_lookup_eq_some hstored)
    have hcard : ((storage.erase (.height height)).erase (.block hash)).blocks.keys.card + 1 =
        storage.blocks.keys.card := by
      change (storage.blocks.erase hash).keys.card + 1 = _
      rw [Finmap.keys_erase]
      exact Finset.card_erase_add_one hmem
    have hcount := h.count
    omega

/-- When no deletion is refused, the loop clears its heights and counts the blocks it deletes, unless it
meets the head block. -/
theorem pruneHeights_cleared (hreliable : ∀ deletion, eraser deletion = none) (hnames : storage.NamesStored)
    (remaining : ℕ) (deletedCount : UInt64) (hbound : height.toNat + remaining < 2 ^ 64)
    (hhead : ¬ storage.NamedBetween height.toNat (height.toNat + remaining) chainHeadHash) :
    ∃ removed pruned,
      pruneHeights eraser chainHeadHash remaining height deletedCount storage =
        (.ok (deletedCount + UInt64.ofNat removed), pruned) ∧
      removed ≤ remaining ∧
      storage.Cleared height.toNat (height.toNat + remaining) removed pruned := by
  induction remaining generalizing height deletedCount storage with
  | zero => exact ⟨0, storage, by rw [pruneHeights]; simp, le_rfl, storage.cleared_refl _⟩
  | succ remaining ih =>
    have hnext : (height + 1).toNat = height.toNat + 1 := by
      rw [UInt64.toNat_add, UInt64.toNat_one]
      omega
    have hrange : (height + 1).toNat + remaining = height.toNat + (remaining + 1) := by omega
    rw [pruneHeights]
    cases hentry : storage.getBlockByHeight height with
    | none =>
      dsimp only
      have hnone : ¬ storage.NamedBetween (height + 1).toNat ((height + 1).toNat + remaining) chainHeadHash := by
        rintro ⟨slot, hlow, hbelow, hfound⟩
        exact hhead ⟨slot, by omega, by omega, hfound⟩
      obtain ⟨removed, pruned, hprune, hle, hcleared⟩ := ih hnames deletedCount (by omega) hnone
      rw [hnext, ← hnext, hrange, hnext] at hcleared
      exact ⟨removed, pruned, hprune, by omega, hcleared.skip hentry⟩
    | some hash =>
      have hne : hash ≠ chainHeadHash := by
        rintro rfl
        exact hhead ⟨height, le_rfl, by omega, hentry⟩
      dsimp only
      rw [hreliable]
      dsimp only
      rw [if_neg hne, deleteBlock, hreliable]
      dsimp only
      have hdropped := hnames.erasure (.both hentry)
      have hnone : ¬ ((storage.erase (.height height)).erase (.block hash)).NamedBetween (height + 1).toNat
          ((height + 1).toNat + remaining) chainHeadHash := by
        rintro ⟨slot, hlow, hbelow, hfound⟩
        change (storage.erase (.height height)).getBlockByHeight slot = some chainHeadHash at hfound
        rw [getBlockByHeight_erase] at hfound
        split at hfound
        · contradiction
        · exact hhead ⟨slot, by omega, by omega, hfound⟩
      obtain ⟨removed, pruned, hprune, hle, hcleared⟩ := ih hdropped (deletedCount + 1) (by omega) hnone
      rw [hrange, hnext] at hcleared
      refine ⟨removed + 1, pruned, ?_, by omega, hcleared.drop hnames hentry (by omega)⟩
      rw [hprune, UInt64.ofNat_add, UInt64.add_assoc, UInt64.add_comm 1]
      rfl

/-- Where no height has an entry the loop deletes nothing. -/
theorem pruneHeights_cleared_range (remaining : ℕ) (deletedCount : UInt64)
    (hbound : height.toNat + remaining < 2 ^ 64)
    (hnone : ∀ slot : UInt64, height.toNat ≤ slot.toNat → slot.toNat < height.toNat + remaining →
      storage.getBlockByHeight slot = none) :
    pruneHeights eraser chainHeadHash remaining height deletedCount storage = (.ok deletedCount, storage) := by
  induction remaining generalizing height with
  | zero => rfl
  | succ remaining ih =>
    have hnext : (height + 1).toNat = height.toNat + 1 := by
      rw [UInt64.toNat_add, UInt64.toNat_one]
      omega
    rw [pruneHeights, hnone height le_rfl (by omega)]
    exact ih (by omega) fun slot hlow hbelow => hnone slot (by omega) (by omega)

/-- The genesis block is stored and without an entry, the stored blocks are under their hashes and not older,
and every entry names a stored block of its slot. -/
structure Stocked (genesisBlock : Block) (blocks : List Block) (storage : Storage) : Prop where
  genesis : ∃ root, storage.getBlock genesisBlock.hash = some root
  named : ∀ hash stored, storage.getBlock hash = some stored → stored.hash = hash ∧ stored ∈ blocks
  later : ∀ hash stored, storage.getBlock hash = some stored →
    genesisBlock.header.slot ≤ stored.header.slot
  indexed : storage.NamesStored
  above : ∀ slot hash, storage.getBlockByHeight slot = some hash → genesisBlock.header.slot < slot

variable {crypto : Crypto} {genesisBlock block : Block} {blocks : List Block}

/-- What is stored at the genesis block's hash has its header. -/
theorem Stocked.header_genesis {root : Block} (h : storage.Stocked genesisBlock blocks)
    (hhashed : Chain.HeaderHashed crypto blocks) (hgenesis : genesisBlock ∈ blocks)
    (hroot : storage.getBlock genesisBlock.hash = some root) : root.header = genesisBlock.header :=
  hhashed.header_eq (h.named _ root hroot).2 hgenesis (h.named _ root hroot).1

/-- No entry names the genesis block. -/
theorem Stocked.genesis_not_named (h : storage.Stocked genesisBlock blocks)
    (hhashed : Chain.HeaderHashed crypto blocks) (hgenesis : genesisBlock ∈ blocks) {slot : UInt64}
    (hentry : storage.getBlockByHeight slot = some hash) : hash ≠ genesisBlock.hash := by
  rintro rfl
  obtain ⟨root, hroot, hslot⟩ := h.indexed slot _ hentry
  have hlater := h.above slot _ hentry
  rw [← hslot, h.header_genesis hhashed hgenesis hroot] at hlater
  exact UInt64.lt_irrefl _ hlater

/-- A deletion keeps the store so. -/
theorem Stocked.erasure (h : storage.Stocked genesisBlock blocks)
    (hhashed : Chain.HeaderHashed crypto blocks) (hgenesis : genesisBlock ∈ blocks)
    (herasure : storage.Erasure pruned) : pruned.Stocked genesisBlock blocks := by
  have hblocks : ∀ hash stored, pruned.getBlock hash = some stored → storage.getBlock hash = some stored := by
    intro found stored hfound
    cases herasure with
    | entry => exact hfound
    | both =>
      rw [getBlock_erase] at hfound
      split at hfound
      · contradiction
      · exact hfound
  have hheights : ∀ slot hash, pruned.getBlockByHeight slot = some hash →
      storage.getBlockByHeight slot = some hash := by
    intro slot found hfound
    have hread : ∀ height, (storage.erase (.height height)).getBlockByHeight slot = some found →
        storage.getBlockByHeight slot = some found := by
      intro height hleft
      rw [getBlockByHeight_erase] at hleft
      split at hleft
      · contradiction
      · exact hleft
    cases herasure with
    | entry => exact hread _ hfound
    | both => exact hread _ hfound
  refine ⟨?_, fun found stored hfound => h.named found stored (hblocks found stored hfound),
    fun found stored hfound => h.later found stored (hblocks found stored hfound),
    h.indexed.erasure herasure, fun slot found hfound => h.above slot found (hheights slot found hfound)⟩
  cases herasure with
  | entry => exact h.genesis
  | both hentry =>
    rw [getBlock_erase, if_neg (h.genesis_not_named hhashed hgenesis hentry).symm]
    exact h.genesis

/-- So does a pruning to any height, in which deletions may be refused. -/
theorem Stocked.prune (h : storage.Stocked genesisBlock blocks)
    (hhashed : Chain.HeaderHashed crypto blocks) (hgenesis : genesisBlock ∈ blocks) (eraser : Eraser)
    (targetHeight : UInt64) (chainHeadHash : String) :
    (storage.pruneBlocksBefore eraser targetHeight chainHeadHash).2.Stocked genesisBlock blocks := by
  have herasures := erasures_pruneHeights eraser chainHeadHash (targetHeight.toNat - 1) 1 0 storage
  unfold pruneBlocksBefore
  generalize (pruneHeights eraser chainHeadHash (targetHeight.toNat - 1) 1 0 storage).2 = pruned at herasures ⊢
  induction herasures with
  | refl => exact h
  | tail _ herasure ih => exact ih.erasure hhashed hgenesis herasure

/-- So does storing a block behind a stored parent, and entering it or not. -/
theorem Stocked.store {parent : Block} (h : storage.Stocked genesisBlock blocks)
    (hhashed : Chain.HeaderHashed crypto blocks)
    (hmem : block ∈ blocks) (hparent : storage.getBlock block.parentHash = some parent)
    (hslot : parent.header.slot < block.header.slot)
    (hblocks : pruned.blocks = storage.blocks.insert block.hash block)
    (hentries : pruned.heights = storage.heights ∨
      pruned.heights = storage.heights.insert block.header.slot block.hash) :
    pruned.Stocked genesisBlock blocks := by
  have hread : ∀ hash, pruned.getBlock hash = if hash = block.hash then some block else storage.getBlock hash := by
    intro found
    unfold getBlock
    rw [hblocks, FiniteMap.lookup_insert_ite]
  have hafter : genesisBlock.header.slot < block.header.slot :=
    UInt64.lt_of_le_of_lt (h.later _ parent hparent) hslot
  -- a stored block that is overwritten has the header of the new one
  have hstay : ∀ hash stored, storage.getBlock hash = some stored →
      ∃ kept, pruned.getBlock hash = some kept ∧ kept.header = stored.header := by
    intro found stored hstored
    rw [hread]
    split
    · rename_i heq
      obtain ⟨hname, hold⟩ := h.named found stored hstored
      exact ⟨block, rfl, hhashed.header_eq hmem hold (heq.symm.trans hname.symm)⟩
    · exact ⟨stored, hstored, rfl⟩
  have hindexed : ∀ slot found, pruned.getBlockByHeight slot = some found →
      (slot = block.header.slot ∧ found = block.hash) ∨ storage.getBlockByHeight slot = some found := by
    intro slot found hfound
    unfold getBlockByHeight at hfound
    rcases hentries with hsame | hinsert
    · rw [hsame] at hfound
      exact .inr hfound
    · rw [hinsert, FiniteMap.lookup_insert_ite] at hfound
      split at hfound
      · rename_i heq
        exact .inl ⟨heq, (Option.some.inj hfound).symm⟩
      · exact .inr hfound
  refine ⟨?_, fun found stored hfound => ?_, fun found stored hfound => ?_, fun slot found hfound => ?_,
    fun slot found hfound => ?_⟩
  · obtain ⟨root, hroot⟩ := h.genesis
    obtain ⟨kept, hkept, -⟩ := hstay _ root hroot
    exact ⟨kept, hkept⟩
  · rw [hread] at hfound
    split at hfound
    · rename_i heq
      rw [← Option.some.inj hfound]
      exact ⟨heq.symm, hmem⟩
    · exact h.named found stored hfound
  · rw [hread] at hfound
    split at hfound
    · rw [← Option.some.inj hfound]
      exact UInt64.le_of_lt hafter
    · exact h.later found stored hfound
  · rcases hindexed slot found hfound with ⟨rfl, rfl⟩ | hold
    · exact ⟨block, by rw [hread, if_pos rfl], rfl⟩
    · obtain ⟨stored, hstored, hsame⟩ := h.indexed slot found hold
      obtain ⟨kept, hkept, hheader⟩ := hstay found stored hstored
      exact ⟨kept, hkept, by rw [hheader, hsame]⟩
  · rcases hindexed slot found hfound with ⟨rfl, rfl⟩ | hold
    · exact hafter
    · exact h.above slot found hold

/-- The same blocks and entries. -/
theorem Stocked.congr (h : storage.Stocked genesisBlock blocks) (hblocks : pruned.blocks = storage.blocks)
    (hheights : pruned.heights = storage.heights) : pruned.Stocked genesisBlock blocks := by
  have hread : pruned.getBlock = storage.getBlock := by
    funext found
    unfold getBlock
    rw [hblocks]
  have hentries : pruned.getBlockByHeight = storage.getBlockByHeight := by
    funext slot
    unfold getBlockByHeight
    rw [hheights]
  obtain ⟨hgenesis, hnamed, hlater, hindexed, habove⟩ := h
  refine ⟨hread ▸ hgenesis, hread ▸ hnamed, hread ▸ hlater, ?_, hentries ▸ habove⟩
  intro slot found hfound
  rw [hread]
  exact hindexed slot found (hentries ▸ hfound)

end Storage

namespace Chain

variable {crypto : Crypto} {host : Host} {chain chain' opened : Chain} {block genesisBlock : Block}
  {blocks : List Block} {accepted : Bool}

/-- An accepted block is stored. -/
theorem blocks_of_accepted (h : Delivery crypto host chain block true chain') :
    (∃ parent, chain.Passes crypto block parent) ∧
      chain'.storage.blocks = chain.storage.blocks.insert block.hash block := by
  cases h with
  | @commit parent executed _ _ hparent hconsistent hvalid hexec hroot hcommit =>
    obtain ⟨headers, hstorage⟩ := storage_of_execution_frame hexec
    refine ⟨⟨_, passes_of_commit hparent hconsistent hvalid hexec hroot⟩, ?_⟩
    generalize htrue : true = accepted at hcommit
    cases commitOutcome_of_commitBlock hcommit with
    | blockRefused | accountRefused => contradiction
    | finished head heights happly =>
      obtain ⟨accounts, pending, trie, rfl⟩ := State.applyChanges_frame happly
      obtain ⟨pending', storage', hfold, ⟨txIndex, historyCount, history, rfl⟩, -, -⟩ :=
        foldl_indexTransaction_frame crypto host block block.transactions _
      rw [hfold]
      change executed.storage.blocks.insert _ _ = _
      rw [hstorage]
      rfl

/-- A delivery stores a block that passes the checks, and enters it or not, or it leaves the blocks and the
height index alone. -/
theorem stored_of_delivery (h : Delivery crypto host chain block accepted chain') :
    (chain'.storage.blocks = chain.storage.blocks ∧ chain'.storage.heights = chain.storage.heights) ∨
      (∃ parent, chain.Passes crypto block parent) ∧
        chain'.storage.blocks = chain.storage.blocks.insert block.hash block ∧
        (chain'.storage.heights = chain.storage.heights ∨
          chain'.storage.heights = chain.storage.heights.insert block.header.slot block.hash) := by
  have hheights := heights_of_delivery h
  cases accepted with
  | false =>
    rw [Bool.false_and, if_neg Bool.false_ne_true] at hheights
    rcases (blocks_of_delivery h).1 with hsame | ⟨hpasses, hblocks⟩
    · exact .inl ⟨hsame, hheights⟩
    · exact .inr ⟨hpasses, hblocks, .inl hheights⟩
  | true =>
    obtain ⟨hpasses, hblocks⟩ := blocks_of_accepted h
    refine .inr ⟨hpasses, hblocks, ?_⟩
    rw [hheights]
    split
    · exact .inr rfl
    · exact .inl rfl

/-- What happens to a node's database: the chain is served, or blocks before some height are pruned. -/
inductive Upkeep where
  | serve (request : Request)
  | prune (eraser : Storage.Eraser) (targetHeight : UInt64) (chainHeadHash : String)

/-- The block that an operation delivers. -/
def Upkeep.delivered : Upkeep → Option Block
  | .serve request => request.delivered
  | .prune _ _ _ => none

/-- Serve a request, or prune as the node does, in the database that the chain goes on with. -/
def maintain (crypto : Crypto) (chain : Chain) :
    Upkeep → Option ((Bool ⊕ Except String UInt64) × Chain)
  | .serve request => (serve crypto chain request).map fun answer => (.inl answer.1, answer.2)
  | .prune eraser targetHeight chainHeadHash =>
      let pruned := chain.storage.pruneBlocksBefore eraser targetHeight chainHeadHash
      some (.inr pruned.1, chain.withStorage pruned.2)

variable {calls : List (Call Chain Upkeep (Bool ⊕ Except String UInt64))}

/-- The genesis block and the blocks that the calls deliver. -/
def suppliedBlocks (genesisBlock : Block)
    (calls : List (Call Chain Upkeep (Bool ⊕ Except String UInt64))) : List Block :=
  genesisBlock :: calls.filterMap fun call => call.label.delivered

/-- A call keeps the database stocked and its head on record. -/
theorem stocked_of_maintain {output : Bool ⊕ Except String UInt64} {upkeep : Upkeep}
    (hhashed : HeaderHashed crypto blocks) (hgenesis : genesisBlock ∈ blocks)
    (hmem : ∀ block, upkeep.delivered = some block → block ∈ blocks)
    (hstocked : chain.storage.Stocked genesisBlock blocks) (hhead : chain.storage.head ≠ none)
    (h : maintain crypto chain upkeep = some (output, chain')) :
    chain'.storage.Stocked genesisBlock blocks ∧ chain'.storage.head ≠ none := by
  cases upkeep with
  | prune eraser targetHeight chainHeadHash =>
    obtain ⟨-, rfl⟩ := Prod.mk.inj (Option.some.inj h)
    refine ⟨hstocked.prune hhashed hgenesis eraser targetHeight chainHeadHash, ?_⟩
    have herasures := Storage.erasures_pruneHeights eraser chainHeadHash (targetHeight.toNat - 1) 1 0 chain.storage
    change (chain.storage.pruneBlocksBefore eraser targetHeight chainHeadHash).2.head ≠ none
    unfold Storage.pruneBlocksBefore
    generalize (Storage.pruneHeights eraser chainHeadHash (targetHeight.toNat - 1) 1 0 chain.storage).2 = pruned
      at herasures ⊢
    induction herasures with
    | refl => exact hhead
    | tail _ herasure ih => cases herasure <;> exact ih
  | serve request =>
    obtain ⟨⟨accepted, next⟩, hserve, hsome⟩ := Option.map_eq_some_iff.mp h
    obtain ⟨-, rfl⟩ := Prod.mk.inj hsome
    refine ⟨?_, head_of_run hhead (.snoc .nil hserve)⟩
    cases request with
    | deliver host block =>
      rcases stored_of_delivery (delivery_of_addBlock hserve) with
        ⟨hblocks, hheights⟩ | ⟨⟨parent, hpasses⟩, hblocks, hheights⟩
      · exact hstocked.congr hblocks hheights
      · exact hstocked.store hhashed (hmem block rfl) hpasses.stored (slot_lt_of_valid hpasses.valid)
          hblocks hheights
    | vote host vote =>
      obtain ⟨votes, stored, finalizedHead, rfl⟩ := serve_vote_frame hserve
      exact hstocked.congr rfl rfl
    | reopen host genesisBlock' balances stakes =>
      obtain ⟨accounts, pendingChanges, trie, rfl⟩ := start_frame (start_of_serve hserve)
      have hsame : chain.storage.opened genesisBlock' = chain.storage := by
        obtain ⟨head, hstored⟩ := Option.ne_none_iff_exists'.mp hhead
        rw [Storage.opened, hstored]
      apply hstocked.congr
      · change (chain.storage.opened genesisBlock').blocks = _
        rw [hsame]
      · change (chain.storage.opened genesisBlock').heights = _
        rw [hsame]

/-- A fresh node's database holds the genesis block and no entries. -/
theorem stocked_of_start {storage : Storage} {balances stakes : List (Bytes × UInt64)}
    (hblocks : storage.blocks = ∅) (hheights : storage.heights = ∅) (hfresh : storage.head = none)
    (hgenesis : genesisBlock ∈ blocks)
    (hopened : Chain.start crypto host storage genesisBlock balances stakes = some opened) :
    opened.storage.Stocked genesisBlock blocks := by
  obtain ⟨hstored, -, -, -⟩ := start_on_fresh hblocks hfresh hopened
  have hnone := getBlockByHeight_of_start hheights hopened
  refine ⟨⟨genesisBlock, (getBlock_of_genesis hstored _).trans (if_pos rfl)⟩, fun hash stored h => ?_,
    fun hash stored h => ?_, fun slot hash h => ?_, fun slot hash h => ?_⟩
  · obtain ⟨rfl, rfl⟩ := eq_genesis_of_getBlock hstored h
    exact ⟨rfl, hgenesis⟩
  · obtain ⟨-, rfl⟩ := eq_genesis_of_getBlock hstored h
    exact UInt64.le_refl _
  · rw [hnone] at h
    contradiction
  · rw [hnone] at h
    contradiction

/-- A run from a fresh database keeps it stocked. -/
theorem stocked_of_run {storage : Storage} {balances stakes : List (Bytes × UInt64)}
    (hblocks : storage.blocks = ∅) (hheights : storage.heights = ∅) (hfresh : storage.head = none)
    (hopened : Chain.start crypto host storage genesisBlock balances stakes = some opened)
    (hrun : Run (maintain crypto) opened calls chain)
    (hhashed : HeaderHashed crypto (suppliedBlocks genesisBlock calls)) :
    chain.storage.Stocked genesisBlock (suppliedBlocks genesisBlock calls) := by
  have hgenesis : genesisBlock ∈ suppliedBlocks genesisBlock calls := List.mem_cons_self
  refine (hrun.invariant (fun s => s.storage.Stocked genesisBlock (suppliedBlocks genesisBlock calls) ∧
      s.storage.head ≠ none)
    (fun _ upkeep => ∀ block, upkeep.delivered = some block → block ∈ suppliedBlocks genesisBlock calls)
    ⟨stocked_of_start hblocks hheights hfresh hgenesis hopened, head_of_start hopened⟩ ?_
    fun call hcall block hdelivered => ?_).1
  · rintro s upkeep output s' ⟨hstocked, hhead⟩ hmem hnext
    exact stocked_of_maintain hhashed hgenesis hmem hstocked hhead hnext
  · exact List.mem_cons_of_mem _ (List.mem_filterMap.mpr ⟨call, hcall, hdelivered⟩)

/-- What a pruning to a target leaves: the genesis block, the head block and the blocks from the target on
are stored as before and have the entries they had, the entries left name stored blocks of their slots, none
is left from one to the target, and as many blocks are gone as were counted. -/
structure PrunedBefore (genesisBlock : Block) (chain : Chain) (targetHeight count : UInt64) (pruned : Storage) :
    Prop where
  genesis : ∃ root, pruned.getBlock genesisBlock.hash = some root ∧ root.header = genesisBlock.header
  kept : ∀ hash stored, chain.getBlock hash = some stored →
    hash = genesisBlock.hash ∨ hash = chain.head ∨ targetHeight ≤ stored.header.slot →
      pruned.getBlock hash = some stored ∧
        pruned.getBlockByHeight stored.header.slot = chain.storage.getBlockByHeight stored.header.slot
  named : pruned.NamesStored
  none : ∀ slot, 1 ≤ slot → slot < targetHeight → pruned.getBlockByHeight slot = none
  removed : pruned.blocks.keys ⊆ chain.storage.blocks.keys ∧
    count.toNat = (chain.storage.blocks.keys \ pruned.blocks.keys).card
  frame : ∃ blocks heights, pruned = { chain.storage with blocks, heights }

/-- In every run of deliveries, votes and restarts with any refused writes, and of prunings to any heights
with any refused deletions, where the blocks carry the hashes of their headers: a pruning to a target not
above the slot of the head removes old blocks only, and another one right after it finds nothing. -/
theorem pruneBlocksBefore_old {storage : Storage} {balances stakes : List (Bytes × UInt64)} {head : Block}
    {targetHeight : UInt64} {eraser : Storage.Eraser}
    (hblocks : storage.blocks = ∅) (hheights : storage.heights = ∅) (hfresh : storage.head = none)
    (hopened : Chain.start crypto host storage genesisBlock balances stakes = some opened)
    (hrun : Run (maintain crypto) opened calls chain)
    (hhashed : HeaderHashed crypto (suppliedBlocks genesisBlock calls))
    (hhead : chain.getHead = some head) (htarget : targetHeight ≤ head.header.slot)
    (hreliable : ∀ deletion, eraser deletion = none) :
    ∃ count pruned,
      chain.storage.pruneBlocksBefore eraser targetHeight chain.head = (.ok count, pruned) ∧
      PrunedBefore genesisBlock chain targetHeight count pruned ∧
      pruned.pruneBlocksBefore eraser targetHeight chain.head = (.ok 0, pruned) := by
  have hgenesis : genesisBlock ∈ suppliedBlocks genesisBlock calls := List.mem_cons_self
  have hstocked := stocked_of_run hblocks hheights hfresh hopened hrun hhashed
  have hbound : (1 : UInt64).toNat + (targetHeight.toNat - 1) < 2 ^ 64 := by
    have := targetHeight.toNat_lt
    rw [UInt64.toNat_one]
    omega
  have hspot : ¬ chain.storage.NamedBetween (1 : UInt64).toNat
      ((1 : UInt64).toNat + (targetHeight.toNat - 1)) chain.head := by
    rintro ⟨slot, hlow, hbelow, hentry⟩
    obtain ⟨stored, hstored, rfl⟩ := hstocked.indexed slot _ hentry
    rw [Option.some.inj (hstored.symm.trans hhead)] at hbelow hlow
    rw [UInt64.le_iff_toNat_le] at htarget
    rw [UInt64.toNat_one] at hbelow hlow
    omega
  obtain ⟨removed, pruned, hprune, hle, hcleared⟩ := Storage.pruneHeights_cleared hreliable hstocked.indexed
    (targetHeight.toNat - 1) 0 hbound hspot
  have hpruned : pruned.Stocked genesisBlock (suppliedBlocks genesisBlock calls) := by
    have hkept := hstocked.prune hhashed hgenesis eraser targetHeight chain.head
    unfold Storage.pruneBlocksBefore at hkept
    rwa [hprune] at hkept
  have hinside : ∀ slot : UInt64, 1 ≤ slot → slot < targetHeight → pruned.getBlockByHeight slot = none := by
    intro slot hlow hbelow
    rw [UInt64.le_iff_toNat_le, UInt64.toNat_one] at hlow
    rw [UInt64.lt_iff_toNat_lt] at hbelow
    refine hcleared.inside slot ?_ ?_ <;> rw [UInt64.toNat_one] <;> omega
  have hfrom : ∀ slot : UInt64, targetHeight ≤ slot →
      pruned.getBlockByHeight slot = chain.storage.getBlockByHeight slot := by
    intro slot habove
    rw [UInt64.le_iff_toNat_le] at habove
    refine hcleared.outside slot ?_
    rw [UInt64.toNat_one]
    omega
  have hcount : (0 + UInt64.ofNat removed).toNat = removed := by
    have hsmall : removed < 2 ^ 64 := by omega
    rw [UInt64.zero_add, UInt64.toNat_ofNat_of_lt' hsmall]
  have hsubset : pruned.blocks.keys ⊆ chain.storage.blocks.keys := by
    intro hash hmem
    obtain ⟨stored, hstored⟩ := Finmap.mem_iff.mp (Finmap.mem_keys.mp hmem)
    have hspared : ¬ chain.storage.NamedBetween (1 : UInt64).toNat
        ((1 : UInt64).toNat + (targetHeight.toNat - 1)) hash := by
      intro hnamed
      have hgone := hcleared.gone hash hnamed
      unfold Storage.getBlock at hgone
      rw [hstored] at hgone
      contradiction
    exact Finmap.mem_keys.mpr (Finmap.mem_iff.mpr ⟨stored, (hcleared.kept hash hspared).symm.trans hstored⟩)
  refine ⟨0 + UInt64.ofNat removed, pruned, hprune, ⟨?_, fun hash stored hstored hwhich => ?_,
    hpruned.indexed, hinside, ⟨hsubset, ?_⟩, hcleared.frame⟩, ?_⟩
  · obtain ⟨root, hroot⟩ := hpruned.genesis
    exact ⟨root, hroot, hpruned.header_genesis hhashed hgenesis hroot⟩
  · have hspared : ¬ chain.storage.NamedBetween (1 : UInt64).toNat
        ((1 : UInt64).toNat + (targetHeight.toNat - 1)) hash := by
      rintro ⟨slot, hlow, hbelow, hentry⟩
      rcases hwhich with rfl | rfl | hyoung
      · exact hstocked.genesis_not_named hhashed hgenesis hentry rfl
      · exact hspot ⟨slot, hlow, hbelow, hentry⟩
      · obtain ⟨found, hfound, rfl⟩ := hstocked.indexed slot _ hentry
        rw [Option.some.inj (hfound.symm.trans hstored)] at hbelow hlow
        rw [UInt64.le_iff_toNat_le] at hyoung
        rw [UInt64.toNat_one] at hbelow hlow
        omega
    refine ⟨(hcleared.kept hash hspared).trans hstored, ?_⟩
    rcases hwhich with rfl | rfl | hyoung
    · -- nothing is entered at the genesis block's slot, before or after
      rw [hstocked.header_genesis hhashed hgenesis hstored]
      have hnone : ∀ s : Storage, s.Stocked genesisBlock (suppliedBlocks genesisBlock calls) →
          s.getBlockByHeight genesisBlock.header.slot = none := by
        intro s hs
        apply Option.eq_none_iff_forall_ne_some.mpr
        intro hash hentry
        exact UInt64.lt_irrefl _ (hs.above _ hash hentry)
      rw [hnone pruned hpruned, hnone chain.storage hstocked]
    · rw [Option.some.inj (hstored.symm.trans hhead)]
      exact hfrom _ htarget
    · exact hfrom _ hyoung
  · rw [hcount, Finset.card_sdiff_of_subset hsubset]
    have htotal := hcleared.count
    omega
  · refine Storage.pruneHeights_cleared_range (targetHeight.toNat - 1) 0 hbound ?_
    exact fun slot hlow hbelow => hcleared.inside slot hlow hbelow

/-- No deletion is refused. -/
def erasesAll : Storage.Eraser := fun _ => none

/-- A block at slot one, the head at slot three, a pruning, and then a late block at slot two on the
genesis block. -/
def lateForkUpkeep : List Upkeep :=
  let first := Sample.block Sample.genesis 1 []
  [.serve (.deliver Host.plain first), .serve (.deliver Host.plain (Sample.block first 3 [])),
    .prune erasesAll 2 (Sample.block first 3 []).hash,
    .serve (.deliver Host.plain (Sample.block Sample.genesis 2 []))]

/-- Pruning to the head removes the late block, which is the only one left below it. -/
theorem pruneBlocksBefore_old_late :
    ∃ opened calls chain count pruned, Sample.start = some opened ∧
      Run (maintain Crypto.plain) opened calls chain ∧ calls.map Call.label = lateForkUpkeep ∧
      chain.storage.pruneBlocksBefore erasesAll 3 chain.head = (.ok count, pruned) ∧ count = 1 ∧
      PrunedBefore Sample.genesis chain 3 count pruned ∧
      pruned.pruneBlocksBefore erasesAll 3 chain.head = (.ok 0, pruned) := by
  obtain ⟨opened, calls, chain, hstart, hrun, hlabels, hcheck⟩ := Run.exists_of_trace_from
    (maintain Crypto.plain) Sample.start lateForkUpkeep
    (fun _ calls chain => decide (HeaderHashed Crypto.plain (suppliedBlocks Sample.genesis calls) ∧
      chain.getHead = some (Sample.block (Sample.block Sample.genesis 1 []) 3 []) ∧
      (chain.storage.pruneBlocksBefore erasesAll 3 chain.head).1.toOption = some 1)) (by decide +kernel)
  obtain ⟨hhashed, hhead, hone⟩ := of_decide_eq_true hcheck
  have hreliable : ∀ deletion, erasesAll deletion = none := fun _ => rfl
  obtain ⟨count, pruned, hprune, hafter, hagain⟩ := pruneBlocksBefore_old rfl rfl rfl hstart hrun hhashed hhead
    (by decide : (3 : UInt64) ≤ 3) hreliable
  rw [hprune] at hone
  exact ⟨opened, calls, chain, count, pruned, hstart, hrun, hlabels, hprune, Option.some.inj hone, hafter, hagain⟩

end Chain

end Nocostcoin
