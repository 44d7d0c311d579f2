import Nocostcoin.Chain.Range
import Nocostcoin.Chain.Votes

/-!
# What the height index names

The index is written at every acceptance and the head moves at some. So it names for each slot the
block that was accepted there last, whether that block is on the path to the head or beside it.
-/

namespace Nocostcoin

open Execution

variable {crypto : Crypto}

namespace Chain

variable {host : Host} {chain chain' start : Chain} {block genesisBlock : Block} {accepted output : Bool}
  {calls : List (Call Chain Request Bool)}

/-- The database does not refuse the entry of a block in the height index. -/
def indexWritten (host : Host) (block : Block) : Bool :=
  (host.disk (.height block.header.slot block.hash)).isNone

/-- The block that a call made the node accept and index. -/
def indexedBlock (call : Call Chain Request Bool) : Option Block :=
  (acceptedBlock call).filter fun block => indexWritten call.label.host block

/-- The block that was accepted and indexed last at a slot. -/
def lastIndexed (calls : List (Call Chain Request Bool)) (slot : UInt64) : Option Block :=
  (calls.filterMap indexedBlock).reverse.find? fun block => block.header.slot = slot

/-- What one more call changes of it. -/
theorem lastIndexed_snoc (call : Call Chain Request Bool) (slot : UInt64) :
    lastIndexed (calls ++ [call]) slot =
      ((indexedBlock call).filter fun block => block.header.slot = slot).or (lastIndexed calls slot) :=
  find?_filterMap_snoc indexedBlock _ calls call

/-- The height index after an entry was written or refused. -/
theorem heights_storeBlockByHeight (host : Host) (storage : Storage) (block : Block) :
    (storage.storeBlockByHeight host.disk block.header.slot block.hash).2.heights =
      if indexWritten host block then storage.heights.insert block.header.slot block.hash
      else storage.heights := by
  unfold Storage.storeBlockByHeight Storage.write indexWritten
  cases host.disk (.height block.header.slot block.hash) with
  | none => rfl
  | some error => rfl

/-- Indexing transactions leaves the height index alone. -/
theorem heights_foldl_indexTransaction (crypto : Crypto) (host : Host) (block : Block)
    (txs : List Transaction) (chain : Chain) :
    (txs.foldl (indexTransaction crypto host block) chain).storage.heights = chain.storage.heights := by
  obtain ⟨pending, storage, hfold, ⟨txIndex, historyCount, history, rfl⟩, -, -⟩ :=
    foldl_indexTransaction_frame crypto host block txs chain
  rw [hfold]
  rfl

/-- The height index after a commit: an accepted block is entered, if the database does not refuse. -/
theorem heights_of_commitBlock (h : commitBlock crypto host chain block = some (accepted, chain')) :
    chain'.storage.heights =
      if accepted && indexWritten host block then
        chain.storage.heights.insert block.header.slot block.hash
      else chain.storage.heights := by
  obtain ⟨currentHead, -, h⟩ := Option.bind_eq_some_iff.mp h
  obtain ⟨head, stored, hchoose⟩ := chooseHead_frame host chain block currentHead
  rw [hchoose] at h
  dsimp only at h
  split at h
  · obtain ⟨rfl, rfl⟩ := Prod.mk.inj (Option.some.inj h)
    rfl
  · rename_i storage hstore
    obtain rfl := Storage.write_ok hstore
    obtain ⟨⟨result, state⟩, happly, h⟩ := Option.bind_eq_some_iff.mp h
    obtain ⟨accounts, pending, trie, rfl⟩ := State.applyChanges_frame happly
    cases result with
    | error error =>
      obtain ⟨rfl, rfl⟩ := Prod.mk.inj (Option.some.inj h)
      rfl
    | ok =>
      obtain ⟨rfl, rfl⟩ := Prod.mk.inj (Option.some.inj h)
      rw [heights_foldl_indexTransaction]
      apply (heights_storeBlockByHeight host _ block).trans
      rw [Bool.true_and]
      rfl

/-- The height index after a delivery. -/
theorem heights_of_delivery (h : Delivery crypto host chain block accepted chain') :
    chain'.storage.heights =
      if accepted && indexWritten host block then
        chain.storage.heights.insert block.header.slot block.hash
      else chain.storage.heights := by
  obtain ⟨seenHeaders, headers, hrecord⟩ := recordHeader_frame host chain block
  cases h with
  | orphan | equivocation => rfl
  | invalid =>
    rw [hrecord]
    rfl
  | failed _ _ _ hexec | mismatch _ _ _ hexec _ => exact (unchosen_of_execution hexec).heights
  | commit _ _ _ hexec _ hcommit =>
    obtain ⟨headers', hstorage⟩ := storage_of_execution_frame hexec
    rw [heights_of_commitBlock hcommit]
    unfold storage withState
    dsimp only
    rw [hstorage]

/-- The height index after a call: an accepted and indexed block is entered, else nothing. -/
theorem heights_of_serve {request : Request}
    (hnext : serve crypto chain request = some (output, chain')) :
    chain'.storage.heights =
      (indexedBlock ⟨chain, request, output, chain'⟩).elim chain.storage.heights
        fun block => chain.storage.heights.insert block.header.slot block.hash := by
  cases request with
  | deliver host block =>
    rw [heights_of_delivery (delivery_of_addBlock hnext)]
    unfold indexedBlock acceptedBlock
    cases output with
    | false => rfl
    | true =>
      simp only [Request.delivered, Request.host, if_true, Option.filter_some, Bool.true_and]
      cases indexWritten host block with
      | true => rfl
      | false => rfl
  | vote host vote =>
    obtain ⟨votes, stored, finalizedHead, rfl⟩ := serve_vote_frame hnext
    cases output <;> rfl
  | reopen host genesisBlock balances stakes =>
    rw [heights_of_start (start_of_serve hnext)]
    cases output <;> rfl

/-- The index names for each slot the block that was accepted and indexed there last. -/
def NamesLast (calls : List (Call Chain Request Bool)) (chain : Chain) : Prop :=
  ∀ slot, chain.storage.getBlockByHeight slot = (lastIndexed calls slot).map Block.hash

/-- A call keeps it so. -/
theorem namesLast_of_serve {request : Request} (hlast : NamesLast calls chain)
    (hnext : serve crypto chain request = some (output, chain')) :
    NamesLast (calls ++ [⟨chain, request, output, chain'⟩]) chain' := by
  intro slot
  have hbefore := hlast slot
  unfold Storage.getBlockByHeight at hbefore ⊢
  rw [heights_of_serve hnext, lastIndexed_snoc]
  cases hindexed : indexedBlock ⟨chain, request, output, chain'⟩ with
  | none =>
    rw [Option.elim_none, Option.filter_none, Option.none_or]
    exact hbefore
  | some block =>
    rw [Option.elim_some, FiniteMap.lookup_insert_ite, Option.filter_some]
    by_cases hslot : slot = block.header.slot
    · rw [if_pos hslot, decide_eq_true hslot.symm, if_pos rfl, Option.some_or]
      rfl
    · rw [if_neg hslot, decide_eq_false (Ne.symm hslot), if_neg Bool.false_ne_true, Option.none_or]
      exact hbefore

/-- So does a run. -/
theorem namesLast_of_run (hlast : NamesLast [] start) (hrun : Run (serve crypto) start calls chain) :
    NamesLast calls chain := by
  induction hrun with
  | nil => exact hlast
  | snoc _ hnext ih => exact namesLast_of_serve ih hnext

/-- The index names every block after slot zero on the path from the genesis block to the head. -/
def PathIndexed (genesisHash : String) (chain : Chain) : Prop :=
  ∀ root path, chain.HeadPath genesisHash root path → ∀ b ∈ root :: path, 1 ≤ b.header.slot →
    chain.storage.getBlockByHeight b.header.slot = some b.hash

/-- Every block after slot zero on that path was accepted and indexed last at its slot. -/
def PathAcceptedLast (genesisHash : String) (calls : List (Call Chain Request Bool)) (chain : Chain) : Prop :=
  ∀ root path, chain.HeadPath genesisHash root path → ∀ b ∈ root :: path, 1 ≤ b.header.slot →
    ∃ last, lastIndexed calls b.header.slot = some last ∧ last.hash = b.hash

/-- In every run of deliveries, votes and restarts from a database without index entries, with any
refused writes, the index follows the path to the head exactly if no other block was accepted later at
the slot of a block on it. -/
theorem pathIndexed_iff_acceptedLast {storage : Storage} {balances stakes : List (Bytes × UInt64)}
    {opened : Chain} (hheights : storage.heights = ∅)
    (hopened : Chain.start crypto host storage genesisBlock balances stakes = some opened)
    (hrun : Run (serve crypto) opened calls chain) :
    PathIndexed genesisBlock.hash chain ↔ PathAcceptedLast genesisBlock.hash calls chain := by
  have hstart : NamesLast [] opened := getBlockByHeight_of_start hheights hopened
  have hnames := namesLast_of_run hstart hrun
  unfold PathIndexed PathAcceptedLast
  simp only [hnames _, Option.map_eq_some_iff]

/-- A block of a key at slot six on the genesis block. -/
def blockAtSix (key : Bytes) : Block := Node.produceBlock Crypto.plain Sample.genesis 6 key [] 0

/-- Alice's block at slot six, and then Bob's, which does not win against it. -/
def siblingRequests : List Request :=
  [.deliver Host.plain (blockAtSix Sample.alice), .deliver Host.plain (blockAtSix Sample.bob)]

/-- Both are accepted, Alice's stays the head, and the index names Bob's. -/
theorem not_pathIndexed_of_rival :
    ∃ opened calls chain, network [2000, 1000] = some opened ∧ Run (serve Crypto.plain) opened calls chain ∧
      calls.map Call.label = siblingRequests ∧ HeaderHashed Crypto.plain (blocksOf Sample.genesis calls) ∧
      ¬ PathIndexed Sample.genesis.hash chain := by
  obtain ⟨opened, calls, chain, hstart, hrun, hlabels, hcheck⟩ := Run.exists_of_trace_from
    (serve Crypto.plain) (network [2000, 1000]) siblingRequests
    (fun _ calls chain => decide (HeaderHashed Crypto.plain (blocksOf Sample.genesis calls) ∧
      calls.map Call.output = [true, true] ∧
      chain.getBlock Sample.genesis.hash = some Sample.genesis ∧
      chain.getBlock (blockAtSix Sample.alice).hash = some (blockAtSix Sample.alice) ∧
      chain.head = (blockAtSix Sample.alice).hash ∧
      chain.storage.getBlockByHeight 6 = some (blockAtSix Sample.bob).hash)) (by decide +kernel)
  obtain ⟨hhashed, -, hgenesis, hstored, hhead, hnamed⟩ := of_decide_eq_true hcheck
  refine ⟨opened, calls, chain, hstart, hrun, hlabels, hhashed, fun hindexed => ?_⟩
  have hne : (blockAtSix Sample.alice).hash ≠ Sample.genesis.hash := by decide +kernel
  have hpath : ParentTree.Path Sample.genesis.hash Block.parentHash chain.getBlock
      Sample.genesis.hash chain.head ([] ++ [blockAtSix Sample.alice]) := by
    rw [hhead]
    exact .child hne hstored .refl
  have hfollows := hindexed Sample.genesis _ ⟨hgenesis, hpath⟩ (blockAtSix Sample.alice) (by simp)
    (by decide)
  rw [show (blockAtSix Sample.alice).header.slot = 6 from rfl, hnamed] at hfollows
  exact absurd (Option.some.inj hfollows) (by decide +kernel)

/-- After two blocks in a row on one branch. -/
theorem pathIndexed_iff_acceptedLast_sparse :
    ∃ opened calls chain, Sample.start = some opened ∧ Run (serve Crypto.plain) opened calls chain ∧
      calls.map Call.label = sparseRequests ∧
      (PathIndexed Sample.genesis.hash chain ↔ PathAcceptedLast Sample.genesis.hash calls chain) := by
  obtain ⟨opened, calls, chain, hstart, hrun, hlabels, -⟩ := Run.exists_of_trace_from
    (serve Crypto.plain) Sample.start sparseRequests (fun _ _ _ => true) (by decide +kernel)
  exact ⟨opened, calls, chain, hstart, hrun, hlabels, pathIndexed_iff_acceptedLast rfl hstart hrun⟩

end Chain

end Nocostcoin
