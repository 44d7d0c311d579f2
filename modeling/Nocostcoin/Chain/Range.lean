import Nocostcoin.Chain.ForkChoice

/-!
# Which blocks a node serves to a peer

`get_blocks_range` walks consecutive heights through the height index, which names for each slot the
block that was accepted last and does not have the genesis block. So it serves a stretch of the path
from the genesis block to the head exactly when the slots of the stretch follow on one another and no
block of another branch took one of them later.
-/

namespace Nocostcoin

open Execution

variable {crypto : Crypto}

namespace Chain

variable {host : Host} {chain chain' start : Chain} {block genesisBlock : Block} {output : Bool}
  {calls : List (Call Chain Request Bool)} {blocks : List Block}

/-- The block that a call made the node accept. -/
def acceptedBlock (call : Call Chain Request Bool) : Option Block :=
  if call.output then call.label.delivered else none

/-- The block that was accepted last at a slot. -/
def lastAccepted (calls : List (Call Chain Request Bool)) (slot : UInt64) : Option Block :=
  (calls.filterMap acceptedBlock).reverse.find? fun block => block.header.slot = slot

/-- The last of the blocks that calls give, after one more call. -/
theorem find?_filterMap_snoc (pick : Call Chain Request Bool → Option Block) (test : Block → Bool)
    (calls : List (Call Chain Request Bool)) (call : Call Chain Request Bool) :
    ((calls ++ [call]).filterMap pick).reverse.find? test =
      ((pick call).filter test).or ((calls.filterMap pick).reverse.find? test) := by
  rw [List.filterMap_append, List.reverse_append]
  cases hpick : pick call with
  | none => simp [hpick]
  | some block =>
    rw [List.filterMap_cons_some hpick, List.filterMap_nil, List.reverse_singleton,
      List.singleton_append, List.find?_cons]
    cases htest : test block with
    | true => rw [Option.filter_some_pos htest, Option.some_or]
    | false => rw [Option.filter_some_neg htest, Option.none_or]

/-- A call that accepts a block makes it the last one of its slot. -/
theorem lastAccepted_append_some {call : Call Chain Request Bool} (h : acceptedBlock call = some block)
    (slot : UInt64) : lastAccepted (calls ++ [call]) slot =
      if block.header.slot = slot then some block else lastAccepted calls slot := by
  rw [lastAccepted, find?_filterMap_snoc, h]
  by_cases hslot : block.header.slot = slot
  · rw [if_pos hslot, Option.filter_some, decide_eq_true hslot, if_pos rfl, Option.some_or]
  · rw [if_neg hslot, Option.filter_some, decide_eq_false hslot, if_neg Bool.false_ne_true,
      Option.none_or, lastAccepted]

/-- Other calls change nothing. -/
theorem lastAccepted_append_none {call : Call Chain Request Bool} (h : acceptedBlock call = none)
    (slot : UInt64) : lastAccepted (calls ++ [call]) slot = lastAccepted calls slot := by
  rw [lastAccepted, find?_filterMap_snoc, h]
  rfl

/-- The height index names the last accepted block of each slot, which is stored and comes after the
genesis block. -/
structure Indexed (genesisBlock : Block) (calls : List (Call Chain Request Bool)) (chain : Chain) :
    Prop where
  heights : ∀ slot, chain.storage.getBlockByHeight slot = (lastAccepted calls slot).map Block.hash
  stored : ∀ slot hash, chain.storage.getBlockByHeight slot = some hash →
    ∃ stored, chain.getBlock hash = some stored ∧ stored.header.slot = slot ∧
      genesisBlock.header.slot < slot

/-- A stored block is not of an earlier slot than the genesis block. -/
theorem Tip.slot_le {hash : String} {stored : Block} (htip : chain.Tip genesisBlock blocks)
    (hhashed : HeaderHashed crypto blocks) (hmem : genesisBlock ∈ blocks)
    (hstored : chain.getBlock hash = some stored) :
    genesisBlock.header.slot ≤ stored.header.slot := by
  obtain ⟨root, hroot⟩ := Option.isSome_iff_exists.mp htip.rooted.root
  obtain ⟨hhash, hrootMem⟩ := htip.named _ _ hroot
  have hrank := (htip.rooted.descends hstored).rank_le htip.rooted.grounded
  rw [slotOf_eq hroot, slotOf_eq hstored, hhashed.header_eq hrootMem hmem hhash] at hrank
  exact UInt64.le_iff_toNat_le.mpr hrank

/-- An accepted block is indexed. -/
theorem Chosen.indexed {call : Call Chain Request Bool} {parent : Block}
    (htip : chain.Tip genesisBlock blocks) (hhashed : HeaderHashed crypto blocks)
    (hgenesis : genesisBlock ∈ blocks) (hmem : block ∈ blocks)
    (hpasses : chain.Passes crypto block parent) (haccepted : acceptedBlock call = some block)
    (hindexed : Indexed genesisBlock calls chain) (h : Chosen chain block chain') :
    Indexed genesisBlock (calls ++ [call]) chain' := by
  have hread : ∀ slot, chain'.storage.getBlockByHeight slot =
      if slot = block.header.slot then some block.hash else chain.storage.getBlockByHeight slot := by
    intro slot
    unfold Storage.getBlockByHeight
    rw [h.heights]
    exact FiniteMap.lookup_insert_ite _ _ _ _
  constructor
  · intro slot
    rw [hread, lastAccepted_append_some haccepted]
    by_cases hslot : slot = block.header.slot
    · rw [if_pos hslot, if_pos hslot.symm]
      rfl
    · rw [if_neg hslot, if_neg (Ne.symm hslot), hindexed.heights]
  · intro slot hash hfound
    rw [hread] at hfound
    by_cases hslot : slot = block.header.slot
    · rw [if_pos hslot] at hfound
      obtain rfl := Option.some.inj hfound
      refine ⟨block, (h.getBlock block.hash).trans (if_pos rfl), hslot.symm, ?_⟩
      rw [hslot]
      exact UInt64.lt_of_le_of_lt (htip.slot_le hhashed hgenesis hpasses.stored)
        (slot_lt_of_valid hpasses.valid)
    · rw [if_neg hslot] at hfound
      obtain ⟨stored, hstored, hsame, hlater⟩ := hindexed.stored slot hash hfound
      obtain ⟨kept, hkept, hheader⟩ := h.headersStay htip hhashed hmem hash stored hstored
      exact ⟨kept, hkept, by rw [hheader, hsame], hlater⟩

/-- What leaves the blocks and the index alone keeps them indexed. -/
theorem Unchosen.indexed {call : Call Chain Request Bool} (hrejected : acceptedBlock call = none)
    (hindexed : Indexed genesisBlock calls chain) (h : Unchosen chain chain') :
    Indexed genesisBlock (calls ++ [call]) chain' := by
  have hread : chain'.storage.getBlockByHeight = chain.storage.getBlockByHeight := by
    funext slot
    unfold Storage.getBlockByHeight
    rw [h.heights]
  constructor
  · intro slot
    rw [hread, lastAccepted_append_none hrejected, hindexed.heights]
  · rw [hread, h.getBlock]
    exact hindexed.stored

/-- Over a run of a running node on reliable databases the blocks stay indexed. -/
theorem indexed_of_run (hhashed : HeaderHashed crypto blocks) (hgenesis : genesisBlock ∈ blocks)
    (htip : start.Tip genesisBlock blocks) (hindexed : Indexed genesisBlock [] start)
    (hrun : Run (serve crypto) start calls chain)
    (hreliable : ∀ call ∈ calls, call.label.host.Reliable)
    (hrunning : ∀ call ∈ calls, call.label.Running)
    (hmem : ∀ call ∈ calls, ∀ block, call.label.delivered = some block → block ∈ blocks) :
    Indexed genesisBlock calls chain := by
  induction hrun with
  | nil => exact hindexed
  | @snoc calls chain chain' request output hbefore hnext ih =>
    have hold : ∀ call ∈ calls, call ∈ calls ++ [⟨chain, request, output, chain'⟩] :=
      fun call hcall => List.mem_append_left _ hcall
    have hnew : (⟨chain, request, output, chain'⟩ : Call Chain Request Bool) ∈
        calls ++ [⟨chain, request, output, chain'⟩] :=
      List.mem_append_right _ (List.mem_singleton_self _)
    have hbeforeIndexed := ih (fun call hcall => hreliable call (hold call hcall))
      (fun call hcall => hrunning call (hold call hcall)) fun call hcall => hmem call (hold call hcall)
    obtain ⟨hbeforeTip, -⟩ := tip_of_run hhashed htip hbefore
      (fun call hcall => hreliable call (hold call hcall))
      (fun call hcall => hrunning call (hold call hcall)) fun call hcall => hmem call (hold call hcall)
    rcases chosen_or_unchosen_of_serve (hreliable _ hnew) (hrunning _ hnew) hnext with
      ⟨block, hdelivered, rfl, ⟨parent, hpasses⟩, hchosen⟩ | ⟨hrejected, hunchosen⟩
    · exact hchosen.indexed hbeforeTip hhashed hgenesis (hmem _ hnew block hdelivered) hpasses
        hdelivered hbeforeIndexed
    · refine hunchosen.indexed ?_ hbeforeIndexed
      unfold acceptedBlock
      split
      · rename_i houtput
        cases hdelivered : request.delivered with
        | none => rfl
        | some block => exact absurd (houtput.symm.trans (hrejected block hdelivered)) (by decide)
      · rfl

/-- The path from the genesis block to the head. -/
structure HeadPath (genesisHash : String) (chain : Chain) (root : Block) (path : List Block) : Prop where
  root : chain.getBlock genesisHash = some root
  path : ParentTree.Path genesisHash Block.parentHash chain.getBlock genesisHash chain.head path

/-- Each block of it is stored under its hash. -/
theorem HeadPath.stored {root : Block} {path : List Block} (htip : chain.Tip genesisBlock blocks)
    (h : chain.HeadPath genesisBlock.hash root path) :
    ∀ x ∈ root :: path, chain.getBlock x.hash = some x := by
  intro x hx
  have hfound : ∃ hash, chain.getBlock hash = some x := by
    rcases List.mem_cons.mp hx with rfl | hpath
    · exact ⟨_, h.root⟩
    · exact h.path.mem x hpath
  obtain ⟨hash, hstored⟩ := hfound
  rw [(htip.named hash x hstored).1, hstored]

/-- Nothing is indexed right above the head. -/
theorem Indexed.above_head {head : Block} (htip : chain.Tip genesisBlock blocks)
    (hindexed : Indexed genesisBlock calls chain) (hhead : chain.getHead = some head) :
    chain.storage.getBlockByHeight (head.header.slot + 1) = none := by
  cases hfound : chain.storage.getBlockByHeight (head.header.slot + 1) with
  | none => rfl
  | some hash =>
    obtain ⟨stored, hstored, hslot, hlater⟩ := hindexed.stored _ _ hfound
    obtain ⟨best, hbest, hnone⟩ := htip.best
    obtain rfl := Option.some.inj (hhead.symm.trans hbest)
    have hle := Consensus.slot_le_of_not_better (hnone hash stored hstored)
    rw [hslot, UInt64.le_iff_toNat_le, UInt64.toNat_add] at hle
    rw [UInt64.lt_iff_toNat_lt, UInt64.toNat_add] at hlater
    have hone : (1 : UInt64).toNat = 1 := rfl
    have hbound := head.header.slot.toNat_lt
    omega

/-- The loop serves first what the index names for the first height. -/
theorem Indexed.slot_of_blocksFrom {b : Block} {served : List Block} {height : UInt64} {limit : ℕ}
    (hindexed : Indexed genesisBlock calls chain)
    (h : chain.blocksFrom limit height = b :: served) : b.header.slot = height := by
  cases limit with
  | zero => exact absurd h (List.cons_ne_nil _ _).symm
  | succ limit =>
    rw [blocksFrom] at h
    cases hheight : chain.storage.getBlockByHeight height with
    | none =>
      rw [hheight] at h
      exact absurd h (List.cons_ne_nil _ _).symm
    | some hash =>
      obtain ⟨stored, hfound, hslot, -⟩ := hindexed.stored _ _ hheight
      rw [hheight] at h
      dsimp only at h
      rw [hfound] at h
      rw [← (List.cons.inj h).1, hslot]

/-- The loop serves a stretch up to the head exactly when its slots follow on one another and the index
names its blocks. -/
theorem blocksFrom_eq_take_iff {b : Block} {rest : List Block} (htip : chain.Tip genesisBlock blocks)
    (hindexed : Indexed genesisBlock calls chain)
    (hstored : ∀ x ∈ b :: rest, chain.getBlock x.hash = some x)
    (hlast : chain.getHead = some ((b :: rest).getLast (List.cons_ne_nil b rest))) (limit : ℕ) :
    chain.blocksFrom limit b.header.slot = (b :: rest).take limit ↔
      ((b :: rest).take limit).IsChain (fun x y => y.header.slot = x.header.slot + 1) ∧
        ∀ x ∈ (b :: rest).take limit, chain.storage.getBlockByHeight x.header.slot = some x.hash := by
  induction limit generalizing b rest with
  | zero => simp [blocksFrom]
  | succ limit ih =>
    rw [blocksFrom, List.take_succ_cons]
    cases hheight : chain.storage.getBlockByHeight b.header.slot with
    | none =>
      refine ⟨fun hfalse => absurd hfalse (List.cons_ne_nil _ _).symm, fun hall => ?_⟩
      have hown := hall.2 b List.mem_cons_self
      rw [hheight] at hown
      contradiction
    | some hash =>
      obtain ⟨stored, hfound, hslot, -⟩ := hindexed.stored _ _ hheight
      have hnamed : stored = b ↔ hash = b.hash := by
        constructor
        · rintro rfl
          exact (htip.named hash stored hfound).1.symm
        · rintro rfl
          exact Option.some.inj (hfound.symm.trans (hstored b List.mem_cons_self))
      dsimp only
      rw [hfound]
      dsimp only
      rw [List.cons_eq_cons, hnamed, List.forall_mem_cons, hheight, Option.some_inj]
      cases rest with
      | nil =>
        -- the head: the loop ends above it
        have habove : chain.storage.getBlockByHeight (b.header.slot + 1) = none :=
          hindexed.above_head htip hlast
        have hend : chain.blocksFrom limit (b.header.slot + 1) = [] := by
          cases limit with
          | zero => rfl
          | succ limit => rw [blocksFrom, habove]
        simp [hend]
      | cons c rest =>
        have hbelow : ∀ x ∈ c :: rest, chain.getBlock x.hash = some x :=
          fun x hx => hstored x (List.mem_cons_of_mem b hx)
        rw [List.getLast_cons (List.cons_ne_nil c rest)] at hlast
        cases limit with
        | zero => simp [blocksFrom]
        | succ limit =>
          have hrest := ih hbelow hlast
          rw [List.take_succ_cons] at hrest ⊢
          rw [List.isChain_cons_cons]
          constructor
          · rintro ⟨hown, htail⟩
            have hslotc := hindexed.slot_of_blocksFrom htail
            rw [← hslotc] at htail
            obtain ⟨hchain, hnames⟩ := hrest.mp htail
            exact ⟨⟨hslotc, hchain⟩, hown, hnames⟩
          · rintro ⟨⟨hslotc, hchain⟩, hown, hnames⟩
            refine ⟨hown, ?_⟩
            rw [← hslotc]
            exact hrest.mpr ⟨hchain, hnames⟩

/-- From the genesis block nothing is served: nothing is indexed at its slot. -/
theorem Indexed.getBlocksRange_genesis {root : Block} (hindexed : Indexed genesisBlock calls chain)
    (hroot : chain.getBlock genesisBlock.hash = some root)
    (hheader : root.header = genesisBlock.header) (limit : ℕ) :
    chain.getBlocksRange genesisBlock.hash limit = [] := by
  rw [getBlocksRange, hroot]
  dsimp only
  rw [hheader]
  cases limit with
  | zero => rfl
  | succ limit =>
    rw [blocksFrom]
    cases hfound : chain.storage.getBlockByHeight genesisBlock.header.slot with
    | none => rfl
    | some hash =>
      obtain ⟨stored, -, -, hlater⟩ := hindexed.stored _ _ hfound
      exact absurd hlater (UInt64.lt_irrefl _)

/-- Opening a node leaves the height index alone. -/
theorem heights_of_start {storage : Storage} {balances stakes : List (Bytes × UInt64)}
    (hopened : Chain.start crypto host storage genesisBlock balances stakes = some chain) :
    chain.storage.heights = storage.heights := by
  obtain ⟨accounts, pendingChanges, trie, rfl⟩ := start_frame hopened
  change (storage.opened genesisBlock).heights = storage.heights
  unfold Storage.opened
  split
  · rfl
  · rfl

/-- Nothing is indexed by opening a node without entries. -/
theorem getBlockByHeight_of_start {storage : Storage} {balances stakes : List (Bytes × UInt64)}
    (hheights : storage.heights = ∅)
    (hopened : Chain.start crypto host storage genesisBlock balances stakes = some chain) (slot : UInt64) :
    chain.storage.getBlockByHeight slot = none := by
  unfold Storage.getBlockByHeight
  rw [heights_of_start hopened, hheights]
  rfl

/-- A fresh node has the genesis block stored and nothing indexed. -/
theorem indexed_of_start {storage : Storage} {balances stakes : List (Bytes × UInt64)}
    (hheights : storage.heights = ∅)
    (hopened : Chain.start crypto host storage genesisBlock balances stakes = some chain) :
    Indexed genesisBlock [] chain := by
  have hnone := getBlockByHeight_of_start hheights hopened
  constructor
  · intro slot
    rw [hnone]
    rfl
  · intro slot hash hfound
    rw [hnone] at hfound
    contradiction

/-- In every run of a node from a fresh database, over deliveries of any blocks that carry the hashes of
their headers: there is a path from the genesis block to the head, and from each of its blocks the node
serves the path exactly when the served slots follow on one another and every served block is the one
that was accepted last at its slot. -/
theorem blocksRange_iff {storage : Storage} {balances stakes : List (Bytes × UInt64)} {opened : Chain}
    (hblocks : storage.blocks = ∅) (hheights : storage.heights = ∅) (hfresh : storage.head = none)
    (hopened : Chain.start crypto host storage genesisBlock balances stakes = some opened)
    (hrun : Run (serve crypto) opened calls chain)
    (hreliable : ∀ call ∈ calls, call.label.host.Reliable)
    (hrunning : ∀ call ∈ calls, call.label.Running)
    (hhashed : HeaderHashed crypto (blocksOf genesisBlock calls)) :
    ∃ root path, chain.HeadPath genesisBlock.hash root path ∧
      ∀ before b rest, root :: path = before ++ b :: rest → ∀ limit, 1 ≤ limit →
        (chain.getBlocksRange b.hash limit = (b :: rest).take limit ↔
          ((b :: rest).take limit).IsChain (fun x y => y.header.slot = x.header.slot + 1) ∧
            ∀ x ∈ (b :: rest).take limit,
              (lastAccepted calls x.header.slot).map Block.hash = some x.hash) := by
  have hgenesis : genesisBlock ∈ blocksOf genesisBlock calls := List.mem_cons_self
  have hmem : ∀ call ∈ calls, ∀ block, call.label.delivered = some block →
      block ∈ blocksOf genesisBlock calls := fun call hcall block hdelivered =>
    mem_blocksOf hcall hdelivered
  have hstart := tip_of_start hblocks hfresh hgenesis hopened
  obtain ⟨htip, -⟩ := tip_of_run hhashed hstart hrun hreliable hrunning hmem
  have hindexed := indexed_of_run hhashed hgenesis hstart (indexed_of_start hheights hopened) hrun
    hreliable hrunning hmem
  obtain ⟨head, hhead, -⟩ := htip.best
  obtain ⟨root, hroot⟩ := Option.isSome_iff_exists.mp htip.rooted.root
  obtain ⟨path, hpath⟩ := htip.rooted.descends hhead
  have hline : chain.HeadPath genesisBlock.hash root path := ⟨hroot, hpath⟩
  refine ⟨root, path, hline, fun before b rest hsplit limit _ => ?_⟩
  have hstored : ∀ x ∈ b :: rest, chain.getBlock x.hash = some x := by
    intro x hx
    apply hline.stored htip
    rw [hsplit]
    exact List.mem_append_right before hx
  have hlast : chain.getHead = some ((b :: rest).getLast (List.cons_ne_nil b rest)) := by
    have hend := hpath.last hroot
    simp only [hsplit, List.getLast_append_of_ne_nil _ (List.cons_ne_nil b rest)] at hend
    exact hend
  rw [getBlocksRange, hstored b List.mem_cons_self]
  dsimp only
  rw [blocksFrom_eq_take_iff htip hindexed hstored hlast limit]
  simp only [hindexed.heights]

/-- Blocks at the slots one and three. -/
def sparseRequests : List Request :=
  let first := Sample.block Sample.genesis 1 []
  [.deliver Host.plain first, .deliver Host.plain (Sample.block first 3 [])]

/-- The path is served from its blocks on exactly under the condition. -/
theorem blocksRange_of_sparse :
    ∃ opened calls chain, Sample.start = some opened ∧ Run (serve Crypto.plain) opened calls chain ∧
      calls.map Call.label = sparseRequests ∧
      ∃ root path, chain.HeadPath Sample.genesis.hash root path ∧
        ∀ before b rest, root :: path = before ++ b :: rest → ∀ limit, 1 ≤ limit →
          (chain.getBlocksRange b.hash limit = (b :: rest).take limit ↔
            ((b :: rest).take limit).IsChain (fun x y => y.header.slot = x.header.slot + 1) ∧
              ∀ x ∈ (b :: rest).take limit,
                (lastAccepted calls x.header.slot).map Block.hash = some x.hash) := by
  obtain ⟨opened, calls, chain, hstart, hrun, hlabels, hcheck⟩ := Run.exists_of_trace_from
    (serve Crypto.plain) Sample.start sparseRequests
    (fun _ calls _ => decide (HeaderHashed Crypto.plain (blocksOf Sample.genesis calls)))
    (by decide +kernel)
  have hreliable := Sample.reliable_of_labels hlabels (by simp [sparseRequests, Request.host])
  have hrunning := running_of_labels hlabels (by simp [sparseRequests, Request.delivered])
  exact ⟨opened, calls, chain, hstart, hrun, hlabels, blocksRange_iff rfl rfl rfl hstart hrun hreliable
    hrunning (of_decide_eq_true hcheck)⟩

/-- From the genesis block nothing is served, and from the first block not the second, which comes after
an empty slot. -/
theorem blocksRange_stops_short :
    let first := Sample.block Sample.genesis 1 []
    let second := Sample.block first 3 []
    ∃ opened calls chain, Sample.start = some opened ∧ Run (serve Crypto.plain) opened calls chain ∧
      calls.map Call.label = sparseRequests ∧
      HeaderHashed Crypto.plain (blocksOf Sample.genesis calls) ∧
      chain.HeadPath Sample.genesis.hash Sample.genesis [first, second] ∧
      chain.getBlocksRange Sample.genesis.hash 2 = [] ∧ chain.getBlocksRange first.hash 2 = [first] := by
  intro first second
  obtain ⟨opened, calls, chain, hstart, hrun, hlabels, hcheck⟩ := Run.exists_of_trace_from
    (serve Crypto.plain) Sample.start sparseRequests
    (fun _ calls chain => decide (HeaderHashed Crypto.plain (blocksOf Sample.genesis calls) ∧
      chain.getBlock Sample.genesis.hash = some Sample.genesis ∧
      chain.getBlock first.hash = some first ∧ chain.getBlock second.hash = some second ∧
      chain.head = second.hash ∧ chain.getBlocksRange Sample.genesis.hash 2 = [] ∧
      chain.getBlocksRange first.hash 2 = [first]))
    (by decide +kernel)
  obtain ⟨hhashed, hgenesis, hfirst, hsecond, hhead, hempty, hshort⟩ := of_decide_eq_true hcheck
  have hneFirst : first.hash ≠ Sample.genesis.hash := by decide +kernel
  have hneSecond : second.hash ≠ Sample.genesis.hash := by decide +kernel
  have hbelow : ParentTree.Path Sample.genesis.hash Block.parentHash chain.getBlock
      Sample.genesis.hash first.hash ([] ++ [first]) := by
    refine .child hneFirst hfirst ?_
    rw [Sample.parentHash_block]
    exact .refl
  refine ⟨opened, calls, chain, hstart, hrun, hlabels, hhashed, ⟨hgenesis, ?_⟩, hempty, hshort⟩
  rw [hhead]
  have habove : ParentTree.Path Sample.genesis.hash Block.parentHash chain.getBlock
      Sample.genesis.hash second.hash ([first] ++ [second]) := by
    refine .child hneSecond hsecond ?_
    rw [Sample.parentHash_block]
    exact hbelow
  exact habove

end Chain

end Nocostcoin
