import Nocostcoin.Chain.Pruning

/-!
# Which blocks the explorer is shown

The `GetBlocks` handler counts slots where its callers count blocks: it looks at as many slots below the start
as blocks are asked for, and passes over the empty ones. So it lists the last blocks exactly when no slot it
looks at is empty, or no block is indexed below them.
-/

namespace Nocostcoin

open Execution

/-- Taking the first entries before or after a partial map comes to the same exactly if the map takes them all,
or none of the others. -/
theorem filterMap_take_eq_iff {α β : Type*} (f : α → Option β) (l : List α) (n : ℕ) :
    (l.take n).filterMap f = (l.filterMap f).take n ↔
      (∀ x ∈ l.take n, (f x).isSome) ∨ ∀ x ∈ l.drop n, f x = none := by
  have hsplit : l.filterMap f = (l.take n).filterMap f ++ (l.drop n).filterMap f := by
    rw [← List.filterMap_append, List.take_append_drop]
  have hfirst : ((l.take n).filterMap f).length ≤ n :=
    (List.length_filterMap_le f _).trans (List.length_take_le n l)
  rw [hsplit, List.take_append, List.take_of_length_le hfirst, List.self_eq_append_right, List.take_eq_nil_iff,
    List.filterMap_eq_nil_iff, ← List.filterMap_length_eq_length]
  refine or_congr_left' fun hrest => ?_
  -- some other entry is taken, so there are others
  obtain ⟨x, hx⟩ : ∃ x, x ∈ l.drop n := by
    by_contra hnone
    exact hrest fun x hx => absurd ⟨x, hx⟩ hnone
  have hlength : (l.take n).length = n := by
    have := List.length_pos_of_mem hx
    rw [List.length_drop] at this
    rw [List.length_take]
    omega
  omega

/-- In a list that goes down strictly, a relation of each entry to the later ones is one of it to the smaller
ones. -/
theorem pairwise_iff_of_descending {α : Type*} {rank : α → ℕ} {relation : α → α → Prop} {l : List α}
    (hdown : l.Pairwise fun a b => rank b < rank a) :
    l.Pairwise relation ↔ ∀ a ∈ l, ∀ b ∈ l, rank b < rank a → relation a b := by
  induction hdown with
  | nil => simp
  | @cons first rest hfirst hrest ih =>
    rw [List.pairwise_cons, ih, List.forall_mem_cons]
    constructor
    · rintro ⟨hbelow, hothers⟩
      refine ⟨fun b hb hlt => ?_, fun a ha b hb hlt => ?_⟩
      · obtain rfl | hb := List.mem_cons.mp hb
        · exact absurd hlt (lt_irrefl _)
        · exact hbelow b hb
      · obtain rfl | hb := List.mem_cons.mp hb
        · exact absurd (hlt.trans (hfirst a ha)) (lt_irrefl _)
        · exact hothers a ha b hb hlt
    · rintro ⟨hbelow, hothers⟩
      exact ⟨fun b hb => hbelow b (List.mem_cons_of_mem first hb) (hfirst b hb),
        fun a ha b hb => hothers a ha b (List.mem_cons_of_mem first hb)⟩

namespace Chain

/-- The block that the height index names for a slot. -/
def blockAt (chain : Chain) (slot : UInt64) : Option Block :=
  (chain.storage.getBlockByHeight slot).bind chain.getBlock

/-- The loop of `GetBlocks`: so many slots downwards, not below zero. -/
def blocksDownFrom (chain : Chain) : ℕ → UInt64 → List Block
  | 0, _ => []
  | limit + 1, height =>
    let found := (chain.blockAt height).toList
    if height = 0 then found else found ++ chain.blocksDownFrom limit (height - 1)

/-- `u64::MAX`, which stands for the head. -/
def fromHead : UInt64 := 0xFFFFFFFFFFFFFFFF

/-- `GetBlocks`; it panics when the head block is not stored. -/
def getBlocks (chain : Chain) (startHeightOpt : UInt64) (limit : ℕ) : Option (List Block) :=
  chain.getHeight.map fun headHeight =>
    let startHeight := if startHeightOpt = fromHead then headHeight else min startHeightOpt headHeight
    chain.blocksDownFrom limit startHeight

/-- `GetBlocksQuery`. -/
structure GetBlocksQuery where
  startHeight : Option UInt64
  limit : Option ℕ

/-- `handle_get_blocks`. -/
def handleGetBlocks (chain : Chain) (query : GetBlocksQuery) : Option (List Block) :=
  chain.getBlocks (query.startHeight.getD fromHead) (query.limit.getD 10)

/-- The slots from one down to zero. -/
def slotsDown : ℕ → List UInt64
  | 0 => [0]
  | slot + 1 => UInt64.ofNat (slot + 1) :: slotsDown slot

/-- The blocks in the height index at slots not above one, the most recent first. -/
def indexedDown (chain : Chain) (top : UInt64) : List Block :=
  (slotsDown top.toNat).filterMap chain.blockAt

/-- The listing returns the most recent indexed blocks up to the start and to the head, as many as asked for if
there are so many, in strictly descending order of their slots. -/
def ListsRecent (chain : Chain) (startHeight : UInt64) (limit : ℕ) : Prop :=
  ∃ head blocks, chain.getHead = some head ∧ chain.getBlocks startHeight limit = some blocks ∧
    blocks = (chain.indexedDown (min startHeight head.header.slot)).take limit ∧
    blocks.Pairwise fun a b => b.header.slot < a.header.slot

/-- Every one of so many slots down from the top has an indexed block, or no slot below them has. -/
def Unbroken (chain : Chain) (top : UInt64) (limit : ℕ) : Prop :=
  (∀ slot ≤ top, top.toNat < slot.toNat + limit → (chain.blockAt slot).isSome) ∨
    ∀ slot : UInt64, slot.toNat + limit ≤ top.toNat → chain.blockAt slot = none

/-- Of two of these slots the later names the block of the later slot. -/
def Falling (chain : Chain) (top : UInt64) (limit : ℕ) : Prop :=
  ∀ slot ≤ top, ∀ slot' < slot, top.toNat < slot'.toNat + limit →
    ∀ a b, chain.blockAt slot = some a → chain.blockAt slot' = some b → b.header.slot < a.header.slot

variable {crypto : Crypto} {host : Host} {chain chain' opened : Chain} {genesisBlock : Block}
  {calls : List (Call Chain Request Bool)} {slot : UInt64}

theorem eq_ofNat_iff {n : ℕ} (hn : n < 2 ^ 64) : slot = UInt64.ofNat n ↔ slot.toNat = n := by
  rw [← UInt64.toNat_inj, UInt64.toNat_ofNat_of_lt' hn]

/-- The first slots down are those not too far from the top. -/
theorem mem_take_slotsDown {n : ℕ} (hn : n < 2 ^ 64) (limit : ℕ) :
    slot ∈ (slotsDown n).take limit ↔ slot.toNat ≤ n ∧ n < slot.toNat + limit := by
  induction n generalizing limit with
  | zero =>
    cases limit with
    | zero => simp
    | succ limit =>
      rw [slotsDown, List.take_of_length_le (by simp), List.mem_singleton, ← UInt64.toNat_inj, UInt64.toNat_zero]
      omega
  | succ n ih =>
    cases limit with
    | zero => simp
    | succ limit =>
      rw [slotsDown, List.take_succ_cons, List.mem_cons, ih (by omega), eq_ofNat_iff hn]
      omega

/-- The others are the ones below. -/
theorem mem_drop_slotsDown {n : ℕ} (hn : n < 2 ^ 64) (limit : ℕ) :
    slot ∈ (slotsDown n).drop limit ↔ slot.toNat + limit ≤ n := by
  induction n generalizing limit with
  | zero =>
    cases limit with
    | zero => rw [slotsDown, List.drop_zero, List.mem_singleton, ← UInt64.toNat_inj, UInt64.toNat_zero]; omega
    | succ limit => simp [slotsDown]
  | succ n ih =>
    cases limit with
    | zero =>
      have hrest := ih (by omega) 0
      rw [List.drop_zero] at hrest
      rw [slotsDown, List.drop_zero, List.mem_cons, hrest, eq_ofNat_iff hn]
      omega
    | succ limit =>
      rw [slotsDown, List.drop_succ_cons, ih (by omega)]
      omega

/-- The slots go down strictly. -/
theorem pairwise_slotsDown {n : ℕ} (hn : n < 2 ^ 64) : (slotsDown n).Pairwise fun a b => b.toNat < a.toNat := by
  induction n with
  | zero => exact List.pairwise_singleton ..
  | succ n ih =>
    refine List.pairwise_cons.mpr ⟨fun below hbelow => ?_, ih (by omega)⟩
    have hmem := (mem_drop_slotsDown (by omega) 0).mp hbelow
    rw [UInt64.toNat_ofNat_of_lt' hn]
    omega

/-- The loop looks at the first slots down from its height. -/
theorem blocksDownFrom_eq (chain : Chain) (limit : ℕ) (height : UInt64) :
    chain.blocksDownFrom limit height = ((slotsDown height.toNat).take limit).filterMap chain.blockAt := by
  induction limit generalizing height with
  | zero => rfl
  | succ limit ih =>
    rw [blocksDownFrom]
    by_cases hzero : height = 0
    · rw [if_pos hzero, hzero, UInt64.toNat_zero, slotsDown, List.take_of_length_le (by simp)]
      cases hat : chain.blockAt 0 <;> simp [hat]
    · obtain ⟨below, hbelow⟩ : ∃ below, height.toNat = below + 1 := by
        refine Nat.exists_eq_succ_of_ne_zero fun hnone => hzero ?_
        rw [← UInt64.toNat_inj, hnone, UInt64.toNat_zero]
      have hnext : (height - 1).toNat = below := by
        have hone : (1 : UInt64).toNat = 1 := rfl
        rw [UInt64.toNat_sub_of_le _ _ (UInt64.le_iff_toNat_le.mpr (by omega)), hone, hbelow, Nat.add_sub_cancel]
      have hthis : UInt64.ofNat (below + 1) = height := ((eq_ofNat_iff (hbelow ▸ height.toNat_lt)).mpr hbelow).symm
      rw [if_neg hzero, ih, hnext, hbelow, slotsDown, hthis, List.take_succ_cons]
      cases hat : chain.blockAt height <;> simp [hat]

/-- The handler goes down from the start or from the head, whichever is lower. -/
theorem getBlocks_eq {head : Block} (hhead : chain.getHead = some head) (startHeight : UInt64) (limit : ℕ) :
    chain.getBlocks startHeight limit = some (chain.blocksDownFrom limit (min startHeight head.header.slot)) := by
  rw [getBlocks, getHeight, hhead, Option.map_some, Option.map_some]
  dsimp only
  split
  · rename_i hstart
    have hbelow : head.header.slot ≤ fromHead := by
      rw [UInt64.le_iff_toNat_le]
      exact Nat.le_of_lt_succ head.header.slot.toNat_lt
    change _ = some (chain.blocksDownFrom limit (if startHeight ≤ head.header.slot then _ else _))
    split
    · rename_i habove
      rw [hstart] at habove ⊢
      rw [UInt64.le_antisymm hbelow habove]
    · rfl
  · rfl

/-- What the loop finds is what is most recent exactly if nothing breaks it. -/
theorem blocksDownFrom_eq_take_iff (chain : Chain) (top : UInt64) (limit : ℕ) :
    chain.blocksDownFrom limit top = (chain.indexedDown top).take limit ↔ chain.Unbroken top limit := by
  rw [blocksDownFrom_eq, indexedDown, filterMap_take_eq_iff, Unbroken]
  refine or_congr (forall_congr' fun slot => ?_) (forall_congr' fun slot => ?_)
  · rw [mem_take_slotsDown top.toNat_lt, and_imp, UInt64.le_iff_toNat_le]
  · rw [mem_drop_slotsDown top.toNat_lt]

/-- What the loop finds goes down strictly exactly if the slots that the index names do. -/
theorem pairwise_blocksDownFrom_iff (chain : Chain) (top : UInt64) (limit : ℕ) :
    ((chain.blocksDownFrom limit top).Pairwise fun a b => b.header.slot < a.header.slot) ↔
      chain.Falling top limit := by
  have hdown : ((slotsDown top.toNat).take limit).Pairwise fun a b => b.toNat < a.toNat :=
    (pairwise_slotsDown top.toNat_lt).sublist (List.take_sublist ..)
  rw [blocksDownFrom_eq, List.pairwise_filterMap, pairwise_iff_of_descending hdown, Falling]
  simp only [mem_take_slotsDown top.toNat_lt, ← UInt64.lt_iff_toNat_lt, ← UInt64.le_iff_toNat_le]
  constructor
  · intro h slot hslot slot' hbelow hnear a b ha hb
    have hlt := UInt64.lt_iff_toNat_lt.mp hbelow
    exact h slot ⟨hslot, by omega⟩ slot' ⟨UInt64.le_trans (UInt64.le_of_lt hbelow) hslot, hnear⟩ hbelow a ha b hb
  · rintro h slot ⟨hslot, -⟩ slot' ⟨-, hnear⟩ hbelow a ha b hb
    exact h slot hslot slot' hbelow hnear a b ha hb

/-- The listing is right exactly if nothing breaks it and the slots fall. -/
theorem listsRecent_iff (chain : Chain) (startHeight : UInt64) (limit : ℕ) :
    chain.ListsRecent startHeight limit ↔ ∃ head, chain.getHead = some head ∧
      chain.Unbroken (min startHeight head.header.slot) limit ∧
      chain.Falling (min startHeight head.header.slot) limit := by
  refine exists_congr fun head => ?_
  constructor
  · rintro ⟨blocks, hhead, hlisted, hrecent, hdown⟩
    rw [getBlocks_eq hhead, Option.some_inj] at hlisted
    refine ⟨hhead, (blocksDownFrom_eq_take_iff ..).mp (hlisted.trans hrecent), ?_⟩
    exact (pairwise_blocksDownFrom_iff ..).mp (hlisted ▸ hdown)
  · rintro ⟨hhead, hunbroken, hfalling⟩
    exact ⟨_, hhead, getBlocks_eq hhead startHeight limit, (blocksDownFrom_eq_take_iff ..).mpr hunbroken,
      (pairwise_blocksDownFrom_iff ..).mpr hfalling⟩

/-- Where every entry names a block of its slot, the slots fall. -/
theorem falling_of_namesStored (hnames : chain.storage.NamesStored) (top : UInt64) (limit : ℕ) :
    chain.Falling top limit := by
  have hown : ∀ slot block, chain.blockAt slot = some block → block.header.slot = slot := by
    intro slot block hat
    obtain ⟨hash, hentry, hblock⟩ := Option.bind_eq_some_iff.mp hat
    obtain ⟨stored, hstored, hslot⟩ := hnames slot hash hentry
    obtain rfl := Option.some.inj (hblock.symm.trans hstored)
    exact hslot
  intro slot _ slot' hbelow _ a b ha hb
  rw [hown slot a ha, hown slot' b hb]
  exact hbelow

/-- The head block is stored and on record as the head. -/
def Headed (chain : Chain) : Prop :=
  chain.storage.head = some chain.head ∧ chain.getHead.isSome

/-- On a reliable database it stays so. -/
theorem headed_of_serve {request : Request} {output : Bool} (hreliable : request.host.Reliable)
    (hheaded : chain.Headed) (h : serve crypto chain request = some (output, chain')) : chain'.Headed := by
  obtain ⟨hrecord, hstored⟩ := hheaded
  cases request with
  | deliver host block =>
    rcases chosen_or_unchosen hreliable (delivery_of_addBlock h) with ⟨-, -, hchosen⟩ | ⟨-, hunchosen⟩
    · obtain ⟨currentHead, -, hhead, hstoredHead⟩ := hchosen.head
      rw [Headed, hhead, hstoredHead, getHead, hhead]
      change _ ∧ (chain'.getBlock _).isSome
      rw [hchosen.getBlock]
      cases Consensus.isBetterBlock block currentHead with
      | true => exact ⟨rfl, by rw [if_pos rfl, if_pos rfl]; rfl⟩
      | false =>
        refine ⟨hrecord, ?_⟩
        rw [if_neg Bool.false_ne_true]
        split
        · rfl
        · exact hstored
    · rw [Headed, hunchosen.head, hunchosen.storedHead, getHead, hunchosen.head]
      change _ ∧ (chain'.getBlock _).isSome
      rw [hunchosen.getBlock]
      exact ⟨hrecord, hstored⟩
  | vote host vote =>
    obtain ⟨votes, stored, finalizedHead, rfl⟩ := serve_vote_frame h
    exact ⟨hrecord, hstored⟩
  | reopen host genesisBlock balances stakes =>
    obtain ⟨accounts, pendingChanges, trie, rfl⟩ := start_frame (start_of_serve h)
    have hsame : chain.storage.opened genesisBlock = chain.storage := by rw [Storage.opened, hrecord]
    have hhead : chain.storage.head.getD genesisBlock.hash = chain.head := by rw [hrecord, Option.getD_some]
    change (chain.storage.opened genesisBlock).head = some (chain.storage.head.getD _) ∧
      ((chain.storage.opened genesisBlock).getBlock (chain.storage.head.getD _)).isSome
    rw [hsame, hhead]
    exact ⟨hrecord, hstored⟩

/-- It is so when a node is set up on a fresh database. -/
theorem headed_of_start {storage : Storage} {balances stakes : List (Bytes × UInt64)}
    (hblocks : storage.blocks = ∅) (hfresh : storage.head = none)
    (hopened : Chain.start crypto host storage genesisBlock balances stakes = some opened) : opened.Headed := by
  obtain ⟨hstored, -, hhead, -⟩ := start_on_fresh hblocks hfresh hopened
  have hfound : opened.getHead = some genesisBlock :=
    (getBlock_of_genesis hstored opened.head).trans (if_pos hhead)
  refine ⟨?_, Option.isSome_of_eq_some hfound⟩
  obtain ⟨accounts, pendingChanges, trie, rfl⟩ := start_frame hopened
  change (storage.opened genesisBlock).head = some (storage.head.getD genesisBlock.hash)
  rw [Storage.opened, hfresh]
  rfl

/-- In a run of blocks that carry the hashes of their headers every entry names a block of its slot. -/
theorem namesStored_of_run {storage : Storage} {balances stakes : List (Bytes × UInt64)}
    (hblocks : storage.blocks = ∅) (hheights : storage.heights = ∅) (hfresh : storage.head = none)
    (hopened : Chain.start crypto host storage genesisBlock balances stakes = some opened)
    (hrun : Run (serve crypto) opened calls chain)
    (hhashed : HeaderHashed crypto (blocksOf genesisBlock calls)) : chain.storage.NamesStored := by
  have hgenesis : genesisBlock ∈ blocksOf genesisBlock calls := List.mem_cons_self
  have hstocked : chain.storage.Stocked genesisBlock (blocksOf genesisBlock calls) ∧
      chain.storage.head ≠ none := by
    refine hrun.invariant
      (fun s : Chain => s.storage.Stocked genesisBlock (blocksOf genesisBlock calls) ∧ s.storage.head ≠ none)
      (fun _ request => ∀ block, request.delivered = some block → block ∈ blocksOf genesisBlock calls)
      ⟨stocked_of_start hblocks hheights hfresh hgenesis hopened, head_of_start hopened⟩ ?_
      fun call hcall block hdelivered => mem_blocksOf hcall hdelivered
    rintro s request output s' ⟨hbefore, hhead⟩ hmem hnext
    have hmaintain : maintain crypto s (.serve request) = some (.inl output, s') := by
      rw [maintain, hnext, Option.map_some]
    have hsupplied : ∀ block, (Upkeep.serve request).delivered = some block →
        block ∈ blocksOf genesisBlock calls := hmem
    exact stocked_of_maintain hhashed hgenesis hsupplied hbefore hhead hmaintain
  exact hstocked.1.indexed

/-- In every run of deliveries, votes and restarts from a fresh database, whatever the blocks are and whichever
writes are refused, and for every start height and limit: the listing is right exactly if the head is stored,
the slots looked at are all indexed or nothing is indexed below them, and the blocks that they name fall. The
head is stored when no write is refused, and the blocks fall when they carry the hashes of their headers. -/
theorem listsRecent_iff_unbroken {storage : Storage} {balances stakes : List (Bytes × UInt64)}
    (hblocks : storage.blocks = ∅) (hheights : storage.heights = ∅) (hfresh : storage.head = none)
    (hopened : Chain.start crypto host storage genesisBlock balances stakes = some opened)
    (hrun : Run (serve crypto) opened calls chain) :
    (∀ startHeight limit, chain.ListsRecent startHeight limit ↔ ∃ head, chain.getHead = some head ∧
        chain.Unbroken (min startHeight head.header.slot) limit ∧
        chain.Falling (min startHeight head.header.slot) limit) ∧
      ((∀ call ∈ calls, call.label.host.Reliable) → chain.getHead.isSome) ∧
      (HeaderHashed crypto (blocksOf genesisBlock calls) → ∀ top limit, chain.Falling top limit) := by
  refine ⟨chain.listsRecent_iff, fun hreliable => ?_, fun hhashed => ?_⟩
  · refine (hrun.invariant Headed (fun _ request => request.host.Reliable)
      (headed_of_start hblocks hfresh hopened) ?_ hreliable).2
    exact fun _ _ _ _ hheaded hhost hnext => headed_of_serve hhost hheaded hnext
  · exact falling_of_namesStored (namesStored_of_run hblocks hheights hfresh hopened hrun hhashed)

/-- A block at slot one, and then one on it at a later slot. -/
def listedRequests (slot : UInt64) : List Request :=
  let first := Sample.block Sample.genesis 1 []
  [.deliver Host.plain first, .deliver Host.plain (Sample.block first slot [])]

/-- After blocks at the slots one and two the last block is listed, and so are the last twenty. -/
theorem listsRecent_iff_unbroken_two :
    ∃ opened calls chain, Sample.start = some opened ∧ Run (serve Crypto.plain) opened calls chain ∧
      calls.map Call.label = listedRequests 2 ∧ chain.ListsRecent fromHead 1 ∧ chain.ListsRecent fromHead 20 := by
  obtain ⟨opened, calls, chain, hstart, hrun, hlabels, hcheck⟩ := Run.exists_of_trace_from
    (serve Crypto.plain) Sample.start (listedRequests 2)
    (fun _ calls chain => decide (HeaderHashed Crypto.plain (blocksOf Sample.genesis calls) ∧
      chain.getHead = some (Sample.block (Sample.block Sample.genesis 1 []) 2 []) ∧
      (chain.blockAt 2).isSome))
    (by decide +kernel)
  obtain ⟨hhashed, hhead, htwo⟩ := of_decide_eq_true hcheck
  obtain ⟨hlists, -, hfalling⟩ := listsRecent_iff_unbroken rfl rfl rfl hstart hrun
  refine ⟨opened, calls, chain, hstart, hrun, hlabels, ?_, ?_⟩
  · refine (hlists fromHead 1).mpr ⟨_, hhead, .inl fun slot hslot hnear => ?_, hfalling hhashed _ 1⟩
    change slot ≤ 2 at hslot
    change (2 : UInt64).toNat < slot.toNat + 1 at hnear
    have hbound := UInt64.le_iff_toNat_le.mp hslot
    obtain rfl : slot = 2 := UInt64.toNat_inj.mp (by omega)
    exact htwo
  · refine (hlists fromHead 20).mpr ⟨_, hhead, .inr fun slot hbelow => ?_, hfalling hhashed _ 20⟩
    change slot.toNat + 20 ≤ (2 : UInt64).toNat at hbelow
    have htwo : (2 : UInt64).toNat = 2 := rfl
    omega

/-- What the explorer asks for. -/
def explorerQuery : GetBlocksQuery where
  startHeight := none
  limit := some 20

/-- After blocks at the slots one and thirty the explorer gets only the second, which is one of two. -/
theorem not_listsRecent_of_gap :
    ∃ opened calls chain, Sample.start = some opened ∧ Run (serve Crypto.plain) opened calls chain ∧
      calls.map Call.label = listedRequests 30 ∧ HeaderHashed Crypto.plain (blocksOf Sample.genesis calls) ∧
      chain.handleGetBlocks explorerQuery = some [Sample.block (Sample.block Sample.genesis 1 []) 30 []] ∧
      chain.indexedDown 30 =
        [Sample.block (Sample.block Sample.genesis 1 []) 30 [], Sample.block Sample.genesis 1 []] ∧
      ¬ chain.ListsRecent fromHead 20 := by
  obtain ⟨opened, calls, chain, hstart, hrun, hlabels, hcheck⟩ := Run.exists_of_trace_from
    (serve Crypto.plain) Sample.start (listedRequests 30)
    (fun _ calls chain => decide (HeaderHashed Crypto.plain (blocksOf Sample.genesis calls) ∧
      chain.getHead = some (Sample.block (Sample.block Sample.genesis 1 []) 30 []) ∧
      chain.handleGetBlocks explorerQuery = some [Sample.block (Sample.block Sample.genesis 1 []) 30 []] ∧
      chain.indexedDown 30 =
        [Sample.block (Sample.block Sample.genesis 1 []) 30 [], Sample.block Sample.genesis 1 []]))
    (by decide +kernel)
  obtain ⟨hhashed, hhead, hlisted, hindexed⟩ := of_decide_eq_true hcheck
  refine ⟨opened, calls, chain, hstart, hrun, hlabels, hhashed, hlisted, hindexed, ?_⟩
  rintro ⟨head, blocks, hhead', hblocks, hrecent, -⟩
  obtain rfl := Option.some.inj (hhead.symm.trans hhead')
  obtain rfl := Option.some.inj (hlisted.symm.trans hblocks)
  have hsame := hrecent.trans (congrArg (List.take 20) hindexed)
  exact absurd (congrArg List.length hsame) (by decide)

end Chain

end Nocostcoin
