import Nocostcoin.Library.Execution
import Nocostcoin.Chain.Acceptance
import Nocostcoin.Chain.Opening
import Nocostcoin.Node

/-!
# Stored blocks

A block is stored under the hash it carries, and nothing in `add_block` compares that hash with
the header. Stored blocks are immutable exactly in the runs in which every block that passes the
checks carries the hash of its own header and meets no other block under it.
-/

namespace Nocostcoin

open Execution

namespace Chain

variable {crypto : Crypto} {chain chain' : Chain} {request : Request} {output : Bool}

/-- The stored blocks after a request. -/
def blocksAfter (chain : Chain) (request : Request) (output : Bool) : FiniteMap String Block :=
  match request with
  | .deliver _ block =>
    if output then chain.storage.blocks.insert block.hash block else chain.storage.blocks
  | _ => chain.storage.blocks

/-- Once there is a head, a request on a reliable database stores the accepted block and nothing
else, and it accepts the blocks that pass. -/
theorem blocks_of_serve (hreliable : request.host.Reliable) (hhead : chain.storage.head ≠ none)
    (h : serve crypto chain request = some (output, chain')) :
    chain'.storage.head ≠ none ∧ chain'.storage.blocks = chain.blocksAfter request output ∧
      ∀ host block, request = .deliver host block →
        (output = true ↔ ∃ parent, chain.Passes crypto block parent) := by
  cases request with
  | deliver host block =>
    have hdelivery := delivery_of_addBlock h
    refine ⟨?_, ?_, ?_⟩
    · rcases acceptance_or_rejection hreliable hdelivery with ⟨-, haccept⟩ | ⟨-, -, hreject⟩
      · rcases haccept.storedHead with hnew | hsame
        · simp [hnew]
        · rwa [hsame]
      · rwa [hreject.storedHead]
    · rcases acceptance_or_rejection hreliable hdelivery with ⟨rfl, haccept⟩ | ⟨rfl, -, hreject⟩
      · exact haccept.blocks
      · exact hreject.blocks
    · intro other block' heq
      obtain ⟨rfl, rfl⟩ := Request.deliver.inj heq
      exact accepted_iff_passes hreliable hdelivery
  | vote host vote =>
    obtain ⟨votes, stored, finalizedHead, rfl⟩ := serve_vote_frame h
    exact ⟨hhead, rfl, by simp⟩
  | reopen host genesisBlock balances stakes =>
    have hstart := start_of_serve h
    obtain ⟨trie, rfl⟩ := start_eq hreliable hstart
    obtain ⟨head, hsome⟩ := Option.ne_none_iff_exists'.mp hhead
    have hopened : chain.storage.opened genesisBlock = chain.storage := by
      rw [Storage.opened, hsome]
    refine ⟨?_, ?_, by simp⟩
    · change (chain.storage.opened genesisBlock).head ≠ none
      rwa [hopened]
    · change (chain.storage.opened genesisBlock).blocks = chain.storage.blocks
      rw [hopened]

/-- A delivered block that passes the checks carries the hash of its header, unless it is the
genesis block, and no other block is stored under that hash. -/
def HashBound (crypto : Crypto) (genesisBlock : Block) (chain : Chain) (request : Request) : Prop :=
  ∀ host block parent, request = .deliver host block → chain.Passes crypto block parent →
    (block = genesisBlock ∨ block.hash = Block.calculateHash crypto block.header) ∧
      ∀ other, chain.getBlock block.hash = some other → other = block

/-- A stored block is the genesis block or lies under the hash of its header. -/
def Keyed (crypto : Crypto) (genesisBlock : Block) (chain : Chain) : Prop :=
  ∀ hash block, chain.getBlock hash = some block →
    (hash = genesisBlock.hash ∧ block = genesisBlock) ∨
      hash = Block.calculateHash crypto block.header

/-- In every later state of a run an accepted block is found under its hash, every stored block is
keyed by its header, and no call replaces a stored block. -/
structure Immutable (crypto : Crypto) (genesisBlock : Block) (calls : List (Call Chain Request Bool)) :
    Prop where
  accepted : ∀ before call after host block, calls = before ++ call :: after →
    call.label = .deliver host block → call.output = true →
    ∀ later ∈ call :: after, later.post.getBlock block.hash = some block
  keyed : ∀ call ∈ calls, call.post.Keyed crypto genesisBlock
  kept : ∀ call ∈ calls, ∀ hash block, call.pre.getBlock hash = some block →
    call.post.getBlock hash = some block

/-- A hash-bound request replaces no stored block and keeps the blocks keyed. -/
theorem keyed_of_serve {genesisBlock : Block} (hreliable : request.host.Reliable)
    (hhead : chain.storage.head ≠ none) (hkeyed : chain.Keyed crypto genesisBlock)
    (hbound : HashBound crypto genesisBlock chain request)
    (h : serve crypto chain request = some (output, chain')) :
    chain'.Keyed crypto genesisBlock ∧
      ∀ hash block, chain.getBlock hash = some block → chain'.getBlock hash = some block := by
  obtain ⟨-, hblocks, haccepts⟩ := blocks_of_serve hreliable hhead h
  by_cases hstored : ∃ host block, request = .deliver host block ∧ output = true
  · obtain ⟨host, block, rfl, rfl⟩ := hstored
    obtain ⟨parent, hpasses⟩ := (haccepts host block rfl).mp rfl
    obtain ⟨hhash, hsame⟩ := hbound host block parent rfl hpasses
    have hread : ∀ hash, chain'.getBlock hash =
        if hash = block.hash then some block else chain.getBlock hash := by
      intro hash
      unfold getBlock Storage.getBlock
      rw [hblocks]
      exact FiniteMap.lookup_insert_ite _ _ _ _
    constructor
    · intro hash found hfound
      rw [hread] at hfound
      split at hfound
      · rename_i heq
        obtain rfl := Option.some.inj hfound
        rw [heq]
        rcases hhash with rfl | hown
        · exact .inl ⟨rfl, rfl⟩
        · exact .inr hown
      · exact hkeyed hash found hfound
    · intro hash found hfound
      rw [hread]
      split
      · rename_i heq
        rw [heq] at hfound
        rw [hsame found hfound]
      · exact hfound
  · have hkept : chain'.storage.blocks = chain.storage.blocks := by
      rw [hblocks]
      unfold blocksAfter
      split
      · rename_i host block
        rw [if_neg]
        exact fun htrue => hstored ⟨host, block, rfl, htrue⟩
      · rfl
    have hread : ∀ hash, chain'.getBlock hash = chain.getBlock hash := by
      intro hash
      unfold getBlock Storage.getBlock
      rw [hkept]
    refine ⟨fun hash found hfound => hkeyed hash found (hread hash ▸ hfound), ?_⟩
    intro hash found hfound
    rw [hread]
    exact hfound

variable {start : Chain} {calls : List (Call Chain Request Bool)} {call : Call Chain Request Bool}
  {genesisBlock : Block}

/-- Around every call of a run a head is stored, if there was one at its start. -/
theorem head_around (hhead : start.storage.head ≠ none) (hrun : Run (serve crypto) start calls chain)
    (hreliable : ∀ call ∈ calls, call.label.host.Reliable) (hcall : call ∈ calls) :
    call.pre.storage.head ≠ none ∧ call.post.storage.head ≠ none := by
  apply Run.invariant_of_mem (fun s => s.storage.head ≠ none)
    (fun _ request => request.host.Reliable) hhead ?_ hrun hreliable hcall
  intro s request output s' hs hhost hnext
  exact (blocks_of_serve hhost hs hnext).1

/-- A run of hash-bound requests replaces no stored block and keeps the blocks keyed. -/
theorem keyed_of_run (hhead : start.storage.head ≠ none) (hkeyed : start.Keyed crypto genesisBlock)
    (hrun : Run (serve crypto) start calls chain)
    (hreliable : ∀ call ∈ calls, call.label.host.Reliable)
    (hbound : ∀ call ∈ calls, HashBound crypto genesisBlock call.pre call.label) :
    chain.Keyed crypto genesisBlock ∧
      ∀ hash block, start.getBlock hash = some block → chain.getBlock hash = some block := by
  have hinv := Run.invariant (fun s => s.storage.head ≠ none ∧ s.Keyed crypto genesisBlock ∧
      ∀ hash block, start.getBlock hash = some block → s.getBlock hash = some block)
    (fun s request => request.host.Reliable ∧ HashBound crypto genesisBlock s request)
    ⟨hhead, hkeyed, fun _ _ h => h⟩ ?_ hrun
    fun call hcall => ⟨hreliable call hcall, hbound call hcall⟩
  · exact hinv.2
  · intro s request output s' ⟨hhead, hkeyed, hkept⟩ ⟨hhost, hbound⟩ hnext
    obtain ⟨hkeyedAfter, hkeptAfter⟩ := keyed_of_serve hhost hhead hkeyed hbound hnext
    exact ⟨(blocks_of_serve hhost hhead hnext).1, hkeyedAfter,
      fun hash block hblock => hkeptAfter hash block (hkept hash block hblock)⟩

/-- Every single call of such a run does. -/
theorem keyed_around (hhead : start.storage.head ≠ none) (hkeyed : start.Keyed crypto genesisBlock)
    (hrun : Run (serve crypto) start calls chain)
    (hreliable : ∀ call ∈ calls, call.label.host.Reliable)
    (hbound : ∀ call ∈ calls, HashBound crypto genesisBlock call.pre call.label) (hcall : call ∈ calls) :
    call.post.Keyed crypto genesisBlock ∧
      ∀ hash block, call.pre.getBlock hash = some block → call.post.getBlock hash = some block := by
  have hpre := (head_around hhead hrun hreliable hcall).1
  have hnext := hrun.next_of_mem hcall
  have hhost := hreliable call hcall
  have hown := hbound call hcall
  obtain ⟨before, after, rfl⟩ := List.append_of_mem hcall
  have hbefore := keyed_of_run hhead hkeyed hrun.around.1
    (fun earlier hearlier => hreliable earlier (List.mem_append_left _ hearlier))
    fun earlier hearlier => hbound earlier (List.mem_append_left _ hearlier)
  exact keyed_of_serve hhost hpre hbefore.1 hown hnext

/-- A call that accepts a block stores it under its hash. -/
theorem getBlock_of_accepted {host : Host} {block : Block} (hhost : call.label.host.Reliable)
    (hnext : serve crypto call.pre call.label = some (call.output, call.post))
    (hlabel : call.label = .deliver host block) (houtput : call.output = true) :
    call.post.getBlock block.hash = some block := by
  rw [hlabel] at hhost hnext
  rw [houtput] at hnext
  rcases acceptance_or_rejection hhost (delivery_of_addBlock hnext) with ⟨-, haccept⟩ | ⟨hfalse, -⟩
  · unfold getBlock Storage.getBlock
    rw [haccept.blocks]
    exact Finmap.lookup_insert _
  · simp at hfalse

/-- In such a run an accepted block is found under its hash after every later call. -/
theorem getBlock_of_later (hhead : start.storage.head ≠ none) (hkeyed : start.Keyed crypto genesisBlock)
    {before after : List (Call Chain Request Bool)} {host : Host} {block : Block}
    (hrun : Run (serve crypto) start (before ++ call :: after) chain)
    (hreliable : ∀ other ∈ before ++ call :: after, other.label.host.Reliable)
    (hbound : ∀ other ∈ before ++ call :: after,
      HashBound crypto genesisBlock other.pre other.label)
    (hlabel : call.label = .deliver host block) (houtput : call.output = true) :
    ∀ later ∈ call :: after, later.post.getBlock block.hash = some block := by
  intro later hlater
  have hcall : call ∈ before ++ call :: after := List.mem_append_right _ List.mem_cons_self
  have hpost := getBlock_of_accepted (hreliable call hcall) (hrun.next_of_mem hcall) hlabel houtput
  rcases List.mem_cons.mp hlater with rfl | hafter
  · exact hpost
  · -- the stretch from this call to the later one keeps what is stored
    obtain ⟨between, rest, rfl⟩ := List.append_of_mem hafter
    have hlaterMem : later ∈ before ++ call :: (between ++ later :: rest) := by simp
    have hbetweenMem : ∀ other ∈ between, other ∈ before ++ call :: (between ++ later :: rest) := by
      intro other hother
      simp [hother]
    have hkept := (keyed_of_run (head_around hhead hrun hreliable hcall).2
      (keyed_around hhead hkeyed hrun hreliable hbound hcall).1 hrun.around.2.around.1
      (fun other hother => hreliable other (hbetweenMem other hother))
      fun other hother => hbound other (hbetweenMem other hother)).2
    exact (keyed_around hhead hkeyed hrun hreliable hbound hlaterMem).2 _ _ (hkept _ _ hpost)

/-- A node set up on a database without blocks stores a head, and its blocks are keyed. -/
theorem keyed_of_start {host : Host} {storage : Storage} {balances stakes : List (Bytes × UInt64)}
    (hblocks : storage.blocks = ∅) (hfresh : storage.head = none) (hhost : host.Reliable)
    (hopened : Chain.start crypto host storage genesisBlock balances stakes = some chain) :
    chain.storage.head ≠ none ∧ chain.Keyed crypto genesisBlock := by
  obtain ⟨trie, rfl⟩ := start_eq hhost hopened
  constructor
  · unfold Chain.storage Storage.opened
    rw [hfresh]
    exact Option.some_ne_none _
  · intro hash block hblock
    unfold getBlock Chain.storage Storage.getBlock Storage.opened at hblock
    rw [hfresh] at hblock
    change (storage.blocks.insert genesisBlock.hash genesisBlock).lookup hash = some block at hblock
    rw [hblocks, FiniteMap.lookup_insert_ite] at hblock
    split at hblock
    · rename_i heq
      exact .inl ⟨heq, (Option.some.inj hblock).symm⟩
    · simp at hblock

/-- In every run on reliable databases from a fresh database, over deliveries of any blocks, votes
and restarts: stored blocks are immutable and keyed by their headers exactly when every step is
hash-bound. -/
theorem immutable_iff_hashBound {host : Host} {storage : Storage} {genesisBlock : Block}
    {balances stakes : List (Bytes × UInt64)} {opened : Chain} (hblocks : storage.blocks = ∅)
    (hfresh : storage.head = none) (hhost : host.Reliable)
    (hopened : Chain.start crypto host storage genesisBlock balances stakes = some opened)
    (hrun : Run (serve crypto) opened calls chain)
    (hreliable : ∀ call ∈ calls, call.label.host.Reliable) :
    Immutable crypto genesisBlock calls ↔
      ∀ call ∈ calls, HashBound crypto genesisBlock call.pre call.label := by
  obtain ⟨hhead, hkeyed⟩ := keyed_of_start hblocks hfresh hhost hopened
  constructor
  · intro himmutable call hcall host block parent hlabel hpasses
    have hnext := hrun.next_of_mem hcall
    obtain ⟨-, -, haccepts⟩ :=
      blocks_of_serve (hreliable call hcall) (head_around hhead hrun hreliable hcall).1 hnext
    have houtput : call.output = true := (haccepts host block hlabel).mpr ⟨parent, hpasses⟩
    have hpost := getBlock_of_accepted (hreliable call hcall) hnext hlabel houtput
    refine ⟨?_, fun other hother => ?_⟩
    · rcases himmutable.keyed call hcall block.hash block hpost with ⟨-, hgenesis⟩ | hown
      · exact .inl hgenesis
      · exact .inr hown
    · have hkept := himmutable.kept call hcall block.hash other hother
      exact (Option.some.inj (hpost.symm.trans hkept)).symm
  · intro hbound
    refine ⟨?_, fun call hcall => ?_, fun call hcall => ?_⟩
    · intro before call after host block hsplit hlabel houtput
      subst hsplit
      exact getBlock_of_later hhead hkeyed hrun hreliable hbound hlabel houtput
    · exact (keyed_around hhead hkeyed hrun hreliable hbound hcall).1
    · exact (keyed_around hhead hkeyed hrun hreliable hbound hcall).2

/-- A block of the validator, and a child of it that carries its parent's hash. -/
def selfParentRequests : List Request :=
  let first := Sample.block Sample.genesis 1 []
  let forged := { Sample.block first 2 [] with hash := first.hash }
  [.deliver Host.plain first, .deliver Host.plain forged]

/-- Both are accepted, and the second replaces the first: the stored block is its own parent. -/
theorem accepted_block_replaced :
    ∃ opened calls chain, Sample.start = some opened ∧ Run (serve Crypto.plain) opened calls chain ∧
      calls.map Call.label = selfParentRequests ∧ calls.map Call.output = [true, true] ∧
      ¬ Immutable Crypto.plain Sample.genesis calls := by
  obtain ⟨opened, calls, chain, hstart, hrun, hlabels, hcheck⟩ := Run.exists_of_trace_from
    (serve Crypto.plain) Sample.start selfParentRequests
    (fun _ calls chain => decide (calls.map Call.output = [true, true] ∧
      calls.map (fun call => call.post.getBlock (Sample.block Sample.genesis 1 []).hash) =
        [some (Sample.block Sample.genesis 1 []),
          some { Sample.block (Sample.block Sample.genesis 1 []) 2 [] with
            hash := (Sample.block Sample.genesis 1 []).hash }])) (by decide +kernel)
  obtain ⟨houtputs, hposts⟩ := of_decide_eq_true hcheck
  refine ⟨opened, calls, chain, hstart, hrun, hlabels, houtputs, fun himmutable => ?_⟩
  obtain ⟨first, second, rfl, hfirst, -⟩ := Run.calls_of_two hlabels
  have hoks := List.cons.inj houtputs
  have hkept := himmutable.accepted [] first [second] _ _ rfl hfirst hoks.1 second (by simp)
  have hreplaced := (List.cons.inj (List.cons.inj hposts).2).1
  have hdiffer : Sample.block Sample.genesis 1 [] ≠
      { Sample.block (Sample.block Sample.genesis 1 []) 2 [] with
        hash := (Sample.block Sample.genesis 1 []).hash } := by decide +kernel
  exact hdiffer (Option.some.inj (hkept.symm.trans hreplaced))

/-- Two honest blocks in a row. -/
def honestRequests : List Request :=
  let first := Sample.block Sample.genesis 1 []
  [.deliver Host.plain first, .deliver Host.plain (Sample.block first 2 [])]

/-- The run over them replaces nothing. -/
theorem immutable_honest :
    ∃ opened calls chain, Sample.start = some opened ∧ Run (serve Crypto.plain) opened calls chain ∧
      calls.map Call.label = honestRequests ∧ calls.map Call.output = [true, true] ∧
      Immutable Crypto.plain Sample.genesis calls := by
  obtain ⟨opened, calls, chain, hstart, hrun, hlabels, hcheck⟩ := Run.exists_of_trace_from
    (serve Crypto.plain) Sample.start honestRequests
    (fun _ calls _ => decide (calls.map Call.output = [true, true] ∧
      ∀ call ∈ calls, ∀ block ∈ call.label.delivered.toList,
        block.hash = Block.calculateHash Crypto.plain block.header ∧
          call.pre.getBlock block.hash = none)) (by decide +kernel)
  obtain ⟨houtputs, hhashes⟩ := of_decide_eq_true hcheck
  have hreliable := Sample.reliable_of_labels hlabels (by simp [honestRequests, Request.host])
  refine ⟨opened, calls, chain, hstart, hrun, hlabels, houtputs,
    (immutable_iff_hashBound rfl rfl Host.plain_reliable hstart hrun hreliable).mpr ?_⟩
  intro call hcall host block parent hlabel hpasses
  have hhash := hhashes call hcall block (by simp [hlabel, Request.delivered])
  refine ⟨.inr hhash.1, fun other hother => ?_⟩
  rw [hhash.2] at hother
  contradiction

end Chain

end Nocostcoin
