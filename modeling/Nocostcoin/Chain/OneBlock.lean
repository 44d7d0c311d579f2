import Nocostcoin.Chain.Equivocation

/-!
# One block for a slot and validator

Once a header is on record, another block of the same slot and validator is rejected and costs the
validator its stake, as long as the two blocks carry different hashes, the parent of the later one is
stored, and the record survives restarts.
-/

namespace Nocostcoin

open Execution

namespace ValidatorSet

/-- Slashing takes the stake of a registered validator that was not slashed. -/
theorem stake_slashValidator {set : ValidatorSet} {pubkey : Bytes}
    (hregistered : set.isValidator pubkey = true) (hunslashed : set.isSlashed pubkey = false) :
    ((set.slashValidator pubkey).2.validators.lookup pubkey).map ValidatorInfo.stake = some 0 := by
  unfold isValidator at hregistered
  obtain ⟨validator, hvalidator⟩ := Option.isSome_iff_exists.mp hregistered
  unfold isSlashed at hunslashed
  rw [hvalidator, Option.any_some] at hunslashed
  unfold slashValidator
  rw [hvalidator]
  dsimp only
  rw [if_neg (by simp [hunslashed]), Finmap.lookup_insert]
  rfl

end ValidatorSet

namespace Chain

variable {crypto : Crypto} {host : Host} {chain chain' : Chain} {block : Block} {accepted : Bool}
  {slot : UInt64} {pubkey : Bytes} {hash : String}

/-- The same hash is on record over the same recorded headers. -/
theorem existingHash_congr (hseen : chain'.seenHeaders = chain.seenHeaders)
    (hheaders : chain'.storage.headers = chain.storage.headers) (slot : UInt64) (pubkey : Bytes) :
    chain'.existingHash slot pubkey = chain.existingHash slot pubkey := by
  unfold existingHash Storage.getSeenHeader
  rw [hseen, hheaders]

/-- Recording a header enters its hash where none is on record, whether or not the database takes it. -/
theorem existingHash_recordHeader (host : Host) (chain : Chain) (block : Block) (slot : UInt64)
    (pubkey : Bytes) :
    (chain.recordHeader host block).existingHash slot pubkey =
      if (slot, pubkey) = (block.header.slot, block.header.validatorPubkey) then
        some ((chain.existingHash slot pubkey).getD block.hash)
      else chain.existingHash slot pubkey := by
  unfold recordHeader
  split
  · rename_i existing hexisting
    split
    · rename_i hkey
      obtain ⟨rfl, rfl⟩ := Prod.mk.inj hkey
      rw [hexisting]
      rfl
    · rfl
  · rename_i hnone
    unfold existingHash Storage.getSeenHeader
    dsimp only
    split
    · rename_i hkey
      obtain ⟨rfl, rfl⟩ := Prod.mk.inj hkey
      unfold existingHash Storage.getSeenHeader at hnone
      rw [hnone]
      change ((chain.seenHeaders.insert _ block.hash).lookup _).or _ = _
      rw [Finmap.lookup_insert]
      rfl
    · rename_i hkey
      change ((chain.seenHeaders.insert _ block.hash).lookup _).or _ = _
      rw [Finmap.lookup_insert_of_ne _ hkey]
      congr 1
      unfold logged Storage.storeSeenHeader Storage.write
      split
      · exact Finmap.lookup_insert_of_ne _ hkey
      · rfl

/-- The header of a consistent block is on record once it was recorded. -/
theorem existingHash_of_consistent (hconsistent : chain.Consistent block) :
    (chain.recordHeader host block).existingHash block.header.slot block.header.validatorPubkey =
      some block.hash := by
  rw [existingHash_recordHeader, if_pos rfl]
  cases hexisting : chain.existingHash block.header.slot block.header.validatorPubkey with
  | none => rfl
  | some existing => rw [hconsistent existing hexisting, Option.getD_some]

/-- What is on record stays on record while headers are recorded. -/
theorem existingHash_kept (host : Host) (block : Block)
    (hrecord : chain.existingHash slot pubkey = some hash) :
    (chain.recordHeader host block).existingHash slot pubkey = some hash := by
  rw [existingHash_recordHeader, hrecord]
  split <;> rfl

/-- After a delivery that got past the equivocation check the records are those with the header. -/
theorem existingHash_of_execution {result : Except String Unit} {state : State}
    (hexec : processTransactions crypto (chain.recordHeader host block).state.discardChanges
      block.transactions = (result, state)) (slot : UInt64) (pubkey : Bytes) :
    ((chain.recordHeader host block).withState state).existingHash slot pubkey =
      (chain.recordHeader host block).existingHash slot pubkey := by
  apply existingHash_congr
  · rfl
  · exact congrArg Storage.headers (storage_of_execution hexec)

/-- The records after a delivery: those before, or those with the header of a consistent block. -/
theorem existingHash_of_delivery (h : Delivery crypto host chain block accepted chain') :
    (accepted = false ∧ ∀ slot pubkey, chain'.existingHash slot pubkey = chain.existingHash slot pubkey) ∨
      (chain.Consistent block ∧ ∀ slot pubkey, chain'.existingHash slot pubkey =
        (chain.recordHeader host block).existingHash slot pubkey) := by
  cases h with
  | orphan | equivocation => exact .inl ⟨rfl, fun _ _ => rfl⟩
  | invalid _ hconsistent => exact .inr ⟨hconsistent, fun _ _ => rfl⟩
  | failed _ hconsistent _ hexec | mismatch _ hconsistent _ hexec =>
    have hafter := existingHash_of_execution hexec
    exact .inr ⟨hconsistent, hafter⟩
  | commit _ hconsistent _ hexec _ hcommit =>
    refine .inr ⟨hconsistent, fun slot pubkey => ?_⟩
    have hframe := commitBlock_frame hcommit
    rw [existingHash_congr hframe.seenHeaders hframe.headers, existingHash_of_execution hexec]

/-- An accepted block is on record. -/
theorem existingHash_of_accepted (h : Delivery crypto host chain block true chain') :
    chain'.existingHash block.header.slot block.header.validatorPubkey = some block.hash := by
  rcases existingHash_of_delivery h with ⟨hfalse, -⟩ | ⟨hconsistent, hafter⟩
  · simp at hfalse
  · rw [hafter, existingHash_of_consistent hconsistent]

/-- Every header in memory is on disk as well. -/
def HeadersOnDisk (chain : Chain) : Prop :=
  ∀ slot pubkey hash, chain.seenHeaders.lookup (slot, pubkey) = some hash →
    chain.storage.getSeenHeader slot pubkey = some hash

/-- A restart happens only when every header in memory is on disk. -/
def RestartsSafely (call : Call Chain Request Bool) : Prop :=
  ∀ host genesisBlock balances stakes, call.label = .reopen host genesisBlock balances stakes →
    call.pre.HeadersOnDisk

/-- What is on record stays on record through every call, up to restarts that lose headers. -/
theorem existingHash_of_serve {request : Request} {output : Bool}
    (h : serve crypto chain request = some (output, chain'))
    (hsafe : RestartsSafely ⟨chain, request, output, chain'⟩)
    (hrecord : chain.existingHash slot pubkey = some hash) :
    chain'.existingHash slot pubkey = some hash := by
  cases request with
  | deliver host block =>
    rcases existingHash_of_delivery (delivery_of_addBlock h) with ⟨-, hafter⟩ | ⟨-, hafter⟩
    · rw [hafter, hrecord]
    · rw [hafter, existingHash_kept host block hrecord]
  | vote host vote =>
    obtain ⟨votes, stored, finalizedHead, rfl⟩ := serve_vote_frame h
    exact hrecord
  | reopen host genesisBlock balances stakes =>
    have hstart := start_of_serve h
    obtain ⟨hseen, hheaders, -⟩ := records_of_start hstart
    have hdisk : chain.storage.getSeenHeader slot pubkey = some hash := by
      unfold existingHash at hrecord
      rcases Option.or_eq_some_iff.mp hrecord with hmemory | ⟨-, hdisk⟩
      · exact hsafe host genesisBlock balances stakes rfl slot pubkey hash hmemory
      · exact hdisk
    unfold existingHash
    rw [hseen, Finmap.lookup_empty, Option.none_or, Storage.getSeenHeader, hheaders]
    exact hdisk

/-- Two blocks of one slot and validator. -/
def SameSlot (block other : Block) : Prop :=
  other.header.slot = block.header.slot ∧ other.header.validatorPubkey = block.header.validatorPubkey

/-- A call that delivers a block and leaves the block's header on record. -/
def Records (call : Call Chain Request Bool) (block : Block) : Prop :=
  call.label.delivered = some block ∧
    call.post.existingHash block.header.slot block.header.validatorPubkey = some block.hash

/-- A delivered block other than a recorded one of its slot and validator carries another hash, and
builds on a stored parent if the validator can still be slashed. -/
def ToldApart (before : List (Call Chain Request Bool)) (call : Call Chain Request Bool) : Prop :=
  ∀ earlier ∈ before, ∀ block other, Records earlier block → call.label.delivered = some other →
    SameSlot block other → block ≠ other → block.hash ≠ other.hash ∧
      (call.pre.validators.isValidator other.header.validatorPubkey = true →
        call.pre.validators.isSlashed other.header.validatorPubkey = false →
        (call.pre.getBlock other.header.parentHash).isSome)

/-- A call that rejects a block and takes the stake of its validator, if there was one to take. -/
structure Punishes (call : Call Chain Request Bool) (block : Block) : Prop where
  rejected : call.output = false
  slashed : call.pre.validators.isValidator block.header.validatorPubkey = true →
    call.pre.validators.isSlashed block.header.validatorPubkey = false →
    (call.post.validators.validators.lookup block.header.validatorPubkey).map ValidatorInfo.stake = some 0

/-- A block over a stored parent with another hash than the one on record is rejected and takes the
validator's stake; over an unknown parent it is rejected. -/
theorem punishes_of_delivery {output : Bool} {existing : String}
    (h : addBlock crypto host chain block = some (output, chain'))
    (hexisting : chain.existingHash block.header.slot block.header.validatorPubkey = some existing)
    (hne : existing ≠ block.hash)
    (hparent : chain.validators.isValidator block.header.validatorPubkey = true →
      chain.validators.isSlashed block.header.validatorPubkey = false →
      (chain.getBlock block.header.parentHash).isSome) :
    Punishes ⟨chain, .deliver host block, output, chain'⟩ block := by
  have hinconsistent : ¬ chain.Consistent block := fun hconsistent => hne (hconsistent existing hexisting)
  cases delivery_of_addBlock h with
  | orphan hnone =>
    refine ⟨rfl, fun hregistered hunslashed => ?_⟩
    have hstored := hparent hregistered hunslashed
    rw [hnone] at hstored
    simp at hstored
  | equivocation =>
    exact ⟨rfl, fun hregistered hunslashed =>
      ValidatorSet.stake_slashValidator hregistered hunslashed⟩
  | invalid _ hconsistent | failed _ hconsistent | mismatch _ hconsistent | commit _ hconsistent =>
    exact absurd hconsistent hinconsistent

/-- Along a run whose restarts are safe, the header of a recorded block stays on record. -/
theorem existingHash_of_run {start : Chain} {calls : List (Call Chain Request Bool)}
    (hrun : Run (serve crypto) start calls chain) (hsafe : ∀ call ∈ calls, RestartsSafely call)
    {call : Call Chain Request Bool} (hcall : call ∈ calls) (hrecords : Records call block) :
    chain.existingHash block.header.slot block.header.validatorPubkey = some block.hash := by
  obtain ⟨before, after, rfl⟩ := List.append_of_mem hcall
  refine Run.invariant
    (fun chain => chain.existingHash block.header.slot block.header.validatorPubkey = some block.hash)
    (fun pre label => ∀ output post, RestartsSafely ⟨pre, label, output, post⟩) hrecords.2
    (fun pre label output post hrecord hrestart hnext =>
      existingHash_of_serve hnext (hrestart output post) hrecord) hrun.around.2 ?_
  intro later hlater output post
  exact hsafe later (List.mem_append_right _ (List.mem_cons_of_mem _ hlater))

/-- In every run over deliveries of any blocks, votes and restarts, with any refused writes, whose restarts
keep the recorded headers and whose blocks of one slot and validator are told apart: a block other than a
recorded one of its slot and validator is rejected and costs the validator its stake, and no two
different blocks of one slot and validator are accepted. -/
theorem one_block_per_slot {start : Chain} {calls : List (Call Chain Request Bool)}
    (hrun : Run (serve crypto) start calls chain) (hsafe : ∀ call ∈ calls, RestartsSafely call)
    (htold : ∀ before call after, calls = before ++ call :: after → ToldApart before call) :
    ∀ before call after, calls = before ++ call :: after → ∀ earlier ∈ before, ∀ block other,
      earlier.label.delivered = some block → call.label.delivered = some other →
      SameSlot block other → block ≠ other →
      (Records earlier block → Punishes call other) ∧
        ¬ (earlier.output = true ∧ call.output = true) := by
  rintro before call after rfl earlier hearlier block other hblock hother hslot hne
  obtain ⟨hbefore, -⟩ := hrun.around
  have hnext := hrun.next_of_mem (List.mem_append_right before List.mem_cons_self)
  have hpunishes : Records earlier block → Punishes call other := by
    intro hrecords
    obtain ⟨hhash, hparent⟩ :=
      htold before call after rfl earlier hearlier block other hrecords hother hslot hne
    have hexisting := existingHash_of_run hbefore
      (fun call hcall => hsafe call (List.mem_append_left _ hcall)) hearlier hrecords
    rw [← hslot.1, ← hslot.2] at hexisting
    obtain ⟨pre, request, output, post⟩ := call
    cases request with
    | deliver host delivered =>
      obtain rfl := Option.some.inj hother
      exact punishes_of_delivery hnext hexisting hhash hparent
    | vote host vote => simp [Request.delivered] at hother
    | reopen host genesisBlock balances stakes => simp [Request.delivered] at hother
  refine ⟨hpunishes, fun ⟨hfirst, hsecond⟩ => ?_⟩
  have hrecords : Records earlier block := by
    refine ⟨hblock, ?_⟩
    have hearlierNext := hbefore.next_of_mem hearlier
    obtain ⟨pre, request, output, post⟩ := earlier
    cases request with
    | deliver host delivered =>
      obtain rfl := Option.some.inj hblock
      obtain rfl : output = true := hfirst
      exact existingHash_of_accepted (delivery_of_addBlock hearlierNext)
    | vote host vote => simp [Request.delivered] at hblock
    | reopen host genesisBlock balances stakes => simp [Request.delivered] at hblock
  rw [(hpunishes hrecords).rejected] at hsecond
  contradiction

/-- An empty block of the validator, and one of its slot with a payment that carries the same hash. -/
def sameHashRequests : List Request :=
  let first := Sample.block Sample.genesis 1 []
  let second := { Sample.block Sample.genesis 1 [Sample.transfer 5 0] with hash := first.hash }
  [.deliver Host.plain first, .deliver Host.plain second]

/-- Both are accepted. -/
theorem two_blocks_for_one_slot :
    ∃ opened first second chain block other, Sample.start = some opened ∧
      Run (serve Crypto.plain) opened ([first] ++ second :: []) chain ∧
      [first, second].map Call.label = sameHashRequests ∧
      first.label.delivered = some block ∧ second.label.delivered = some other ∧
      SameSlot block other ∧ block ≠ other ∧ first.output = true ∧ second.output = true := by
  obtain ⟨opened, calls, chain, hstart, hrun, hlabels, hcheck⟩ := Run.exists_of_trace_from
    (serve Crypto.plain) Sample.start sameHashRequests
    (fun _ calls _ => decide (calls.map Call.output = [true, true])) (by decide +kernel)
  have houtputs := of_decide_eq_true hcheck
  obtain ⟨first, second, rfl, hfirst, hsecond⟩ := Run.calls_of_two hlabels
  simp only [List.map_cons, List.map_nil, List.cons.injEq, and_true] at houtputs
  exact ⟨opened, first, second, chain, Sample.block Sample.genesis 1 [],
    { Sample.block Sample.genesis 1 [Sample.transfer 5 0] with
      hash := (Sample.block Sample.genesis 1 []).hash },
    hstart, hrun, hlabels, by rw [hfirst]; rfl, by rw [hsecond]; rfl, ⟨rfl, rfl⟩, by decide +kernel,
    houtputs.1, houtputs.2⟩

/-- The validator's blocks of one slot, with a restart between them. -/
def rivalRequests : List Request :=
  [.deliver Host.plain (Sample.block Sample.genesis 1 []),
    .reopen Host.plain Sample.genesis [] [(Sample.validator, 1000)],
    .deliver Host.plain (Sample.block Sample.genesis 1 [Sample.transfer 5 0])]

/-- They are not both accepted. -/
theorem one_block_per_slot_rival :
    ∃ opened first restart second chain, Sample.start = some opened ∧
      Run (serve Crypto.plain) opened [first, restart, second] chain ∧
      [first, restart, second].map Call.label = rivalRequests ∧
      ¬ (first.output = true ∧ second.output = true) := by
  obtain ⟨opened, calls, chain, hstart, hrun, hlabels, hcheck⟩ := Run.exists_of_trace_from
    (serve Crypto.plain) Sample.start rivalRequests
    (fun _ calls _ => decide (∀ call ∈ calls,
      (call.pre.getBlock Sample.genesis.hash).isSome ∧ ∀ key ∈ call.pre.seenHeaders.keys,
        call.pre.seenHeaders.lookup key = call.pre.storage.getSeenHeader key.1 key.2))
    (by decide +kernel)
  have hcalls := of_decide_eq_true hcheck
  have hsafe : ∀ call ∈ calls, RestartsSafely call := by
    intro call hcall host genesisBlock balances stakes hlabel slot pubkey hash hlookup
    rw [← (hcalls call hcall).2 (slot, pubkey)]
    · exact hlookup
    · exact Finmap.mem_keys.mpr (Finmap.mem_of_lookup_eq_some hlookup)
  -- the delivered blocks differ in their hashes, and both build on the genesis block
  have hblocks : ∀ request ∈ rivalRequests, ∀ block ∈ request.delivered.toList,
      ∀ request' ∈ rivalRequests, ∀ other ∈ request'.delivered.toList, block ≠ other →
        block.hash ≠ other.hash ∧ other.header.parentHash = Sample.genesis.hash := by decide +kernel
  have htold : ∀ before call after, calls = before ++ call :: after → ToldApart before call := by
    rintro before call after rfl earlier hearlier block other ⟨hblock, -⟩ hother hslot hne
    have hcall : call ∈ before ++ call :: after := List.mem_append_right _ List.mem_cons_self
    have hfirst : earlier.label ∈ rivalRequests :=
      hlabels ▸ List.mem_map_of_mem (List.mem_append_left _ hearlier)
    have hsecond : call.label ∈ rivalRequests := hlabels ▸ List.mem_map_of_mem hcall
    obtain ⟨hhash, hparent⟩ := hblocks _ hfirst block (by simp [hblock]) _ hsecond other
      (by simp [hother]) hne
    refine ⟨hhash, fun _ _ => ?_⟩
    rw [hparent]
    exact (hcalls call hcall).1
  obtain ⟨first, restart, second, rfl, hfirst, -, hsecond⟩ := Run.calls_of_three hlabels
  refine ⟨opened, first, restart, second, chain, hstart, hrun, hlabels, ?_⟩
  refine (one_block_per_slot hrun hsafe htold [first, restart] second [] rfl first (by simp)
    (Sample.block Sample.genesis 1 []) (Sample.block Sample.genesis 1 [Sample.transfer 5 0])
    ?_ ?_ ⟨rfl, rfl⟩ (by decide +kernel)).2
  · rw [hfirst]
    rfl
  · rw [hsecond]
    rfl

end Chain

end Nocostcoin
