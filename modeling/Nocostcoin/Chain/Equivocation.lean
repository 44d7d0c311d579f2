import Nocostcoin.Stakes
import Nocostcoin.Chain.Delivery
import Nocostcoin.Chain.Opening
import Nocostcoin.Node

/-!
# Slashing

`add_block` compares a block with the header on record for its slot and validator before it
checks anything but the parent. So a record may come from any delivered block, and what a slash
proves about the validator depends on what was delivered in its name.
-/

namespace Nocostcoin

open Execution

namespace ValidatorSet

/-- The management of a transaction slashes nobody. -/
theorem isSlashed_managed {set : ValidatorSet} {epoch : UInt64} {tx : Transaction} {pubkey : Bytes}
    (h : (set.managed epoch tx).isSlashed pubkey = true) : set.isSlashed pubkey = true := by
  rcases set.managed_cases epoch tx with ⟨stake, -, hmanaged⟩ | ⟨-, hmanaged⟩ | hmanaged
  · rw [hmanaged] at h
    unfold registerValidator at h
    split at h
    · exact h
    · split at h
      · exact h
      · unfold isSlashed at h ⊢
        dsimp only at h
        rw [FiniteMap.lookup_insert_ite] at h
        split at h
        · simp [ValidatorInfo.new] at h
        · exact h
  · rw [hmanaged] at h
    unfold unregisterValidator at h
    split at h
    · exact h
    · unfold isSlashed at h ⊢
      dsimp only at h
      by_cases heq : pubkey = tx.sender
      · rw [heq, Finmap.lookup_erase] at h
        simp at h
      · rwa [Finmap.lookup_erase_ne heq] at h
  · rwa [hmanaged] at h

/-- The management of a block slashes nobody. -/
theorem isSlashed_foldl_managed {set : ValidatorSet} {epoch : UInt64} {txs : List Transaction}
    {pubkey : Bytes} (h : (txs.foldl (managed · epoch) set).isSlashed pubkey = true) :
    set.isSlashed pubkey = true := by
  induction txs generalizing set with
  | nil => exact h
  | cons tx rest ih => exact isSlashed_managed (ih h)

/-- A set-up registers validators that are not slashed. -/
theorem isSlashed_registered (stakes : List (Bytes × UInt64)) (pubkey : Bytes) :
    (stakes.foldl (fun set entry => (set.registerValidator entry.1 entry.2 0).2) new).isSlashed
      pubkey = false := by
  rw [← Bool.not_eq_true]
  intro h
  -- a registration is the management of a registering transaction
  have hfold : stakes.foldl (fun set entry => (set.registerValidator entry.1 entry.2 0).2) new =
      (stakes.map fun entry => (⟨entry.1, [], 0, .registerValidator entry.2, []⟩ : Transaction)).foldl
        (managed · 0) new := by
    rw [List.foldl_map]
    rfl
  rw [hfold] at h
  have hnew := isSlashed_foldl_managed h
  simp [isSlashed, new] at hnew

end ValidatorSet

namespace Chain

variable {crypto : Crypto} {host : Host} {chain chain' : Chain} {block : Block} {accepted : Bool}

/-- A hash is on record for a slot and validator, in memory or on disk. -/
def OnRecord (chain : Chain) (slot : UInt64) (pubkey : Bytes) (hash : String) : Prop :=
  chain.seenHeaders.lookup (slot, pubkey) = some hash ∨
    chain.storage.headers.lookup (slot, pubkey) = some hash

/-- What detection compares with is on record. -/
theorem onRecord_of_existingHash {slot : UInt64} {pubkey : Bytes} {hash : String}
    (h : chain.existingHash slot pubkey = some hash) : chain.OnRecord slot pubkey hash := by
  unfold existingHash Storage.getSeenHeader at h
  rcases Option.or_eq_some_iff.mp h with hmemory | ⟨-, hdisk⟩
  · exact .inl hmemory
  · exact .inr hdisk

/-- A hash on record after a header was recorded was on record before or is the recorded one. -/
theorem onRecord_recordHeader {slot : UInt64} {pubkey : Bytes} {hash : String}
    (h : (chain.recordHeader host block).OnRecord slot pubkey hash) :
    chain.OnRecord slot pubkey hash ∨
      slot = block.header.slot ∧ pubkey = block.header.validatorPubkey ∧ hash = block.hash ∧
        chain.existingHash slot pubkey = none := by
  unfold recordHeader at h
  split at h
  · exact .inl h
  · rename_i hnone
    have hnew : ∀ {headers : FiniteMap (UInt64 × Bytes) String},
        (headers.insert (block.header.slot, block.header.validatorPubkey) block.hash).lookup
          (slot, pubkey) = some hash →
        headers.lookup (slot, pubkey) = some hash ∨
          slot = block.header.slot ∧ pubkey = block.header.validatorPubkey ∧ hash = block.hash ∧
            chain.existingHash slot pubkey = none := by
      intro headers hlookup
      rw [FiniteMap.lookup_insert_ite] at hlookup
      split at hlookup
      · rename_i heq
        obtain ⟨rfl, rfl⟩ := Prod.mk.inj heq
        exact .inr ⟨rfl, rfl, (Option.some.inj hlookup).symm, hnone⟩
      · exact .inl hlookup
    rcases h with hmemory | hdisk
    · rcases hnew hmemory with hold | hfresh
      · exact .inl (.inl hold)
      · exact .inr hfresh
    · unfold logged Storage.storeSeenHeader Storage.write at hdisk
      split at hdisk
      · rcases hnew hdisk with hold | hfresh
        · exact .inl (.inr hold)
        · exact .inr hfresh
      · exact .inl (.inr hdisk)

/-- The same is on record over the same recorded headers. -/
theorem onRecord_congr (hseen : chain'.seenHeaders = chain.seenHeaders)
    (hheaders : chain'.storage.headers = chain.storage.headers) {slot : UInt64} {pubkey : Bytes}
    {hash : String} (h : chain'.OnRecord slot pubkey hash) : chain.OnRecord slot pubkey hash := by
  unfold OnRecord at h
  rwa [hseen, hheaders] at h

/-- A delivery puts at most the header of its block on record, and only if the parent is stored. -/
theorem onRecord_of_delivery (h : Delivery crypto host chain block accepted chain') {slot : UInt64}
    {pubkey : Bytes} {hash : String} (hrecord : chain'.OnRecord slot pubkey hash) :
    chain.OnRecord slot pubkey hash ∨
      slot = block.header.slot ∧ pubkey = block.header.validatorPubkey ∧ hash = block.hash ∧
        chain.existingHash slot pubkey = none ∧
        ∃ parent, chain.getBlock block.header.parentHash = some parent := by
  have hlift : ∀ {parent : Block}, chain.getBlock block.header.parentHash = some parent →
      (chain.recordHeader host block).OnRecord slot pubkey hash →
      chain.OnRecord slot pubkey hash ∨
        slot = block.header.slot ∧ pubkey = block.header.validatorPubkey ∧ hash = block.hash ∧
          chain.existingHash slot pubkey = none ∧
          ∃ parent, chain.getBlock block.header.parentHash = some parent := by
    intro parent hparent hon
    rcases onRecord_recordHeader hon with hold | ⟨hslot, hpubkey, hhash, hnone⟩
    · exact .inl hold
    · exact .inr ⟨hslot, hpubkey, hhash, hnone, parent, hparent⟩
  cases h with
  | orphan => exact .inl hrecord
  | equivocation => exact .inl hrecord
  | invalid hparent => exact hlift hparent hrecord
  | failed hparent _ _ hexec | mismatch hparent _ _ hexec =>
    have hstorage := storage_of_execution hexec
    apply hlift hparent
    refine onRecord_congr ?_ ?_ hrecord
    · rfl
    · exact congrArg Storage.headers hstorage
  | commit hparent _ _ hexec _ hcommit =>
    have hstorage := storage_of_execution hexec
    have hframe := commitBlock_frame hcommit
    have hbefore := onRecord_congr hframe.seenHeaders hframe.headers hrecord
    apply hlift hparent
    refine onRecord_congr ?_ ?_ hbefore
    · rfl
    · exact congrArg Storage.headers hstorage

/-- A delivery slashes only the validator named by its block, and only when another hash is on
record for the block's slot. -/
theorem slashed_of_delivery (h : Delivery crypto host chain block accepted chain') {pubkey : Bytes}
    (hbefore : chain.validators.isSlashed pubkey = false)
    (hafter : chain'.validators.isSlashed pubkey = true) :
    pubkey = block.header.validatorPubkey ∧
      (∃ parent, chain.getBlock block.header.parentHash = some parent) ∧
      ∃ existing, chain.existingHash block.header.slot pubkey = some existing ∧
        existing ≠ block.hash := by
  have hcontra : chain.validators.isSlashed pubkey ≠ true := by simp [hbefore]
  cases h with
  | orphan => exact absurd hafter hcontra
  | @equivocation parent existing hparent hexisting hne =>
    rcases ValidatorSet.isSlashed_slashValidator hafter with rfl | hslashed
    · exact ⟨rfl, ⟨parent, hparent⟩, existing, hexisting, hne⟩
    · exact absurd hslashed hcontra
  | invalid =>
    rw [validators_recordHeader] at hafter
    exact absurd hafter hcontra
  | failed =>
    rw [validators_withState, validators_recordHeader] at hafter
    exact absurd hafter hcontra
  | mismatch =>
    rw [validators_withState, validators_recordHeader] at hafter
    exact absurd hafter hcontra
  | commit _ _ _ _ _ hcommit =>
    have hvalidators := (commitBlock_frame hcommit).validators
    rw [validators_withState, validators_recordHeader] at hvalidators
    rcases hvalidators with hkept | hmanaged
    · rw [hkept] at hafter
      exact absurd hafter hcontra
    · rw [hmanaged] at hafter
      exact absurd (ValidatorSet.isSlashed_foldl_managed hafter) hcontra

/-- A set-up puts nothing on record that was not on disk, and slashes nobody. -/
theorem records_of_start {storage : Storage} {genesisBlock : Block}
    {balances stakes : List (Bytes × UInt64)}
    (h : start crypto host storage genesisBlock balances stakes = some chain) :
    chain.seenHeaders = ∅ ∧ chain.storage.headers = storage.headers ∧
      ∀ pubkey, chain.validators.isSlashed pubkey = false := by
  obtain ⟨accounts, pendingChanges, trie, rfl⟩ := start_frame h
  refine ⟨rfl, ?_, ValidatorSet.isSlashed_registered stakes⟩
  change (storage.opened genesisBlock).headers = storage.headers
  unfold Storage.opened
  split <;> rfl

/-- A block delivered to a node that stores the block's parent. -/
def DeliveredOn (call : Call Chain Request Bool) (block parent : Block) : Prop :=
  call.label.delivered = some block ∧ call.pre.getBlock block.header.parentHash = some parent

/-- The hash is that of the block's own header, the VRF proof is valid for the slot and the parent,
and the holder of the validator's key made the block. -/
structure Authentic (crypto : Crypto) (made : Block → Prop) (block parent : Block) : Prop where
  hash : block.hash = Block.calculateHash crypto block.header
  vrf : Consensus.validateVrf crypto block parent = .ok ()
  made : made block

/-- A call that delivers a block in a validator's name, over a stored parent and with a hash other
than the one on record for its slot, delivers an authentic block. -/
def AuthenticFor (crypto : Crypto) (made : Block → Prop) (pubkey : Bytes)
    (call : Call Chain Request Bool) : Prop :=
  ∀ block parent, DeliveredOn call block parent → block.header.validatorPubkey = pubkey →
    call.pre.existingHash block.header.slot pubkey ≠ some block.hash →
    Authentic crypto made block parent

/-- The call that slashes a validator. -/
def Slashes (call : Call Chain Request Bool) (pubkey : Bytes) : Prop :=
  call.pre.validators.isSlashed pubkey = false ∧ call.post.validators.isSlashed pubkey = true

/-- Two authentic blocks of a validator for one slot with different hashes, among the deliveries
of some calls. -/
def Equivocated (crypto : Crypto) (made : Block → Prop) (pubkey : Bytes)
    (calls : List (Call Chain Request Bool)) : Prop :=
  ∃ first ∈ calls, ∃ second ∈ calls, ∃ block parent block' parent',
    DeliveredOn first block parent ∧ DeliveredOn second block' parent' ∧
    Authentic crypto made block parent ∧ Authentic crypto made block' parent' ∧
    block.header.validatorPubkey = pubkey ∧ block'.header.validatorPubkey = pubkey ∧
    block.header.slot = block'.header.slot ∧ block.hash ≠ block'.hash

/-- Every hash on record for a validator is that of an authentic delivery in some calls. -/
def RecordsAuthentic (crypto : Crypto) (made : Block → Prop) (pubkey : Bytes)
    (calls : List (Call Chain Request Bool)) (chain : Chain) : Prop :=
  ∀ slot hash, chain.OnRecord slot pubkey hash → ∃ call ∈ calls, ∃ block parent,
    DeliveredOn call block parent ∧ Authentic crypto made block parent ∧
    block.header.validatorPubkey = pubkey ∧ block.header.slot = slot ∧ block.hash = hash

/-- What a request newly puts on record is the header of the block it delivers over a stored
parent, when nothing was on record for its slot. -/
theorem onRecord_of_serve {request : Request} {output : Bool}
    (h : serve crypto chain request = some (output, chain')) {slot : UInt64} {pubkey : Bytes}
    {hash : String} (hrecord : chain'.OnRecord slot pubkey hash) :
    chain.OnRecord slot pubkey hash ∨ ∃ block parent, request.delivered = some block ∧
      chain.getBlock block.header.parentHash = some parent ∧ slot = block.header.slot ∧
      pubkey = block.header.validatorPubkey ∧ hash = block.hash ∧
      chain.existingHash slot pubkey = none := by
  cases request with
  | deliver host block =>
    rcases onRecord_of_delivery (delivery_of_addBlock h) hrecord with
      hold | ⟨hslot, hpubkey, hhash, hnone, parent, hparent⟩
    · exact .inl hold
    · exact .inr ⟨block, parent, rfl, hparent, hslot, hpubkey, hhash, hnone⟩
  | vote host vote =>
    obtain ⟨votes, stored, finalizedHead, rfl⟩ := serve_vote_frame h
    exact .inl hrecord
  | reopen host genesisBlock balances stakes =>
    have hstart := start_of_serve h
    obtain ⟨hseen, hheaders, -⟩ := records_of_start hstart
    unfold OnRecord at hrecord
    rw [hseen, hheaders] at hrecord
    rcases hrecord with hmemory | hdisk
    · simp at hmemory
    · exact .inl (.inr hdisk)

/-- A request that slashes delivers a block in the slashed validator's name, over a stored parent,
whose hash differs from the one on record. -/
theorem slashed_of_serve {request : Request} {output : Bool}
    (h : serve crypto chain request = some (output, chain')) {pubkey : Bytes}
    (hbefore : chain.validators.isSlashed pubkey = false)
    (hafter : chain'.validators.isSlashed pubkey = true) :
    ∃ block parent existing, request.delivered = some block ∧
      chain.getBlock block.header.parentHash = some parent ∧
      block.header.validatorPubkey = pubkey ∧
      chain.existingHash block.header.slot pubkey = some existing ∧ existing ≠ block.hash := by
  cases request with
  | deliver host block =>
    obtain ⟨hpubkey, ⟨parent, hparent⟩, existing, hexisting, hne⟩ :=
      slashed_of_delivery (delivery_of_addBlock h) hbefore hafter
    exact ⟨block, parent, existing, rfl, hparent, hpubkey.symm, hexisting, hne⟩
  | vote host vote =>
    obtain ⟨votes, stored, finalizedHead, rfl⟩ := serve_vote_frame h
    exact absurd hafter (by simp [hbefore])
  | reopen host genesisBlock balances stakes =>
    have hstart := start_of_serve h
    exact absurd hafter (by simp [(records_of_start hstart).2.2 pubkey])

/-- Along a run of calls that are authentic for a validator, its records stay authentic. -/
theorem recordsAuthentic_of_run {made : Block → Prop} {pubkey : Bytes} {start : Chain}
    {calls : List (Call Chain Request Bool)}
    (hfresh : ∀ slot hash, ¬ start.OnRecord slot pubkey hash)
    (hrun : Run (serve crypto) start calls chain)
    (hauthentic : ∀ call ∈ calls, AuthenticFor crypto made pubkey call) :
    RecordsAuthentic crypto made pubkey calls chain := by
  induction hrun with
  | nil => exact fun slot hash hrecord => absurd hrecord (hfresh slot hash)
  | @snoc calls s s' request output _ hnext ih =>
    intro slot hash hrecord
    have hlast : (⟨s, request, output, s'⟩ : Call Chain Request Bool) ∈
        calls ++ [⟨s, request, output, s'⟩] :=
      List.mem_append_right _ (List.mem_singleton_self _)
    rcases onRecord_of_serve hnext hrecord with
      hold | ⟨block, parent, hdelivered, hparent, rfl, hpubkey, rfl, hnone⟩
    · obtain ⟨call, hcall, hevidence⟩ :=
        ih (fun call hcall => hauthentic call (List.mem_append_left _ hcall)) slot hash hold
      exact ⟨call, List.mem_append_left _ hcall, hevidence⟩
    · refine ⟨_, hlast, block, parent, ⟨hdelivered, hparent⟩, ?_, hpubkey.symm, rfl, rfl⟩
      apply hauthentic _ hlast block parent ⟨hdelivered, hparent⟩ hpubkey.symm
      rw [hnone]
      simp

/-- In every run of a node from a fresh database, over deliveries of any blocks, votes and restarts,
with any refused writes: as long as each delivery in a validator's name that is not on record is
authentic, the validator is slashed only for two authentic blocks of one slot with different
hashes, and so never if the holder of its key makes one block for a slot. -/
theorem slashed_only_if_equivocated {storage : Storage} {genesisBlock : Block}
    {balances stakes : List (Bytes × UInt64)} {opened : Chain}
    {calls : List (Call Chain Request Bool)} {made : Block → Prop} {pubkey : Bytes}
    (hheaders : storage.headers = ∅)
    (hopened : start crypto host storage genesisBlock balances stakes = some opened)
    (hrun : Run (serve crypto) opened calls chain)
    (hauthentic : ∀ call ∈ calls, AuthenticFor crypto made pubkey call) :
    (∀ call ∈ calls, Slashes call pubkey → Equivocated crypto made pubkey calls) ∧
      ((∀ block block', made block → made block' → block.header.slot = block'.header.slot →
          block.hash = block'.hash) → ∀ call ∈ calls, ¬ Slashes call pubkey) := by
  have hfresh : ∀ slot hash, ¬ opened.OnRecord slot pubkey hash := by
    intro slot hash hrecord
    obtain ⟨hseen, hdisk, -⟩ := records_of_start hopened
    unfold OnRecord at hrecord
    rw [hseen, hdisk, hheaders] at hrecord
    simp at hrecord
  have hslashed : ∀ call ∈ calls, Slashes call pubkey → Equivocated crypto made pubkey calls := by
    rintro call hcall ⟨hbefore, hafter⟩
    obtain ⟨block', parent', existing, hdelivered, hparent, hpubkey, hexisting, hne⟩ :=
      slashed_of_serve (hrun.next_of_mem hcall) hbefore hafter
    obtain ⟨before, after, rfl⟩ := List.append_of_mem hcall
    obtain ⟨first, hfirst, block, parent, hfirstOn, hfirstAuthentic, hname, hslot, hhash⟩ :=
      recordsAuthentic_of_run hfresh hrun.around.1
        (fun earlier hearlier => hauthentic earlier (List.mem_append_left _ hearlier))
        block'.header.slot existing (onRecord_of_existingHash hexisting)
    refine ⟨first, List.mem_append_left _ hfirst, call, hcall, block, parent, block', parent',
      hfirstOn, ⟨hdelivered, hparent⟩, hfirstAuthentic, ?_, hname, hpubkey, hslot, ?_⟩
    · apply hauthentic call hcall block' parent' ⟨hdelivered, hparent⟩ hpubkey
      rw [hexisting]
      exact fun heq => hne (Option.some.inj heq)
    · rw [hhash]
      exact hne
  refine ⟨hslashed, fun hunique call hcall hslashes => ?_⟩
  obtain ⟨_, -, _, -, block, parent, block', parent', -, -, hfirst, hsecond, -, -, hslot, hne⟩ :=
    hslashed call hcall hslashes
  exact hne (hunique block block' hfirst.made hsecond.made hslot)

/-- An honest block, and a made-up one in the same validator's name and slot, without a VRF output
or proof and with an arbitrary hash. -/
def madeUpRequests : List Request :=
  let honest := Sample.block Sample.genesis 1 []
  let madeUp : Block :=
    { honest with header := { honest.header with vrfOutput := [], vrfProof := [] }, hash := "made up" }
  [.deliver Host.plain honest, .deliver Host.plain madeUp]

/-- The made-up block slashes the validator, which made one block. -/
theorem slashed_by_made_up_block :
    ∃ opened calls chain, Sample.start = some opened ∧ Run (serve Crypto.plain) opened calls chain ∧
      calls.map Call.label = madeUpRequests ∧ (∃ call ∈ calls, Slashes call Sample.validator) ∧
      ¬ Equivocated Crypto.plain (fun _ => True) Sample.validator calls := by
  obtain ⟨opened, calls, chain, hstart, hrun, hlabels, hcheck⟩ := Run.exists_of_trace_from
    (serve Crypto.plain) Sample.start madeUpRequests
    (fun _ calls _ => decide (∃ call ∈ calls,
      call.pre.validators.isSlashed Sample.validator = false ∧
        call.post.validators.isSlashed Sample.validator = true)) (by decide +kernel)
  have hslashes := of_decide_eq_true hcheck
  refine ⟨opened, calls, chain, hstart, hrun, hlabels, hslashes, ?_⟩
  -- the only delivered block that carries the hash of its header is the honest one
  have honly : ∀ call ∈ calls, ∀ block parent, DeliveredOn call block parent →
      Authentic Crypto.plain (fun _ => True) block parent →
      block.hash = (Sample.block Sample.genesis 1 []).hash := by
    rintro call hcall block parent ⟨hdelivered, -⟩ hauthentic
    have hmem : call.label ∈ madeUpRequests := hlabels ▸ List.mem_map_of_mem hcall
    have hall : ∀ request ∈ madeUpRequests, ∀ block ∈ request.delivered.toList,
        block.hash = Block.calculateHash Crypto.plain block.header →
          block.hash = (Sample.block Sample.genesis 1 []).hash := by decide +kernel
    exact hall call.label hmem block (by simp [hdelivered]) hauthentic.hash
  rintro ⟨first, hfirst, second, hsecond, block, parent, block', parent', hon, hon', hblock, hblock',
    -, -, -, hne⟩
  exact hne ((honly first hfirst block parent hon hblock).trans
    (honly second hsecond block' parent' hon' hblock').symm)

/-- Two blocks that the validator itself made for one slot. -/
def doubleSignedRequests : List Request :=
  [.deliver Host.plain (Node.produceBlock Crypto.plain Sample.genesis 1 Sample.validator [] 0),
    .deliver Host.plain (Node.produceBlock Crypto.plain Sample.genesis 1 Sample.validator [] 1)]

/-- They slash it, on the evidence of both. -/
theorem slashed_only_if_equivocated_double_signed :
    ∃ opened calls chain, Sample.start = some opened ∧ Run (serve Crypto.plain) opened calls chain ∧
      calls.map Call.label = doubleSignedRequests ∧
      (∃ call ∈ calls, Slashes call Sample.validator) ∧
      Equivocated Crypto.plain (fun _ => True) Sample.validator calls := by
  obtain ⟨opened, calls, chain, hstart, hrun, hlabels, hcheck⟩ := Run.exists_of_trace_from
    (serve Crypto.plain) Sample.start doubleSignedRequests
    (fun _ calls _ => decide ((∃ call ∈ calls,
        call.pre.validators.isSlashed Sample.validator = false ∧
          call.post.validators.isSlashed Sample.validator = true) ∧
      ∀ call ∈ calls, ∀ block ∈ call.label.delivered.toList,
        ∀ parent ∈ (call.pre.getBlock block.header.parentHash).toList,
          block.hash = Block.calculateHash Crypto.plain block.header ∧
            Consensus.validateVrf Crypto.plain block parent = .ok ())) (by decide +kernel)
  obtain ⟨⟨call, hcall, hslashes⟩, hall⟩ := of_decide_eq_true hcheck
  have hauthentic : ∀ call ∈ calls,
      AuthenticFor Crypto.plain (fun _ => True) Sample.validator call := by
    rintro call hcall block parent ⟨hdelivered, hparent⟩ - -
    obtain ⟨hhash, hvrf⟩ := hall call hcall block (by simp [hdelivered]) parent (by simp [hparent])
    exact ⟨hhash, hvrf, trivial⟩
  exact ⟨opened, calls, chain, hstart, hrun, hlabels, ⟨call, hcall, hslashes⟩,
    (slashed_only_if_equivocated rfl hstart hrun hauthentic).1 call hcall hslashes⟩

end Chain

end Nocostcoin
