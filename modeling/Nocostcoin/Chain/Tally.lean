import Nocostcoin.Chain.Delivery
import Nocostcoin.Chain.Votes

/-!
# The tally over a changing set of validators

Vote lists are never pruned, while their voters leave, return with another stake or are slashed. The
tally still adds the current stake of each registered voter once.
-/

namespace Nocostcoin

open Execution

namespace ValidatorSet

/-- The management of a block keeps a set built. -/
theorem Built.foldl_managed {set : ValidatorSet} (h : Built set) (epoch : UInt64)
    (txs : List Transaction) : Built (txs.foldl (managed · epoch) set) := by
  induction txs generalizing set with
  | nil => exact h
  | cons tx rest ih =>
    rw [List.foldl_cons]
    apply ih
    rcases set.managed_cases epoch tx with ⟨stake, -, hmanaged⟩ | ⟨-, hmanaged⟩ | hmanaged
    · rw [hmanaged]
      exact h.register tx.sender stake epoch
    · rw [hmanaged]
      exact h.unregister tx.sender
    · rwa [hmanaged]

/-- A key that is slashed or not registered has no stake. -/
theorem Built.stakeOf_eq_zero {set : ValidatorSet} (h : Built set) {pubkey : Bytes}
    (hout : set.isSlashed pubkey = true ∨ set.isValidator pubkey = false) :
    set.stakeOf pubkey = 0 := by
  unfold stakeOf FiniteMap.weightAt
  rcases hout with hslashed | hunknown
  · obtain ⟨validator, hfound, hstake⟩ := Option.map_eq_some_iff.mp (h.retired hslashed).stake
    rw [getValidator] at hfound
    rw [hfound, Option.elim_some, hstake, UInt64.toNat_zero]
  · unfold isValidator at hunknown
    rw [Option.isSome_eq_false_iff, Option.isNone_iff_eq_none] at hunknown
    rw [hunknown, Option.elim_none]

end ValidatorSet

namespace Chain

variable {crypto : Crypto} {host : Host} {chain chain' : Chain}

/-- A delivery leaves the votes alone and keeps the validator set built. -/
theorem votes_of_delivery {block : Block} {accepted : Bool}
    (h : Delivery crypto host chain block accepted chain') :
    chain'.votes = chain.votes ∧ (chain.validators.Built → chain'.validators.Built) := by
  obtain ⟨seenHeaders, headers, hrecord⟩ := recordHeader_frame host chain block
  cases h with
  | orphan => exact ⟨rfl, id⟩
  | equivocation => exact ⟨rfl, fun hbuilt => hbuilt.slash _⟩
  | invalid | failed | mismatch =>
    rw [hrecord]
    exact ⟨rfl, id⟩
  | commit _ _ _ _ _ hcommit =>
    obtain ⟨-, -, hvotes, -, -, hvalidators⟩ := commitBlock_frame hcommit
    rw [hrecord] at hvotes hvalidators
    refine ⟨hvotes, fun hbuilt => ?_⟩
    rcases hvalidators with hsame | hmanaged
    · rw [hsame]
      exact hbuilt
    · rw [hmanaged]
      exact hbuilt.foldl_managed block.header.epoch block.transactions

/-- What happens to a chain here: a request, or a call on its validator set. -/
inductive Event where
  | request (request : Request)
  | operation (operation : ValidatorSet.Operation)

/-- The vote that an event delivers. -/
def Event.vote : Event → Option Vote
  | .request (.vote _ vote) => some vote
  | _ => none

/-- Answer an event. -/
def react (crypto : Crypto) (chain : Chain) : Event → Option (Bool × Chain)
  | .request request => serve crypto chain request
  | .operation operation => (chain.validators.operate operation).map fun (result, validators) =>
      (result.isOk, { chain with validators })

/-- An event keeps the validator set built. -/
theorem built_react {event : Event} {output : Bool} (hbuilt : chain.validators.Built)
    (hcall : react crypto chain event = some (output, chain')) : chain'.validators.Built := by
  cases event with
  | operation operation =>
    obtain ⟨⟨result, validators⟩, hoperate, hanswer⟩ := Option.map_eq_some_iff.mp hcall
    rw [← (Prod.mk.inj hanswer).2]
    exact hbuilt.operate hoperate
  | request request =>
    cases request with
    | deliver host block => exact (votes_of_delivery (delivery_of_addBlock hcall)).2 hbuilt
    | vote host vote =>
      obtain ⟨votes, stored, finalizedHead, rfl⟩ := serve_vote_frame hcall
      exact hbuilt
    | reopen host genesisBlock balances stakes =>
      obtain ⟨accounts, pending, trie, rfl⟩ := start_frame (start_of_serve hcall)
      exact ValidatorSet.Built.new.foldl_register stakes

/-- What an event leaves in the vote lists: a counted vote is appended to the list of its block, a
restart empties the lists, and any other event leaves them alone. -/
theorem votesFor_react {event : Event} {output : Bool}
    (hcall : react crypto chain event = some (output, chain')) :
    (∃ vote, event.vote = some vote ∧ Counts crypto chain vote ∧ ∀ blockHash,
      chain'.votesFor blockHash = if blockHash = vote.blockHash then chain.votesFor blockHash ++ [vote]
        else chain.votesFor blockHash) ∨
    (∀ blockHash, chain'.votesFor blockHash = []) ∨
    ∀ blockHash, chain'.votesFor blockHash = chain.votesFor blockHash := by
  cases event with
  | operation operation =>
    obtain ⟨⟨result, validators⟩, hoperate, hanswer⟩ := Option.map_eq_some_iff.mp hcall
    rw [← (Prod.mk.inj hanswer).2]
    exact .inr (.inr fun _ => rfl)
  | request request =>
    cases request with
    | deliver host block =>
      refine .inr (.inr fun blockHash => ?_)
      unfold votesFor
      rw [(votes_of_delivery (delivery_of_addBlock hcall)).1]
    | vote host vote =>
      have hpost : (addVote crypto host chain vote).2 = chain' :=
        congrArg Prod.snd (Option.some.inj hcall)
      rcases addVote_cases crypto host chain vote with ⟨hcounts, -, hcounted⟩ | ⟨-, -, huncounted⟩
      · rw [hpost] at hcounted
        exact .inl ⟨vote, rfl, hcounts, hcounted.votes⟩
      · rw [hpost] at huncounted
        exact .inr (.inr huncounted.votes)
    | reopen host genesisBlock balances stakes =>
      obtain ⟨accounts, pending, trie, rfl⟩ := start_frame (start_of_serve hcall)
      exact .inr (.inl fun _ => rfl)

/-- An event keeps it that no key is recorded twice. -/
theorem oneVoteEach_react {event : Event} {output : Bool} (hone : chain.OneVoteEach)
    (hcall : react crypto chain event = some (output, chain')) : chain'.OneVoteEach := by
  rcases votesFor_react hcall with ⟨vote, -, hcounts, hvotes⟩ | hnone | hsame
  · exact oneVoteEach_of_counts hone hcounts hvotes
  · intro blockHash
    unfold voterKeys
    rw [hnone]
    exact List.nodup_nil
  · intro blockHash
    unfold voterKeys
    rw [hsame]
    exact hone blockHash

variable {start : Chain} {calls : List (Call Chain Event Bool)}

/-- In a run of events the set stays built and no key is recorded twice. -/
theorem built_of_run (hbuilt : start.validators.Built) (hvotes : start.votes = ∅)
    (hrun : Run (react crypto) start calls chain) : chain.validators.Built ∧ chain.OneVoteEach := by
  have hstart : start.OneVoteEach := by
    intro blockHash
    unfold voterKeys votesFor
    rw [hvotes]
    exact List.nodup_nil
  exact Run.invariant (fun s => s.validators.Built ∧ s.OneVoteEach) (fun _ _ => True) ⟨hbuilt, hstart⟩
    (fun _ _ _ _ h _ hcall => ⟨built_react h.1 hcall, oneVoteEach_react h.2 hcall⟩) hrun
    fun _ _ => trivial

/-- A vote was delivered by a call, and its key was registered then. -/
def Arrived (calls : List (Call Chain Event Bool)) (vote : Vote) : Prop :=
  ∃ call ∈ calls, call.label.vote = some vote ∧
    call.pre.validators.isValidator vote.validatorPubkey = true

/-- The votes listed for a block arrived as votes for it. -/
theorem arrived_of_run (hvotes : start.votes = ∅) (hrun : Run (react crypto) start calls chain)
    {blockHash : String} {vote : Vote} (hlisted : vote ∈ chain.votesFor blockHash) :
    vote.blockHash = blockHash ∧ Arrived calls vote := by
  induction hrun with
  | nil =>
    unfold votesFor at hlisted
    rw [hvotes] at hlisted
    exact absurd hlisted List.not_mem_nil
  | @snoc calls s s' event output _ hnext ih =>
    have hearlier : vote ∈ s.votesFor blockHash →
        vote.blockHash = blockHash ∧ Arrived (calls ++ [⟨s, event, output, s'⟩]) vote := by
      intro hold
      obtain ⟨heq, call, hcall, harrived⟩ := ih hold
      exact ⟨heq, call, List.mem_append_left _ hcall, harrived⟩
    rcases votesFor_react hnext with ⟨counted, hevent, hcounts, hlists⟩ | hnone | hsame
    · rw [hlists] at hlisted
      split at hlisted
      · rename_i heq
        rcases List.mem_append.mp hlisted with hold | hnew
        · exact hearlier hold
        · obtain rfl := List.mem_singleton.mp hnew
          exact ⟨heq.symm, _, List.mem_append_right _ (List.mem_singleton_self _), hevent,
            hcounts.registered⟩
      · exact hearlier hlisted
    · rw [hnone] at hlisted
      exact absurd hlisted List.not_mem_nil
    · rw [hsame] at hlisted
      exact hearlier hlisted

/-- The tally of some votes in machine words, by the current stakes. -/
def tally (set : ValidatorSet) (votes : List Vote) : UInt64 :=
  (votes.map Vote.validatorPubkey).foldl (fun total pubkey => total + set.stakeWord pubkey) 0

/-- The tally over the votes listed for a block. -/
theorem voteStake_eq_tally (chain : Chain) (blockHash : String) :
    chain.voteStake blockHash = tally chain.validators (chain.votesFor blockHash) :=
  chain.voteStake_eq blockHash

/-- While the votes are by different keys and the stakes fit, no addition of the tally overflows. -/
theorem tally_add_lt (hone : chain.OneVoteEach) (hfits : chain.validators.exactTotal < 2 ^ 64)
    {blockHash : String} {earlier later : List Vote} {vote : Vote}
    (hsplit : chain.votesFor blockHash = earlier ++ vote :: later) :
    (tally chain.validators earlier).toNat + chain.validators.stakeOf vote.validatorPubkey <
      2 ^ 64 := by
  have hkeys : (((earlier ++ [vote]) ++ later).map Vote.validatorPubkey).Nodup := by
    have hnodup := hone blockHash
    unfold voterKeys at hnodup
    rwa [hsplit, List.append_cons] at hnodup
  rw [List.map_append, List.map_append, List.map_singleton] at hkeys
  have hfront := hkeys.of_append_left
  have hstake : (fun pubkey => (chain.validators.stakeWord pubkey).toNat) =
      chain.validators.stakeOf := by
    funext pubkey
    exact chain.validators.toNat_stakeWord pubkey
  have hbound := chain.validators.held_le_exactTotal
  have hearlier : (tally chain.validators earlier).toNat =
      Quorum.held chain.validators.stakeOf (earlier.map Vote.validatorPubkey).toFinset := by
    unfold tally
    rw [← hstake]
    apply Quorum.toNat_tally chain.validators.stakeWord hfront.of_append_left
    rw [hstake]
    exact (hbound _).trans_lt hfits
  have hfresh : vote.validatorPubkey ∉ (earlier.map Vote.validatorPubkey).toFinset := by
    rw [List.mem_toFinset]
    exact fun hmem => List.disjoint_of_nodup_append hfront hmem (List.mem_singleton_self _)
  have hsum : Quorum.held chain.validators.stakeOf
        (insert vote.validatorPubkey (earlier.map Vote.validatorPubkey).toFinset) =
      chain.validators.stakeOf vote.validatorPubkey +
        Quorum.held chain.validators.stakeOf (earlier.map Vote.validatorPubkey).toFinset :=
    Finset.sum_insert hfresh
  have htotal := hbound (insert vote.validatorPubkey (earlier.map Vote.validatorPubkey).toFinset)
  omega

/-- The votes and their tally after a run. -/
structure Tallied (calls : List (Call Chain Event Bool)) (chain : Chain) : Prop where
  distinct : chain.OneVoteEach
  arrived : ∀ blockHash, ∀ vote ∈ chain.votesFor blockHash,
    vote.blockHash = blockHash ∧ Arrived calls vote
  exact : ∀ blockHash, (chain.voteStake blockHash).toNat =
    Quorum.held chain.validators.stakeOf (chain.voters blockHash)
  bounded : ∀ blockHash, chain.voteStake blockHash ≤ chain.validators.totalStake
  fits : ∀ blockHash earlier vote later, chain.votesFor blockHash = earlier ++ vote :: later →
    (tally chain.validators earlier).toNat + chain.validators.stakeOf vote.validatorPubkey < 2 ^ 64
  silent : ∀ pubkey, chain.validators.isSlashed pubkey = true ∨
    chain.validators.isValidator pubkey = false → chain.validators.stakeOf pubkey = 0

/-- In every run of requests and validator calls over stakes that fit in 64 bits, no vote counts
twice. -/
theorem tallied_of_run (hbuilt : start.validators.Built) (hvotes : start.votes = ∅)
    (hrun : Run (react crypto) start calls chain) (hfits : chain.validators.exactTotal < 2 ^ 64) :
    Tallied calls chain := by
  obtain ⟨hset, hone⟩ := built_of_run hbuilt hvotes hrun
  have hexact := toNat_voteStake hone hfits
  refine ⟨hone, fun blockHash vote => arrived_of_run hvotes hrun, hexact, fun blockHash => ?_,
    fun blockHash earlier vote later => tally_add_lt hone hfits, fun pubkey => hset.stakeOf_eq_zero⟩
  rw [UInt64.le_iff_toNat_le, hexact, (hset.balanced hfits).total]
  exact chain.validators.held_le_exactTotal _

/-- Alice votes, is slashed and leaves; Bob votes twice; Alice returns and votes again. -/
def voterReturns : List Event :=
  [.request (.vote Host.plain (firstBlockVote Sample.alice)), .operation (.slash Sample.alice),
    .request (.vote Host.plain (firstBlockVote Sample.bob)),
    .request (.vote Host.plain (firstBlockVote Sample.bob)), .operation (.unregister Sample.alice),
    .operation (.register Sample.alice 1500 0),
    .request (.vote Host.plain (firstBlockVote Sample.alice))]

/-- The first vote of Alice counts with her new stake, the second not at all. -/
theorem tallied_of_run_voterReturns :
    ∃ opened calls chain, network [2000, 1000, 1000] = some opened ∧
      Run (react Crypto.plain) opened calls chain ∧ calls.map Call.label = voterReturns ∧
      chain.voteStake (Sample.block Sample.genesis 1 []).hash = 2500 ∧ Tallied calls chain := by
  obtain ⟨opened, calls, chain, hstart, hrun, hlabels, hcheck⟩ := Run.exists_of_trace_from
    (react Crypto.plain) (network [2000, 1000, 1000]) voterReturns
    (fun _ _ chain => decide (chain.validators.exactTotal < 2 ^ 64 ∧
      chain.voteStake (Sample.block Sample.genesis 1 []).hash = 2500)) (by decide +kernel)
  obtain ⟨hfits, hstake⟩ := of_decide_eq_true hcheck
  obtain ⟨accounts, pending, trie, rfl⟩ := start_frame hstart
  exact ⟨_, calls, chain, hstart, hrun, hlabels, hstake,
    tallied_of_run (ValidatorSet.Built.new.foldl_register _) rfl hrun hfits⟩

end Chain

end Nocostcoin
