import Nocostcoin.Stakes
import Nocostcoin.Chain.Opening
import Nocostcoin.Node

/-!
# Votes and the finality threshold

A block is finalized by a counted vote that lifts the stake of its voters over 0.6666 of the total.
That is more than two thirds, unless the stake lands between the two numbers.
-/

namespace Nocostcoin

open Execution

variable {crypto : Crypto}

namespace Chain

variable {chain chain' : Chain} {vote : Vote} {blockHash : String}

/-- The keys recorded as voters for a block. -/
def voterKeys (chain : Chain) (blockHash : String) : List Bytes :=
  (chain.votesFor blockHash).map Vote.validatorPubkey

/-- The distinct registered voters for a block. -/
def voters (chain : Chain) (blockHash : String) : Finset Bytes :=
  (chain.voterKeys blockHash).toFinset.filter fun pubkey => chain.validators.isValidator pubkey

/-- The checks of `add_vote`: a registered voter, a valid signature, no earlier vote of the voter
for the block. -/
structure Counts (crypto : Crypto) (chain : Chain) (vote : Vote) : Prop where
  registered : chain.validators.isValidator vote.validatorPubkey = true
  signed : verifyVote crypto vote = true
  fresh : vote.validatorPubkey ∉ chain.voters vote.blockHash

/-- What a counted vote changed. -/
structure Counted (chain : Chain) (vote : Vote) (chain' : Chain) : Prop where
  votes : ∀ blockHash, chain'.votesFor blockHash =
    if blockHash = vote.blockHash then chain.votesFor blockHash ++ [vote]
    else chain.votesFor blockHash
  validators : chain'.validators = chain.validators
  finalized : chain'.finalizedHead =
    if meetsThreshold (chain'.voteStake vote.blockHash) chain.validators.getTotalStake then
      vote.blockHash
    else chain.finalizedHead

/-- What a vote that is not counted left alone. -/
structure Uncounted (chain chain' : Chain) : Prop where
  votes : ∀ blockHash, chain'.votesFor blockHash = chain.votesFor blockHash
  validators : chain'.validators = chain.validators
  finalized : chain'.finalizedHead = chain.finalizedHead

/-- The votes for a block after the votes for one were replaced. -/
theorem votesFor_insert (chain : Chain) (voted other : String) (votes : List Vote) :
    votesFor { chain with votes := chain.votes.insert voted votes } other =
      if other = voted then votes else chain.votesFor other := by
  unfold votesFor
  rw [FiniteMap.lookup_insert_ite]
  split <;> rfl

/-- The votes after one more was recorded. -/
theorem votesFor_record (chain : Chain) (vote : Vote) (blockHash : String) :
    let votes := chain.votesFor vote.blockHash ++ [vote]
    votesFor { chain with votes := chain.votes.insert vote.blockHash votes } blockHash =
      if blockHash = vote.blockHash then chain.votesFor blockHash ++ [vote]
      else chain.votesFor blockHash := by
  apply (votesFor_insert chain vote.blockHash blockHash _).trans
  split
  · rename_i heq
    rw [heq]
  · rfl

/-- A registered key is among the voters exactly if a vote of it is recorded. -/
theorem mem_voters_iff (hregistered : chain.validators.isValidator vote.validatorPubkey = true) :
    vote.validatorPubkey ∈ chain.voters vote.blockHash ↔
      ((chain.votesFor vote.blockHash).any fun v => v.validatorPubkey = vote.validatorPubkey) = true := by
  unfold voters voterKeys
  rw [Finset.mem_filter, List.mem_toFinset, List.mem_map, List.any_eq_true]
  simp only [decide_eq_true_eq]
  exact and_iff_left hregistered

/-- `add_vote` counts a vote that passes its checks, and leaves the chain alone otherwise. -/
theorem addVote_cases (crypto : Crypto) (host : Host) (chain : Chain) (vote : Vote) :
    (Counts crypto chain vote ∧ (addVote crypto host chain vote).1 = true ∧
      Counted chain vote (addVote crypto host chain vote).2) ∨
    (¬ Counts crypto chain vote ∧ (addVote crypto host chain vote).1 = false ∧
      Uncounted chain (addVote crypto host chain vote).2) := by
  unfold addVote
  by_cases hregistered : chain.validators.isValidator vote.validatorPubkey = true
  · rw [if_neg (not_not.mpr hregistered)]
    by_cases hsigned : verifyVote crypto vote = true
    · rw [if_neg (not_not.mpr hsigned)]
      have hmem := mem_voters_iff hregistered
      dsimp only
      split
      · rename_i hduplicate
        refine .inr ⟨fun hcounts => hcounts.fresh (hmem.mpr hduplicate), rfl, ?_, rfl, rfl⟩
        intro blockHash
        rw [votesFor_insert]
        split
        · rename_i heq
          rw [heq]
        · rfl
      · rename_i hfresh
        refine .inl ⟨⟨hregistered, hsigned, fun h => hfresh (hmem.mp h)⟩, rfl, ?_⟩
        have hvotes := chain.votesFor_record vote
        unfold checkFinality
        split
        · rename_i hmeets
          exact ⟨hvotes, rfl, (if_pos hmeets).symm⟩
        · rename_i hbelow
          exact ⟨hvotes, rfl, (if_neg hbelow).symm⟩
    · rw [if_pos hsigned]
      exact .inr ⟨fun hcounts => hsigned hcounts.signed, rfl, fun _ => rfl, rfl, rfl⟩
  · rw [if_pos hregistered]
    exact .inr ⟨fun hcounts => hregistered hcounts.registered, rfl, fun _ => rfl, rfl, rfl⟩

/-- No key is recorded twice as a voter for a block. -/
def OneVoteEach (chain : Chain) : Prop := ∀ blockHash, (chain.voterKeys blockHash).Nodup

/-- A counted vote keeps it that no key is recorded twice. -/
theorem oneVoteEach_of_counts (hone : chain.OneVoteEach) (hcounts : Counts crypto chain vote)
    (hvotes : ∀ blockHash, chain'.votesFor blockHash =
      if blockHash = vote.blockHash then chain.votesFor blockHash ++ [vote]
      else chain.votesFor blockHash) : chain'.OneVoteEach := by
  intro blockHash
  unfold voterKeys
  rw [hvotes]
  split
  · rename_i heq
    subst heq
    rw [List.map_append, List.map_singleton]
    apply (hone vote.blockHash).append (List.nodup_singleton _)
    rw [List.disjoint_singleton]
    intro hmem
    refine hcounts.fresh (Finset.mem_filter.mpr ⟨List.mem_toFinset.mpr hmem, hcounts.registered⟩)
  · exact hone blockHash

/-- Votes keep it that no key is recorded twice. -/
theorem oneVoteEach_addVote (hone : chain.OneVoteEach) (crypto : Crypto) (host : Host) (vote : Vote) :
    (addVote crypto host chain vote).2.OneVoteEach := by
  rcases addVote_cases crypto host chain vote with ⟨hcounts, -, hcounted⟩ | ⟨-, -, huncounted⟩
  · exact oneVoteEach_of_counts hone hcounts hcounted.votes
  · intro blockHash
    unfold voterKeys
    rw [huncounted.votes]
    exact hone blockHash

/-- A counted vote adds its voter to the voters for its block. -/
theorem Counted.voters (hcounts : Counts crypto chain vote) (h : Counted chain vote chain') :
    chain'.voters vote.blockHash = insert vote.validatorPubkey (chain.voters vote.blockHash) := by
  unfold Chain.voters voterKeys
  rw [h.votes, if_pos rfl, h.validators, List.map_append, List.map_singleton]
  ext pubkey
  have hregistered := hcounts.registered
  simp only [Finset.mem_filter, List.mem_toFinset, List.mem_append, List.mem_singleton,
    Finset.mem_insert]
  constructor
  · rintro ⟨hold | rfl, hvalidator⟩
    · exact .inr ⟨hold, hvalidator⟩
    · exact .inl rfl
  · rintro (rfl | ⟨hold, hvalidator⟩)
    · exact ⟨.inr rfl, hregistered⟩
    · exact ⟨.inl hold, hvalidator⟩

/-- The tally runs over the keys of the recorded votes. -/
theorem voteStake_eq (chain : Chain) (blockHash : String) : chain.voteStake blockHash =
    (chain.voterKeys blockHash).foldl
      (fun total pubkey => total + chain.validators.stakeWord pubkey) 0 := by
  unfold voteStake voterKeys
  rw [List.foldl_map]
  congr 1
  funext total vote
  unfold ValidatorSet.stakeWord
  cases chain.validators.getValidator vote.validatorPubkey with
  | none => exact (UInt64.add_zero total).symm
  | some validator => rfl

/-- The tally of `check_finality` is what the distinct registered voters hold, if the total stake
fits in 64 bits. -/
theorem toNat_voteStake (hone : chain.OneVoteEach) (hfits : chain.validators.exactTotal < 2 ^ 64)
    (blockHash : String) :
    (chain.voteStake blockHash).toNat =
      Quorum.held chain.validators.stakeOf (chain.voters blockHash) := by
  have hstake : (fun pubkey => (chain.validators.stakeWord pubkey).toNat) =
      chain.validators.stakeOf := by
    funext pubkey
    exact chain.validators.toNat_stakeWord pubkey
  have hregistered : Quorum.held chain.validators.stakeOf (chain.voters blockHash) =
      Quorum.held chain.validators.stakeOf (chain.voterKeys blockHash).toFinset := by
    apply Finset.sum_filter_of_ne
    intro pubkey _ hne
    unfold ValidatorSet.stakeOf FiniteMap.weightAt at hne
    unfold ValidatorSet.isValidator
    cases hfound : chain.validators.validators.lookup pubkey with
    | none => simp [hfound] at hne
    | some validator => rfl
  rw [voteStake_eq, hregistered, ← hstake]
  apply Quorum.toNat_tally chain.validators.stakeWord (hone blockHash)
  rw [hstake]
  exact (chain.validators.held_le_exactTotal _).trans_lt hfits

/-- `check_finality` moved the finalized head to a block. -/
def Finalizes (call : Call Chain Request Bool) (blockHash : String) : Prop :=
  call.pre.finalizedHead ≠ blockHash ∧ call.post.finalizedHead = blockHash

/-- The stake that a vote's block has with this vote. -/
def stakeWith (chain : Chain) (vote : Vote) : ℕ :=
  Quorum.held chain.validators.stakeOf
    (insert vote.validatorPubkey (chain.voters vote.blockHash))

/-- A counted vote for a block that is not the finalized head does not bring the block's stake
above 0.6666 of the total without bringing it above two thirds. -/
def ClearOfThreshold (crypto : Crypto) (call : Call Chain Request Bool) : Prop :=
  ∀ host vote, call.label = .vote host vote → Counts crypto call.pre vote →
    vote.blockHash ≠ call.pre.finalizedHead →
    6666 * call.pre.validators.exactTotal < 10000 * call.pre.stakeWith vote →
      2 * call.pre.validators.exactTotal < 3 * call.pre.stakeWith vote

/-- Every block that becomes finalized has more than two thirds of the stake behind it, and any two
of them share voters with more than one third. -/
structure QuorumFinality (set : ValidatorSet) (calls : List (Call Chain Request Bool)) : Prop where
  quorum : ∀ call ∈ calls, ∀ blockHash, Finalizes call blockHash →
    2 * set.exactTotal < 3 * Quorum.held set.stakeOf (call.post.voters blockHash)
  shared : ∀ call ∈ calls, ∀ call' ∈ calls, ∀ blockHash blockHash', blockHash ≠ blockHash' →
    Finalizes call blockHash → Finalizes call' blockHash' →
      set.exactTotal <
        3 * Quorum.held set.stakeOf (call.post.voters blockHash ∩ call'.post.voters blockHash')

/-- The request is a vote. -/
def Request.IsVote (request : Request) : Prop := ∃ host vote, request = .vote host vote

variable {start : Chain} {calls : List (Call Chain Request Bool)}

/-- In a run of votes no key is recorded twice and the validators stay. -/
theorem votes_of_run (hvotes : start.votes = ∅) (hrun : Run (serve crypto) start calls chain)
    (honly : ∀ call ∈ calls, call.label.IsVote) {call : Call Chain Request Bool}
    (hcall : call ∈ calls) :
    (call.pre.OneVoteEach ∧ call.pre.validators = start.validators) ∧
      call.post.OneVoteEach ∧ call.post.validators = start.validators := by
  refine Run.invariant_of_mem (fun s => s.OneVoteEach ∧ s.validators = start.validators)
    (fun _ request => request.IsVote) ⟨fun blockHash => ?_, rfl⟩ ?_ hrun honly hcall
  · unfold voterKeys votesFor
    rw [hvotes]
    exact List.nodup_nil
  · rintro s request output s' ⟨hone, hvalidators⟩ ⟨host, vote, rfl⟩ hnext
    obtain rfl := (Prod.mk.inj (Option.some.inj hnext)).2
    refine ⟨oneVoteEach_addVote hone crypto host vote, ?_⟩
    rcases addVote_cases crypto host s vote with ⟨-, -, hcounted⟩ | ⟨-, -, huncounted⟩
    · exact hcounted.validators.trans hvalidators
    · exact huncounted.validators.trans hvalidators

/-- A vote finalizes a block exactly if it counts, is for another block than the finalized one and
brings the block above 0.6666 of the total stake. -/
theorem finalizes_iff {call : Call Chain Request Bool} {host : Host}
    (hone : call.post.OneVoteEach) (hbuilt : call.pre.validators.Built)
    (hfits : call.pre.validators.exactTotal < 2 ^ 64) (hlabel : call.label = .vote host vote)
    (hnext : serve crypto call.pre call.label = some (call.output, call.post)) :
    Finalizes call blockHash ↔
      Counts crypto call.pre vote ∧ vote.blockHash ≠ call.pre.finalizedHead ∧
        blockHash = vote.blockHash ∧
        6666 * call.pre.validators.exactTotal < 10000 * call.pre.stakeWith vote := by
  rw [hlabel] at hnext
  have hpost : (addVote crypto host call.pre vote).2 = call.post :=
    congrArg Prod.snd (Option.some.inj hnext)
  unfold Finalizes
  rcases addVote_cases crypto host call.pre vote with ⟨hcounts, -, hcounted⟩ | ⟨hcounts, -, huncounted⟩
  · rw [hpost] at hcounted
    have htally := toNat_voteStake hone (hcounted.validators ▸ hfits) vote.blockHash
    rw [hcounted.validators, hcounted.voters hcounts] at htally
    have htotal := hbuilt.totalStake
    rw [Nat.mod_eq_of_lt hfits] at htotal
    have hmeets : meetsThreshold (call.post.voteStake vote.blockHash)
        call.pre.validators.getTotalStake ↔
        6666 * call.pre.validators.exactTotal < 10000 * call.pre.stakeWith vote := by
      have hbound := call.pre.validators.held_le_exactTotal
        (insert vote.validatorPubkey (call.pre.voters vote.blockHash))
      unfold meetsThreshold ValidatorSet.getTotalStake stakeWith
      rw [htally, htotal, UInt64.lt_iff_toNat_lt, htotal, UInt64.toNat_zero]
      omega
    rw [hcounted.finalized]
    by_cases habove : 6666 * call.pre.validators.exactTotal < 10000 * call.pre.stakeWith vote
    · rw [if_pos (hmeets.mpr habove)]
      constructor
      · rintro ⟨hne, rfl⟩
        exact ⟨hcounts, hne.symm, rfl, habove⟩
      · rintro ⟨-, hne, rfl, -⟩
        exact ⟨hne.symm, rfl⟩
    · rw [if_neg (mt hmeets.mp habove)]
      constructor
      · rintro ⟨hne, heq⟩
        exact absurd heq hne
      · rintro ⟨-, -, -, habove'⟩
        exact absurd habove' habove
  · rw [hpost] at huncounted
    rw [huncounted.finalized]
    constructor
    · rintro ⟨hne, heq⟩
      exact absurd heq hne
    · rintro ⟨hcounts', -⟩
      exact absurd hcounts' hcounts

/-- The voters after a counted vote hold the stake that the block had with this vote. -/
theorem held_voters_of_counts {call : Call Chain Request Bool} {host : Host}
    (hcounts : Counts crypto call.pre vote) (hlabel : call.label = .vote host vote)
    (hnext : serve crypto call.pre call.label = some (call.output, call.post)) :
    Quorum.held call.pre.validators.stakeOf (call.post.voters vote.blockHash) =
      call.pre.stakeWith vote := by
  rw [hlabel] at hnext
  have hpost : (addVote crypto host call.pre vote).2 = call.post :=
    congrArg Prod.snd (Option.some.inj hnext)
  rcases addVote_cases crypto host call.pre vote with ⟨-, -, hcounted⟩ | ⟨hnot, -, -⟩
  · rw [hpost] at hcounted
    rw [hcounted.voters hcounts, stakeWith]
  · exact absurd hcounts hnot

/-- In every run of votes on a set of validators whose total stake fits in 64 bits, finality has
its quorums exactly if no vote lands its block between 0.6666 and two thirds. -/
theorem quorumFinality_iff_clearOfThreshold (hbuilt : start.validators.Built)
    (hfits : start.validators.exactTotal < 2 ^ 64) (hvotes : start.votes = ∅)
    (hrun : Run (serve crypto) start calls chain) (honly : ∀ call ∈ calls, call.label.IsVote) :
    QuorumFinality start.validators calls ↔ ∀ call ∈ calls, ClearOfThreshold crypto call := by
  have hpre : ∀ call ∈ calls, call.pre.validators = start.validators := fun call hcall =>
    (votes_of_run hvotes hrun honly hcall).1.2
  have hfinalizes : ∀ call ∈ calls, ∀ host vote, call.label = .vote host vote → ∀ blockHash,
      Finalizes call blockHash ↔
        Counts crypto call.pre vote ∧ vote.blockHash ≠ call.pre.finalizedHead ∧
          blockHash = vote.blockHash ∧
          6666 * call.pre.validators.exactTotal < 10000 * call.pre.stakeWith vote := by
    intro call hcall host vote hlabel blockHash
    have hone := (votes_of_run hvotes hrun honly hcall).2.1
    exact finalizes_iff hone ((hpre call hcall).symm ▸ hbuilt) ((hpre call hcall).symm ▸ hfits)
      hlabel (hrun.next_of_mem hcall)
  constructor
  · intro hfinality call hcall host vote hlabel hcounts hne habove
    have hmoved := (hfinalizes call hcall host vote hlabel vote.blockHash).mpr
      ⟨hcounts, hne, rfl, habove⟩
    have hquorum := hfinality.quorum call hcall vote.blockHash hmoved
    rwa [← hpre call hcall, held_voters_of_counts hcounts hlabel (hrun.next_of_mem hcall)] at hquorum
  · intro hclear
    have hquorum : ∀ call ∈ calls, ∀ blockHash, Finalizes call blockHash →
        2 * start.validators.exactTotal <
          3 * Quorum.held start.validators.stakeOf (call.post.voters blockHash) := by
      intro call hcall blockHash hmoved
      obtain ⟨host, vote, hlabel⟩ := honly call hcall
      obtain ⟨hcounts, hne, rfl, habove⟩ := (hfinalizes call hcall host vote hlabel blockHash).mp hmoved
      have hclear' := hclear call hcall host vote hlabel hcounts hne habove
      rwa [← held_voters_of_counts hcounts hlabel (hrun.next_of_mem hcall), hpre call hcall] at hclear'
    refine ⟨hquorum, fun call hcall call' hcall' blockHash blockHash' _ hmoved hmoved' => ?_⟩
    exact Quorum.third_lt_held_inter _ (start.validators.held_le_exactTotal _)
      (hquorum call hcall blockHash hmoved) (hquorum call' hcall' blockHash' hmoved')

/-- A network of Alice, Bob and the validator with stakes. -/
def network (stakes : List UInt64) : Option Chain :=
  Chain.start Crypto.plain Host.plain .empty Sample.genesis []
    ([Sample.alice, Sample.bob, Sample.validator].zip stakes)

/-- A vote of a key for the first block of the network. -/
def firstBlockVote (pubkey : Bytes) : Vote :=
  Node.castVote Crypto.plain pubkey (Sample.block Sample.genesis 1 [])

/-- Alice and Bob vote for the first block. -/
def twoVotes : List Request :=
  [.vote Host.plain (firstBlockVote Sample.alice), .vote Host.plain (firstBlockVote Sample.bob)]

/-- With equal stakes two of three votes finalize the block: exactly two thirds. -/
theorem finalized_by_two_thirds :
    ∃ opened calls chain, network [1000, 1000, 1000] = some opened ∧
      Run (serve Crypto.plain) opened calls chain ∧ calls.map Call.label = twoVotes ∧
      ¬ QuorumFinality opened.validators calls := by
  obtain ⟨opened, calls, chain, hstart, hrun, hlabels, hcheck⟩ := Run.exists_of_trace_from
    (serve Crypto.plain) (network [1000, 1000, 1000]) twoVotes
    (fun opened calls _ => decide (∃ call ∈ calls,
      let first := (Sample.block Sample.genesis 1 []).hash
      call.pre.finalizedHead ≠ first ∧ call.post.finalizedHead = first ∧
        3 * Quorum.held opened.validators.stakeOf (call.post.voters first) ≤
          2 * opened.validators.exactTotal)) (by decide +kernel)
  obtain ⟨call, hcall, hbefore, hafter, hstake⟩ := of_decide_eq_true hcheck
  refine ⟨opened, calls, chain, hstart, hrun, hlabels, fun hfinality => ?_⟩
  exact absurd (hfinality.quorum call hcall _ ⟨hbefore, hafter⟩) (Nat.not_lt.mpr hstake)

/-- With twice the stake at Alice they finalize it by three quarters. -/
theorem quorumFinality_iff_clearOfThreshold_three_quarters :
    ∃ opened calls chain, network [2000, 1000, 1000] = some opened ∧
      Run (serve Crypto.plain) opened calls chain ∧ calls.map Call.label = twoVotes ∧
      chain.finalizedHead = (Sample.block Sample.genesis 1 []).hash ∧
      QuorumFinality opened.validators calls := by
  obtain ⟨opened, calls, chain, hstart, hrun, hlabels, hcheck⟩ := Run.exists_of_trace_from
    (serve Crypto.plain) (network [2000, 1000, 1000]) twoVotes
    (fun opened calls chain => decide (opened.validators.exactTotal < 2 ^ 64 ∧
      chain.finalizedHead = (Sample.block Sample.genesis 1 []).hash ∧
      ∀ call ∈ calls, ∀ vote ∈ [firstBlockVote Sample.alice, firstBlockVote Sample.bob],
        6666 * call.pre.validators.exactTotal < 10000 * call.pre.stakeWith vote →
          2 * call.pre.validators.exactTotal < 3 * call.pre.stakeWith vote)) (by decide +kernel)
  obtain ⟨hfits, hfinalized, hclear⟩ := of_decide_eq_true hcheck
  have hvote : ∀ call ∈ calls, ∃ vote ∈ [firstBlockVote Sample.alice, firstBlockVote Sample.bob],
      call.label = .vote Host.plain vote := by
    intro call hcall
    have hmem : call.label ∈ twoVotes := hlabels ▸ List.mem_map_of_mem hcall
    simpa [twoVotes] using hmem
  have hopened : opened.validators.Built ∧ opened.votes = ∅ := by
    obtain ⟨trie, rfl⟩ := start_eq Host.plain_reliable hstart
    exact ⟨ValidatorSet.Built.new.foldl_register _, rfl⟩
  refine ⟨opened, calls, chain, hstart, hrun, hlabels, hfinalized,
    (quorumFinality_iff_clearOfThreshold hopened.1 hfits hopened.2 hrun fun call hcall => ?_).mpr ?_⟩
  · obtain ⟨vote, -, hlabel⟩ := hvote call hcall
    exact ⟨Host.plain, vote, hlabel⟩
  · intro call hcall host vote hlabel _ _ habove
    obtain ⟨cast, hcast, hlabel'⟩ := hvote call hcall
    obtain ⟨-, rfl⟩ := Request.vote.inj (hlabel'.symm.trans hlabel)
    exact hclear call hcall cast hcast habove

end Chain

end Nocostcoin
