import Nocostcoin.Chain.BlockTree
import Nocostcoin.Chain.Votes

/-!
# The direction of finality

`check_finality` looks at the block just voted for and not at the finalized one. A late vote for an
ancestor of the finalized block that has its quorum takes the finalized head back; along one branch
of votes nothing else does.
-/

namespace Nocostcoin

open Execution

variable {crypto : Crypto}

namespace Chain

variable {chain chain' start : Chain} {vote : Vote} {calls : List (Call Chain Request Bool)}

/-- A vote that counts comes after a proper descendant of its block was finalized, and together
with the recorded votes it reaches the threshold. -/
structure LateQuorum (crypto : Crypto) (genesisHash : String) (chain : Chain) (vote : Vote) : Prop where
  counts : Counts crypto chain vote
  quorum : meetsThreshold
    (chain.voteStake vote.blockHash + chain.validators.stakeWord vote.validatorPubkey)
    chain.validators.getTotalStake
  other : vote.blockHash ≠ chain.finalizedHead
  behind : chain.Descends genesisHash vote.blockHash chain.finalizedHead

/-- A counted vote adds its voter's stake to the tally. -/
theorem Counted.voteStake (h : Counted chain vote chain') :
    chain'.voteStake vote.blockHash =
      chain.voteStake vote.blockHash + chain.validators.stakeWord vote.validatorPubkey := by
  rw [voteStake_eq, voteStake_eq, voterKeys, voterKeys, h.votes, if_pos rfl, h.validators,
    List.map_append, List.map_singleton, List.foldl_append]
  rfl

/-- Every call moved the finalized head to a descendant of itself, or left it, and its slot did not
fall. -/
structure FinalityForward (genesisHash : String) (calls : List (Call Chain Request Bool)) : Prop where
  descends : ∀ call ∈ calls,
    call.post.Descends genesisHash call.pre.finalizedHead call.post.finalizedHead
  slots : ∀ call ∈ calls, ∃ before after, call.pre.getBlock call.pre.finalizedHead = some before ∧
    call.post.getBlock call.post.finalizedHead = some after ∧ before.header.slot ≤ after.header.slot

/-- The finalized head is the genesis block or was voted for. -/
def FinalizedVoted (genesisHash : String) (chain : Chain) (calls : List (Call Chain Request Bool)) :
    Prop :=
  chain.finalizedHead = genesisHash ∨ ∃ call ∈ calls, ∃ host vote,
    call.label = .vote host vote ∧ vote.blockHash = chain.finalizedHead

/-- A request leaves the finalized head alone or moves it to the block it votes for. -/
theorem finalizedHead_of_serve {request : Request} {output : Bool} (hrunning : request.Running)
    (h : serve crypto chain request = some (output, chain')) :
    chain'.finalizedHead = chain.finalizedHead ∨ ∃ host vote, request = .vote host vote ∧
      chain'.finalizedHead = vote.blockHash ∧ Counts crypto chain vote ∧
      meetsThreshold (chain.voteStake vote.blockHash +
        chain.validators.stakeWord vote.validatorPubkey) chain.validators.getTotalStake := by
  cases request with
  | deliver host block => exact .inl (blocks_of_delivery (delivery_of_addBlock h)).2.2
  | reopen => exact hrunning.elim
  | vote host vote =>
    have hpost : (addVote crypto host chain vote).2 = chain' := congrArg Prod.snd (Option.some.inj h)
    rcases addVote_cases crypto host chain vote with ⟨hcounts, -, hcounted⟩ | ⟨-, -, huncounted⟩
    · rw [hpost] at hcounted
      have hfinalized := hcounted.finalized
      rw [hcounted.voteStake] at hfinalized
      split at hfinalized
      · rename_i hmeets
        exact .inr ⟨host, vote, rfl, hfinalized, hcounts, hmeets⟩
      · exact .inl hfinalized
    · rw [hpost] at huncounted
      exact .inl huncounted.finalized

/-- Over a whole run the finalized head is the genesis block or was voted for. -/
theorem finalizedVoted_of_run {genesisHash : String} (hstart : start.finalizedHead = genesisHash)
    (hrun : Run (serve crypto) start calls chain) (hrunning : ∀ call ∈ calls, call.label.Running) :
    FinalizedVoted genesisHash chain calls := by
  induction hrun with
  | nil => exact .inl hstart
  | @snoc calls s s' request output hbefore hnext ih =>
    have hlast : (⟨s, request, output, s'⟩ : Call Chain Request Bool) ∈
        calls ++ [⟨s, request, output, s'⟩] := List.mem_append_right _ (List.mem_singleton_self _)
    rcases finalizedHead_of_serve (hrunning _ hlast) hnext with hsame | ⟨host, vote, rfl, hmoved, -, -⟩
    · unfold FinalizedVoted
      rw [hsame]
      refine (ih fun call hcall => hrunning call (List.mem_append_left _ hcall)).imp_right ?_
      rintro ⟨call, hcall, hvoted⟩
      exact ⟨call, List.mem_append_left _ hcall, hvoted⟩
    · exact .inr ⟨_, hlast, host, vote, rfl, hmoved.symm⟩

/-- The finalized head is a stored block, if votes are for stored blocks. -/
theorem finalized_stored {genesisHash : String} (hrooted : start.Rooted genesisHash)
    (hrun : Run (serve crypto) start calls chain) (hrunning : ∀ call ∈ calls, call.label.Running)
    (hkeeps : ∀ call ∈ calls, call.pre.KeepsBlocks crypto call.label)
    (hstored : ∀ call ∈ calls, ∀ host vote, call.label = .vote host vote →
      ∃ block, call.pre.getBlock vote.blockHash = some block)
    (hvoted : FinalizedVoted genesisHash chain calls) :
    ∃ block, chain.getBlock chain.finalizedHead = some block := by
  rcases hvoted with hgenesis | ⟨call, hcall, host, vote, hlabel, hhash⟩
  · rw [hgenesis]
    exact Option.isSome_iff_exists.mp (tree_of_run hrooted hrun hrunning hkeeps).1.root
  · obtain ⟨-, -, hstep, hrest⟩ := tree_around hrooted hrun hrunning hkeeps hcall
    obtain ⟨block, hblock⟩ := hstored call hcall host vote hlabel
    rw [← hhash]
    exact ⟨block, hstep.trans hrest _ _ hblock⟩

/-- A counted vote that reaches the threshold takes the finalized head to its block. -/
theorem finalizedHead_of_lateQuorum {genesisHash : String} {host : Host} {output : Bool}
    (hlate : LateQuorum crypto genesisHash chain vote)
    (h : serve crypto chain (.vote host vote) = some (output, chain')) :
    chain'.finalizedHead = vote.blockHash := by
  have hresult : (addVote crypto host chain vote).2 = chain' := congrArg Prod.snd (Option.some.inj h)
  rcases addVote_cases crypto host chain vote with ⟨-, -, hcounted⟩ | ⟨hnot, -, -⟩
  · rw [hresult] at hcounted
    rw [hcounted.finalized, hcounted.voteStake, if_pos hlate.quorum]
  · exact absurd hlate.counts hnot

/-- Before every call the finalized head is a stored block, and the genesis block or voted for. -/
theorem finalized_before {genesisHash : String} (hrooted : start.Rooted genesisHash)
    (hgenesis : start.finalizedHead = genesisHash) (hrun : Run (serve crypto) start calls chain)
    (hrunning : ∀ call ∈ calls, call.label.Running)
    (hkeeps : ∀ call ∈ calls, call.pre.KeepsBlocks crypto call.label)
    (hstored : ∀ call ∈ calls, ∀ host vote, call.label = .vote host vote →
      ∃ block, call.pre.getBlock vote.blockHash = some block)
    {call : Call Chain Request Bool} (hcall : call ∈ calls) :
    FinalizedVoted genesisHash call.pre calls ∧
      ∃ block, call.pre.getBlock call.pre.finalizedHead = some block := by
  obtain ⟨earlier, later, rfl⟩ := List.append_of_mem hcall
  have hleft : ∀ call' ∈ earlier, call' ∈ earlier ++ call :: later := fun call' hcall' =>
    List.mem_append_left _ hcall'
  have hvoted := finalizedVoted_of_run hgenesis hrun.around.1 fun call' hcall' =>
    hrunning call' (hleft call' hcall')
  constructor
  · apply hvoted.imp_right
    intro ⟨call', hcall', hfor⟩
    exact ⟨call', hleft call' hcall', hfor⟩
  · exact finalized_stored hrooted hrun.around.1
      (fun call' hcall' => hrunning call' (hleft call' hcall'))
      (fun call' hcall' => hkeeps call' (hleft call' hcall'))
      (fun call' hcall' => hstored call' (hleft call' hcall')) hvoted

/-- A call that is no late quorum takes the finalized head to a descendant of itself, if the voted
blocks are stored and lie on one branch. -/
theorem descends_of_prompt {genesisHash : String} (hrooted : start.Rooted genesisHash)
    (hgenesis : start.finalizedHead = genesisHash) (hrun : Run (serve crypto) start calls chain)
    (hrunning : ∀ call ∈ calls, call.label.Running)
    (hstored : ∀ call ∈ calls, ∀ host vote, call.label = .vote host vote →
      ∃ block, call.pre.getBlock vote.blockHash = some block)
    (hbranch : ∀ call ∈ calls, ∀ call' ∈ calls, ∀ host vote host' vote',
      call.label = .vote host vote → call'.label = .vote host' vote' →
        chain.Descends genesisHash vote.blockHash vote'.blockHash ∨
          chain.Descends genesisHash vote'.blockHash vote.blockHash)
    (hkeeps : ∀ call ∈ calls, call.pre.KeepsBlocks crypto call.label)
    {call : Call Chain Request Bool} (hcall : call ∈ calls)
    (hprompt : ∀ host vote, call.label = .vote host vote →
      ¬ LateQuorum crypto genesisHash call.pre vote) :
    ∃ before after, call.pre.getBlock call.pre.finalizedHead = some before ∧
      call.post.getBlock call.post.finalizedHead = some after ∧
      call.post.Descends genesisHash call.pre.finalizedHead call.post.finalizedHead := by
  obtain ⟨hpre, hpost, hstep, hrest⟩ := tree_around hrooted hrun hrunning hkeeps hcall
  obtain ⟨hvoted, before, hbefore⟩ :=
    finalized_before hrooted hgenesis hrun hrunning hkeeps hstored hcall
  rcases finalizedHead_of_serve (hrunning call hcall) (hrun.next_of_mem hcall) with
    hsame | ⟨host, vote, hlabel, hmoved, hcounts, hmeets⟩
  · rw [hsame]
    exact ⟨before, before, hbefore, hstep _ _ hbefore, .refl _⟩
  · obtain ⟨after, hafter⟩ := hstored call hcall host vote hlabel
    rw [hmoved]
    refine ⟨before, after, hbefore, hstep _ _ hafter, ?_⟩
    rcases hvoted with hroot | ⟨call', hcall', host', vote', hlabel', hhash⟩
    · rw [hroot]
      exact hpost.descends (hstep _ _ hafter)
    · rcases hbranch call' hcall' call hcall host' vote' host vote hlabel' hlabel with hdown | hup
      · rw [← hhash]
        exact hdown.of_grows hpost hrest (hstep _ _ hafter)
      · -- the vote is for an ancestor of the finalized head, so it is that block or late
        rw [hhash] at hup
        have hbehind := hup.of_grows hpre (hstep.trans hrest) hbefore
        by_cases hsame : vote.blockHash = call.pre.finalizedHead
        · rw [hsame]
          exact .refl _
        · exact absurd ⟨hcounts, hmeets, hsame, hbehind⟩ (hprompt host vote hlabel)

/-- In every run of deliveries and votes on a fresh node in which every vote is for a stored block,
the voted blocks lie on one branch and no delivered block replaces another stored one: finality
goes forward exactly if no late quorum arrives. -/
theorem finalityForward_iff {host : Host} {storage : Storage} {genesisBlock : Block}
    {balances stakes : List (Bytes × UInt64)} {opened : Chain} (hblocks : storage.blocks = ∅)
    (hfresh : storage.head = none)
    (hopened : Chain.start crypto host storage genesisBlock balances stakes = some opened)
    (hrun : Run (serve crypto) opened calls chain) (hrunning : ∀ call ∈ calls, call.label.Running)
    (hstored : ∀ call ∈ calls, ∀ host vote, call.label = .vote host vote →
      ∃ block, call.pre.getBlock vote.blockHash = some block)
    (hbranch : ∀ call ∈ calls, ∀ call' ∈ calls, ∀ host vote host' vote',
      call.label = .vote host vote → call'.label = .vote host' vote' →
        chain.Descends genesisBlock.hash vote.blockHash vote'.blockHash ∨
          chain.Descends genesisBlock.hash vote'.blockHash vote.blockHash)
    (hkeeps : ∀ call ∈ calls, call.pre.KeepsBlocks crypto call.label) :
    FinalityForward genesisBlock.hash calls ↔
      ∀ call ∈ calls, ∀ host vote, call.label = .vote host vote →
        ¬ LateQuorum crypto genesisBlock.hash call.pre vote := by
  obtain ⟨hgenesis, -, -, hfinalized⟩ := start_on_fresh hblocks hfresh hopened
  have hrooted := rooted_of_genesis hgenesis
  constructor
  · intro hforward call hcall host vote hlabel hlate
    obtain ⟨-, hpost, hstep, -⟩ := tree_around hrooted hrun hrunning hkeeps hcall
    have hdescends := hforward.descends call hcall
    have hnext := hrun.next_of_mem hcall
    rw [hlabel] at hnext
    rw [finalizedHead_of_lateQuorum hlate hnext] at hdescends
    exact hlate.other (ParentTree.Descends.antisymm hpost.grounded (hlate.behind.grow hstep) hdescends)
  · intro hprompt
    have hmoves := fun call hcall => descends_of_prompt hrooted hfinalized hrun hrunning hstored hbranch
      hkeeps hcall (hprompt call hcall)
    refine ⟨fun call hcall => ?_, fun call hcall => ?_⟩
    · obtain ⟨-, -, -, -, hdescends⟩ := hmoves call hcall
      exact hdescends
    · obtain ⟨before, after, hbefore, hafter, hdescends⟩ := hmoves call hcall
      obtain ⟨-, hpost, hstep, -⟩ := tree_around hrooted hrun hrunning hkeeps hcall
      have hle := hdescends.rank_le hpost.grounded
      rw [slotOf_eq (hstep _ _ hbefore), slotOf_eq hafter] at hle
      exact ⟨before, after, hbefore, hafter, UInt64.le_iff_toNat_le.mpr hle⟩

/-- The vote that a request casts. -/
def Request.cast : Request → Option Vote
  | .vote _ vote => some vote
  | _ => none

/-- The first block of the network and a child of it. -/
def firstBlock : Block := Sample.block Sample.genesis 1 []

def secondBlock : Block := Sample.block firstBlock 2 []

/-- The validator, with half of the stake, and Alice, with a quarter, vote for two blocks in turn. -/
def twoQuorums (earlier later : Block) : List Request :=
  [.deliver Host.plain firstBlock, .deliver Host.plain secondBlock,
    .vote Host.plain (Node.castVote Crypto.plain Sample.validator earlier),
    .vote Host.plain (Node.castVote Crypto.plain Sample.alice earlier),
    .vote Host.plain (Node.castVote Crypto.plain Sample.validator later),
    .vote Host.plain (Node.castVote Crypto.plain Sample.alice later)]

/-- When the votes for the parent arrive last, the finalized head goes back to it. -/
theorem finality_goes_back :
    ∃ opened calls chain, network [1000, 1000, 2000] = some opened ∧
      Run (serve Crypto.plain) opened calls chain ∧
      calls.map Call.label = twoQuorums secondBlock firstBlock ∧
      calls.map Call.output = [true, true, true, true, true, true] ∧
      ¬ FinalityForward Sample.genesis.hash calls := by
  obtain ⟨opened, calls, chain, hstart, hrun, hlabels, hcheck⟩ := Run.exists_of_trace_from
    (serve Crypto.plain) (network [1000, 1000, 2000]) (twoQuorums secondBlock firstBlock)
    (fun _ calls _ => decide (calls.map Call.output = [true, true, true, true, true, true] ∧
      ∃ call ∈ calls, call.pre.getBlock call.pre.finalizedHead = some secondBlock ∧
        call.post.getBlock call.post.finalizedHead = some firstBlock ∧
        firstBlock.header.slot < secondBlock.header.slot)) (by decide +kernel)
  obtain ⟨houtputs, call, hcall, hpre, hpost, hslots⟩ := of_decide_eq_true hcheck
  refine ⟨opened, calls, chain, hstart, hrun, hlabels, houtputs, fun hforward => ?_⟩
  obtain ⟨before, after, hbefore, hafter, hle⟩ := hforward.slots call hcall
  obtain rfl := Option.some.inj (hpre.symm.trans hbefore)
  obtain rfl := Option.some.inj (hpost.symm.trans hafter)
  exact absurd hle (UInt64.not_le.mpr hslots)

/-- When the votes arrive in the order of the blocks, it goes forward. -/
theorem finalityForward_iff_in_order :
    ∃ opened calls chain, network [1000, 1000, 2000] = some opened ∧
      Run (serve Crypto.plain) opened calls chain ∧
      calls.map Call.label = twoQuorums firstBlock secondBlock ∧
      chain.finalizedHead = secondBlock.hash ∧ FinalityForward Sample.genesis.hash calls := by
  obtain ⟨opened, calls, chain, hstart, hrun, hlabels, hcheck⟩ := Run.exists_of_trace_from
    (serve Crypto.plain) (network [1000, 1000, 2000]) (twoQuorums firstBlock secondBlock)
    (fun _ calls chain => decide (chain.finalizedHead = secondBlock.hash ∧
      chain.getBlock secondBlock.hash = some secondBlock ∧
      (∀ call ∈ calls, ∀ block ∈ call.label.delivered.toList, call.pre.getBlock block.hash = none) ∧
      ∀ call ∈ calls, ∀ vote ∈ call.label.cast.toList,
        (call.pre.getBlock vote.blockHash).isSome ∧
          (vote.blockHash = firstBlock.hash ∨ vote.blockHash = secondBlock.hash) ∧
          call.pre.slotOf call.pre.finalizedHead < call.pre.slotOf vote.blockHash))
    (by decide +kernel)
  obtain ⟨hfinalized, hsecond, hnew, hvotes⟩ := of_decide_eq_true hcheck
  have hrunning : ∀ call ∈ calls, call.label.Running := by
    intro call hcall
    have hmem : call.label ∈ twoQuorums firstBlock secondBlock :=
      hlabels ▸ List.mem_map_of_mem hcall
    have hall : ∀ request ∈ twoQuorums firstBlock secondBlock, request.Running := by
      simp [twoQuorums, Request.Running]
    exact hall _ hmem
  have hvote : ∀ call ∈ calls, ∀ host vote, call.label = .vote host vote →
      vote ∈ call.label.cast.toList := by
    intro call _ host vote hlabel
    simp [hlabel, Request.cast]
  have hkeeps : ∀ call ∈ calls, call.pre.KeepsBlocks Crypto.plain call.label := by
    intro call hcall host block parent hlabel _ other hother
    have hnone := hnew call hcall block (by simp [hlabel, Request.delivered])
    exact absurd (hother.symm.trans hnone) (Option.some_ne_none other)
  have hdown : chain.Descends Sample.genesis.hash firstBlock.hash secondBlock.hash := by
    have hroot : secondBlock.hash ≠ Sample.genesis.hash := by decide +kernel
    exact ⟨_, .child hroot hsecond .refl⟩
  obtain ⟨hgenesis, -, -, -⟩ := start_on_fresh rfl rfl hstart
  refine ⟨opened, calls, chain, hstart, hrun, hlabels, hfinalized,
    (finalityForward_iff rfl rfl hstart hrun hrunning ?_ ?_ hkeeps).mpr ?_⟩
  · intro call hcall host vote hlabel
    exact Option.isSome_iff_exists.mp (hvotes call hcall vote (hvote call hcall host vote hlabel)).1
  · intro call hcall call' hcall' host vote host' vote' hlabel hlabel'
    rcases (hvotes call hcall vote (hvote call hcall host vote hlabel)).2.1 with h | h <;>
      rcases (hvotes call' hcall' vote' (hvote call' hcall' host' vote' hlabel')).2.1 with h' | h' <;>
        rw [h, h']
    · exact .inl (.refl _)
    · exact .inl hdown
    · exact .inr hdown
    · exact .inl (.refl _)
  · intro call hcall host vote hlabel hlate
    obtain ⟨hpre, -, -, -⟩ := tree_around (rooted_of_genesis hgenesis) hrun hrunning hkeeps hcall
    have hslots := (hvotes call hcall vote (hvote call hcall host vote hlabel)).2.2
    exact absurd (hlate.behind.rank_le hpre.grounded) (Nat.not_le.mpr hslots)

end Chain

end Nocostcoin
