import Nocostcoin.Network.Traffic

/-!
# Finality needs the votes of nodes

A vote that a node counts in the name of another one was cast by that node for a block that it had
stored, unless somebody forged its signature; so a block is finalized only after the nodes behind two
thirds of the stake stored it and voted for it.
-/

namespace Nocostcoin

open Execution

namespace Network

variable {deployment : Deployment} {network network' : Network} {peer : Bytes} {node node' : Node}
  {calls : List (Call Network Action (Option Turn))} {vote : Vote}

/-- A turn of the node broadcast the vote and left the block stored that it is for. -/
def CastBy (calls : List (Call Network Action (Option Turn))) (peer : Bytes) (vote : Vote) : Prop :=
  ∃ call ∈ calls, ∃ turn node, call.output = some turn ∧ turn.peer = peer ∧
    .broadcastVote vote ∈ turn.commands ∧ call.post.nodes.lookup peer = some node ∧
    (node.chain.getBlock vote.blockHash).isSome

/-- If the vote is in the name of a node and signed, that node cast it. -/
def Traced (deployment : Deployment) (calls : List (Call Network Action (Option Turn))) (vote : Vote) :
    Prop :=
  Chain.verifyVote deployment.crypto vote = true → ∀ other config,
    deployment.peers.lookup other = some config →
    config.validatorKey deployment.schemes = vote.validatorPubkey → CastBy calls other vote

/-- Later calls take no votes back. -/
theorem Traced.append (h : Traced deployment calls vote)
    (later : List (Call Network Action (Option Turn))) : Traced deployment (calls ++ later) vote := by
  intro hsigned other config hconfig hkey
  obtain ⟨call, hcall, hcast⟩ := h hsigned other config hconfig hkey
  exact ⟨call, List.mem_append_left later hcall, hcast⟩

/-- The votes under way and those recorded by the nodes are traced, and a recorded vote is signed and
stands under its block. -/
structure VotesTraced (deployment : Deployment) (calls : List (Call Network Action (Option Turn)))
    (network : Network) : Prop where
  keys : Keyed deployment network
  gossip : ∀ vote, .vote vote ∈ network.gossip → Traced deployment calls vote
  recorded : ∀ peer node, network.nodes.lookup peer = some node → ∀ hash vote,
    vote ∈ node.chain.votesFor hash → vote.blockHash = hash ∧
      Chain.verifyVote deployment.crypto vote = true ∧ Traced deployment calls vote

/-- What strangers send keeps all votes traced, if they sign none in the name of a node. -/
theorem VotesTraced.sent {call : Call Network Action (Option Turn)}
    (htraced : VotesTraced deployment calls network) (hnodes : network'.nodes = network.nodes)
    (hgossip : ∀ vote, .vote vote ∈ network'.gossip →
      .vote vote ∈ network.gossip ∨ Traced deployment [] vote) :
    VotesTraced deployment (calls ++ [call]) network' := by
  constructor
  case keys =>
    unfold Keyed
    rw [hnodes]
    exact htraced.keys
  case gossip =>
    intro vote hvote
    rcases hgossip vote hvote with hold | hnew
    · exact (htraced.gossip vote hold).append _
    · exact hnew.append (calls ++ [call])
  case recorded =>
    intro peer running hrunning hash vote hvote
    rw [hnodes] at hrunning
    obtain ⟨hhash, hsigned, hcast⟩ := htraced.recorded peer running hrunning hash vote hvote
    exact ⟨hhash, hsigned, hcast.append _⟩

end Network

end Nocostcoin
