import Nocostcoin.Library.Ticketing
import Nocostcoin.Network.Traffic

/-!
# Nobody is slashed without a forger

The slot of a block is the ticket that its validator's node makes it under, and a node makes blocks for
later and later slots. So as long as no two nodes share a validator key, no stranger sends blocks in the name
of one of the nodes, and no node is started twice, a slot has one block of each of them, however messages are
delayed, repeated or lost, and whatever the databases refuse to write.
-/

namespace Nocostcoin

open Execution

namespace Network

variable {deployment : Deployment} {network network' : Network} {peer : Bytes} {node node' : Node}
  {made : Option Block}

/-- The blocks known in the names of the nodes, with their slots as tickets. -/
def tickets (deployment : Deployment) (network : Network) : Ticketing.State Bytes ℕ String where
  counter peer := (network.nodes.lookup peer).elim 0 fun node => node.lastSlot.toNat
  attributed := {entry | ∃ config slot, deployment.peers.lookup entry.1 = some config ∧
    slot.toNat = entry.2.1 ∧
    network.Knows deployment.genesisBlock slot (config.validatorKey deployment.schemes) entry.2.2}

/-- The nodes hold their configured keys, slots are tickets, and no node of the deployment is slashed. -/
structure Orderly (deployment : Deployment) (network : Network) : Prop where
  keys : Keyed deployment network
  tickets : Ticketing.Consistent (network.tickets deployment)
  unslashed : ∀ peer node, network.nodes.lookup peer = some node →
    ∀ other config, deployment.peers.lookup other = some config →
      node.chain.validators.isSlashed (config.validatorKey deployment.schemes) = false

/-- A node starts only while it does not run. -/
def StartsOnce (network : Network) : Action → Prop
  | .boot peer _ => network.nodes.lookup peer = none
  | _ => True

/-- Before anything happens there is order. -/
theorem orderly_empty (deployment : Deployment) : Orderly deployment empty where
  keys := keyed_empty deployment
  unslashed peer node h := by simp [empty] at h
  tickets := by
    constructor
    · rintro party ticket hash ⟨config, slot, -, hslot, hknows⟩
      rw [(knows_empty hknows).1] at hslot
      exact hslot.symm.le.trans (Nat.zero_le _)
    · rintro party ticket hash hash' ⟨config, slot, -, -, hknows⟩ ⟨config', slot', -, -, hknows'⟩
      exact (knows_empty hknows).2.trans (knows_empty hknows').2.symm

/-- The ticket of the block made in a turn. -/
def issued (peer : Bytes) (made : Option Block) : Option (Bytes × ℕ × String) :=
  made.map fun block => (peer, block.header.slot.toNat, block.hash)

/-- A block that a turn's chain takes in, in the name of a node, is known or is being issued. -/
theorem known_of_offered {turn : Turn} {other : Bytes} {config : NodeConfig} {block : Block}
    (hdistinct : deployment.DistinctKeys) (horderly : Orderly deployment network)
    (h : TurnTaken deployment network turn node node' network')
    (hexchanges : node.Exchanges deployment.crypto turn.event made turn.commands node')
    (hconfig : deployment.peers.lookup other = some config)
    (hname : block.header.validatorPubkey = config.validatorKey deployment.schemes)
    (hoffered : network.Circulates block ∨ made = some block) :
    (other, block.header.slot.toNat, block.hash) ∈
      (network.tickets deployment).known (issued turn.peer made) := by
  rcases hoffered with hcirculates | hmade
  · exact .inl ⟨config, block.header.slot, hconfig, rfl,
      .inl ⟨block, .inr hcirculates, rfl, hname, rfl⟩⟩
  · obtain rfl := horderly.keys.maker hdistinct h hexchanges hconfig hmade hname
    refine .inr ?_
    rw [hmade]
    rfl

/-- The turn of a node is a step of the tickets. -/
theorem step_of_turn {turn : Turn} (hdistinct : deployment.DistinctKeys)
    (horderly : Orderly deployment network)
    (h : TurnTaken deployment network turn node node' network')
    (hbrings : ∀ block ∈ turn.event.brings, network.Circulates block)
    (hexchanges : node.Exchanges deployment.crypto turn.event made turn.commands node') :
    Ticketing.Step (network.tickets deployment) (issued turn.peer made) (network'.tickets deployment) where
  counter party := by
    unfold tickets
    dsimp only
    rw [h.lookup]
    split
    · rename_i heq
      rw [heq, h.running]
      exact hexchanges.lastSlot
    · exact Nat.le_refl _
  attributed := by
    rintro ⟨other, ticket, hash⟩ ⟨config, slot, hconfig, hslot, hknows⟩
    dsimp only at hconfig hslot hknows
    subst hslot
    rcases hknows with ⟨block, hknown, rfl, hname, rfl⟩ | ⟨holder, running, hrunning, hrecord⟩
    · rcases hknown with rfl | hcirculates
      · exact .inl ⟨config, _, hconfig, rfl, .inl ⟨_, .inl rfl, rfl, hname, rfl⟩⟩
      · exact known_of_offered hdistinct horderly h hexchanges hconfig hname
          ((h.circulates hbrings hexchanges hcirculates).imp_right And.left)
    · rw [h.lookup] at hrunning
      split at hrunning
      · obtain rfl := Option.some.inj hrunning
        rcases hexchanges.acts.onRecord hrecord with hold | ⟨block, hoffered, rfl, hname, rfl⟩
        · exact .inl ⟨config, slot, hconfig, rfl, .inr ⟨turn.peer, node, h.running, hold⟩⟩
        · exact known_of_offered hdistinct horderly h hexchanges hconfig hname
            (hoffered.imp_left (hbrings block))
      · exact .inl ⟨config, slot, hconfig, rfl, .inr ⟨holder, running, hrunning, hrecord⟩⟩
  fresh party ticket hash hissued := by
    obtain ⟨block, hmade, heq⟩ := Option.map_eq_some_iff.mp hissued
    obtain ⟨rfl, hrest⟩ := Prod.mk.inj heq
    obtain ⟨rfl, rfl⟩ := Prod.mk.inj hrest
    obtain ⟨hafter, hupto, -⟩ := hexchanges.fresh block hmade
    unfold tickets
    dsimp only
    rw [h.lookup, if_pos rfl, h.running]
    exact ⟨hafter, hupto⟩

/-- The turn of a node keeps order. -/
theorem orderly_of_turn {turn : Turn} (hdistinct : deployment.DistinctKeys)
    (horderly : Orderly deployment network)
    (h : TurnTaken deployment network turn node node' network')
    (hbrings : ∀ block ∈ turn.event.brings, network.Circulates block) : Orderly deployment network' := by
  obtain ⟨made, hexchanges⟩ := Node.exchanges_of_handle h.handled
  have hstep := step_of_turn hdistinct horderly h hbrings hexchanges
  refine ⟨horderly.keys.turn h hexchanges, hstep.consistent horderly.tickets, ?_⟩
  intro peer running hrunning other config hconfig
  rw [h.lookup] at hrunning
  split at hrunning
  · obtain rfl := Option.some.inj hrunning
    rw [← Bool.not_eq_true]
    intro hslashed
    rcases hexchanges.acts.isSlashed hslashed with
      hbefore | ⟨block, existing, hoffered, hname, hne, hother⟩
    · rw [horderly.unslashed turn.peer node h.running other config hconfig] at hbefore
      contradiction
    · -- both hashes are known under one ticket
      have hblock := known_of_offered hdistinct horderly h hexchanges hconfig hname
        (hoffered.imp_left (hbrings block))
      have hexisting : (other, block.header.slot.toNat, existing) ∈
          (network.tickets deployment).known (issued turn.peer made) := by
        rcases hother with hrecord | ⟨second, hsecond, hslot, hname', rfl⟩
        · exact .inl ⟨config, block.header.slot, hconfig, rfl,
            .inr ⟨turn.peer, node, h.running, hrecord⟩⟩
        · rw [← hslot]
          exact known_of_offered hdistinct horderly h hexchanges hconfig hname'
            (hsecond.imp_left (hbrings second))
      exact hne (hstep.unique_known horderly.tickets hexisting hblock)
  · exact horderly.unslashed peer running hrunning other config hconfig

/-- What strangers send keeps order, if no block of it is in the name of a node. -/
theorem orderly_of_sent (horderly : Orderly deployment network) (hnodes : network'.nodes = network.nodes)
    (hcirculates : ∀ block, network'.Circulates block →
      network.Circulates block ∨ Foreign deployment block) : Orderly deployment network' := by
  have hstep : Ticketing.Step (network.tickets deployment) none (network'.tickets deployment) := by
    refine ⟨fun party => ?_, ?_, by simp⟩
    · unfold tickets
      rw [hnodes]
    · rintro ⟨other, ticket, hash⟩ ⟨config, slot, hconfig, hslot, hknows⟩
      exact .inl ⟨config, slot, hconfig, hslot, knows_of_sent hnodes hcirculates hconfig hknows⟩
  refine ⟨?_, hstep.consistent horderly.tickets, ?_⟩
  · unfold Keyed
    rw [hnodes]
    exact horderly.keys
  · rw [hnodes]
    exact horderly.unslashed

/-- A first start keeps order. -/
theorem orderly_of_boot {config : NodeConfig} (horderly : Orderly deployment network)
    (hnew : network.nodes.lookup peer = none) (hconfig : deployment.peers.lookup peer = some config)
    (hstarted : Started deployment config (network.disk peer).1 node) :
    Orderly deployment { network with nodes := network.nodes.insert peer node } := by
  have hstep : Ticketing.Step (network.tickets deployment) none
      (tickets deployment { network with nodes := network.nodes.insert peer node }) := by
    refine ⟨fun party => ?_, ?_, by simp⟩
    · unfold tickets
      dsimp only
      rw [lookup_booted]
      split
      · rename_i heq
        rw [heq, hnew]
        exact Nat.zero_le _
      · exact Nat.le_refl _
    · rintro ⟨other, ticket, hash⟩ ⟨config', slot, hother, hslot, hknows⟩
      exact .inl ⟨config', slot, hother, hslot, knows_of_boot hstarted hknows⟩
  refine ⟨horderly.keys.boot hconfig hstarted, hstep.consistent horderly.tickets, ?_⟩
  intro other running hrunning name config' hname
  dsimp only at hrunning
  rw [lookup_booted] at hrunning
  split at hrunning
  · obtain rfl := Option.some.inj hrunning
    exact hstarted.unslashed _
  · exact horderly.unslashed other running hrunning name config' hname

/-- An action without forgery and restart keeps order. -/
theorem orderly_of_act {action : Action} {output : Option Turn} (hdistinct : deployment.DistinctKeys)
    (horderly : Orderly deployment network)
    (hunforged : Unforged deployment action) (honce : StartsOnce network action)
    (h : act deployment network action = some (output, network')) : Orderly deployment network' := by
  cases outcome_of_act h with
  | booted hconfig hboot =>
    exact orderly_of_boot horderly honce hconfig
      (started_of_boot (deployment.genesis_eq _ _ hconfig) hboot)
  | published message =>
    exact orderly_of_sent horderly rfl fun block hafter => circulates_of_publish hunforged hafter
  | asked envelope => exact orderly_of_sent horderly rfl fun block hafter => .inl hafter
  | answered envelope =>
    exact orderly_of_sent horderly rfl fun block hafter => circulates_of_answer hunforged hafter
  | turn harrival htaken =>
    exact orderly_of_turn hdistinct horderly htaken
      fun block hbrings => circulates_of_arrival harrival hbrings

/-- In every run of a network whose nodes have different validator keys, in which no node starts twice and
no stranger sends blocks in the name of a node, whatever is delayed, repeated, lost or refused by a database:
no node slashes a node of the deployment, and of each of them one block for a slot circulates at most, up to
its hash. -/
theorem nobody_slashed {calls : List (Call Network Action (Option Turn))}
    (hdistinct : deployment.DistinctKeys) (hrun : Run (act deployment) empty calls network)
    (hunforged : ∀ call ∈ calls, Unforged deployment call.label)
    (honce : ∀ call ∈ calls, StartsOnce call.pre call.label) :
    (∀ peer node, network.nodes.lookup peer = some node →
      ∀ other config, deployment.peers.lookup other = some config →
        node.chain.validators.isSlashed (config.validatorKey deployment.schemes) = false) ∧
    ∀ other config, deployment.peers.lookup other = some config →
      ∀ block block', network.Circulates block → network.Circulates block' →
        block.header.validatorPubkey = config.validatorKey deployment.schemes →
        block'.header.validatorPubkey = config.validatorKey deployment.schemes →
        block.header.slot = block'.header.slot → block.hash = block'.hash := by
  have horderly : Orderly deployment network :=
    Run.invariant (Orderly deployment)
      (fun before action => Unforged deployment action ∧ StartsOnce before action)
      (orderly_empty deployment)
      (fun _ _ _ _ hbefore hadmitted hact =>
        orderly_of_act hdistinct hbefore hadmitted.1 hadmitted.2 hact) hrun
      fun call hcall => ⟨hunforged call hcall, honce call hcall⟩
  refine ⟨horderly.unslashed, ?_⟩
  intro other config hconfig block block' hblock hblock' hname hname' hslot
  have hknown : network.Knows deployment.genesisBlock block.header.slot
      (config.validatorKey deployment.schemes) block.hash := .inl ⟨block, .inr hblock, rfl, hname, rfl⟩
  have hknown' : network.Knows deployment.genesisBlock block.header.slot
      (config.validatorKey deployment.schemes) block'.hash :=
    .inl ⟨block', .inr hblock', hslot.symm, hname', rfl⟩
  exact horderly.tickets.unique other block.header.slot.toNat block.hash block'.hash
    ⟨config, block.header.slot, hconfig, rfl, hknown⟩
    ⟨config, block.header.slot, hconfig, rfl, hknown'⟩

/-- Both nodes start, a stranger sends a block of its own, the first node makes a block in slot three, and
the second takes all of it, the block twice. -/
def gossipedActions : List Action :=
  [.boot [1] Host.plain, .boot [2] Host.plain, .publish (.newBlock (Sample.block Sample.genesis 3 [])),
    .own [1] (.slot Host.plain (Sample.tick 3)), .gossip [2] Host.plain 1, .gossip [2] Host.plain 0,
    .gossip [2] Host.plain 1, .gossip [2] Host.plain 2]

/-- The stranger's block is not in the name of one of the nodes. -/
theorem unforged_gossiped {action : Action} (h : action ∈ gossipedActions) :
    Unforged Sample.deployment action := by
  have hstranger : Foreign Sample.deployment (Sample.block Sample.genesis 3 []) := by
    intro peer config hconfig
    rcases Sample.lookup_peers hconfig with ⟨-, rfl⟩ | ⟨-, rfl⟩
    · decide +kernel
    · decide +kernel
  cases action with
  | publish message =>
    obtain rfl : message = .newBlock (Sample.block Sample.genesis 3 []) := by
      simpa [gossipedActions] using h
    exact hstranger
  | answer envelope => simp [gossipedActions] at h
  | _ => trivial

/-- The second node goes on with the block of the first, which nobody slashed. -/
theorem nobody_slashed_gossiped :
    ∃ calls network node, Run (act Sample.deployment) empty calls network ∧
      calls.map Call.label = gossipedActions ∧ network.nodes.lookup [2] = some node ∧
      node.chain.getHeight = some 3 ∧
      node.chain.validators.isSlashed (generateValidatorKeypair KeySchemes.plain "first") = false := by
  obtain ⟨calls, network, hrun, hlabels, hcheck⟩ := Run.exists_of_trace (act Sample.deployment) empty
    gossipedActions (fun calls network => (network.nodes.lookup [2]).any
      (fun node => decide (node.chain.getHeight = some 3)) && calls.all fun call =>
        match call.label with
        | .boot peer _ => (call.pre.nodes.lookup peer).isNone
        | _ => true) (by decide +kernel)
  obtain ⟨hheight, hboots⟩ := Bool.and_eq_true_iff.mp hcheck
  obtain ⟨node, hnode, hheight⟩ := (Option.any_eq_true _ _).mp hheight
  have hunforged : ∀ call ∈ calls, Unforged Sample.deployment call.label :=
    fun call hcall => unforged_gossiped (hlabels ▸ List.mem_map_of_mem hcall)
  have honce : ∀ call ∈ calls, StartsOnce call.pre call.label := by
    intro call hcall
    have hboot := List.all_eq_true.mp hboots call hcall
    generalize call.label = action at hboot ⊢
    cases action with
    | boot peer host => exact Option.isNone_iff_eq_none.mp hboot
    | _ => trivial
  exact ⟨calls, network, node, hrun, hlabels, hnode, of_decide_eq_true hheight,
    (nobody_slashed Sample.distinctKeys_deployment hrun hunforged honce).1 [2] node hnode [1] _
      Sample.lookup_first⟩

end Network

end Nocostcoin
