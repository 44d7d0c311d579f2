import Nocostcoin.Network
import Nocostcoin.Node.Exchange

/-!
# What circulates in a network

A block is under way or stored somewhere, and its hash is known for its slot and validator. An action
lets nothing new circulate but what a stranger sends, the genesis block, and the block that a node
makes in its slot.
-/

namespace Nocostcoin

open Execution

/-- What a command publishes. -/
def NetworkCommand.published : NetworkCommand → Option NetworkMessage
  | .broadcastBlock block => some (.newBlock block)
  | .broadcastTransaction tx => some (.newTransaction tx)
  | .broadcastVote vote => some (.vote vote)
  | _ => none

/-- Only a broadcast of a block publishes that block. -/
theorem NetworkCommand.published_newBlock {command : NetworkCommand} {block : Block}
    (h : command.published = some (.newBlock block)) : command = .broadcastBlock block := by
  cases command with
  | broadcastBlock other =>
    obtain rfl := NetworkMessage.newBlock.inj (Option.some.inj h)
    rfl
  | _ => simp [published] at h

namespace Network

variable {deployment : Deployment} {network network' : Network} {self peer : Bytes} {node node' : Node}
  {commands : List NetworkCommand} {event : Event} {made : Option Block}

/-- Commands publish their messages in turn. -/
theorem gossip_foldl (self : Bytes) (commands : List NetworkCommand) (network : Network) :
    (commands.foldl (handleCommand self) network).gossip =
      network.gossip ++ commands.filterMap NetworkCommand.published := by
  induction commands generalizing network with
  | nil => simp
  | cons command rest ih =>
    rw [List.foldl_cons, ih, List.filterMap_cons]
    cases command with
    | sendResponse channel response =>
      unfold handleCommand NetworkCommand.published
      dsimp only
      split <;> rfl
    | _ => simp [handleCommand, NetworkCommand.published]

/-- Commands start and stop no node. -/
theorem nodes_foldl (self : Bytes) (commands : List NetworkCommand) (network : Network) :
    (commands.foldl (handleCommand self) network).nodes = network.nodes := by
  induction commands generalizing network with
  | nil => rfl
  | cons command rest ih =>
    rw [List.foldl_cons, ih]
    cases command with
    | sendResponse channel response =>
      unfold handleCommand
      dsimp only
      split <;> rfl
    | _ => rfl

/-- An answer under way was under way before or was sent by a command. -/
theorem mem_responses_foldl {response : Envelope SyncResponse}
    (h : response ∈ (commands.foldl (handleCommand self) network).responses) :
    response ∈ network.responses ∨ ∃ channel, .sendResponse channel response.content ∈ commands := by
  induction commands generalizing network with
  | nil => exact .inl h
  | cons command rest ih =>
    rw [List.foldl_cons] at h
    rcases ih h with hbefore | ⟨channel, hsent⟩
    · cases command with
      | sendResponse channel content =>
        unfold handleCommand at hbefore
        dsimp only at hbefore
        split at hbefore
        · exact .inl hbefore
        · rcases List.mem_append.mp hbefore with hold | hnew
          · exact .inl hold
          · rw [List.mem_singleton.mp hnew]
            exact .inr ⟨channel, List.mem_cons_self⟩
      | _ => exact .inl hbefore
    · exact .inr ⟨channel, List.mem_cons_of_mem _ hsent⟩

/-- The block is under way or stored somewhere. -/
def Circulates (network : Network) (block : Block) : Prop :=
  .newBlock block ∈ network.gossip ∨
  (∃ response ∈ network.responses, ∃ blocks, response.content = .blocks blocks ∧ block ∈ blocks) ∨
  ∃ peer node hash, network.nodes.lookup peer = some node ∧ node.chain.getBlock hash = some block

/-- An action that a node takes an event by. -/
structure TurnTaken (deployment : Deployment) (network : Network) (turn : Turn) (node node' : Node)
    (network' : Network) : Prop where
  running : network.nodes.lookup turn.peer = some node
  handled : node.handle deployment.crypto turn.event = some (turn.commands, node')
  after : network' = turn.commands.foldl (handleCommand turn.peer)
    { network with nodes := network.nodes.insert turn.peer node' }

/-- A node's turn is an event of its loop whose commands are carried out. -/
theorem turnTaken_of_takeTurn {output : Option Turn}
    (h : network.takeTurn deployment.crypto peer event = some (output, network')) :
    ∃ turn node node', output = some turn ∧ turn.peer = peer ∧ turn.event = event ∧
      TurnTaken deployment network turn node node' network' := by
  obtain ⟨node, hrunning, hact⟩ := Option.bind_eq_some_iff.mp h
  obtain ⟨⟨commands, node'⟩, hhandled, hafter⟩ := Option.bind_eq_some_iff.mp hact
  obtain ⟨rfl, rfl⟩ := Prod.mk.inj (Option.some.inj hafter)
  exact ⟨_, node, node', rfl, rfl, rfl, hrunning, hhandled, rfl⟩

/-- The ways in which an action ends. -/
inductive Outcome (deployment : Deployment) (network : Network) : Action → Option Turn → Network → Prop
  | booted {peer : Bytes} {host : Host} {config : NodeConfig} {node : Node}
      (hconfig : deployment.peers.lookup peer = some config)
      (hboot : Node.boot deployment.crypto deployment.schemes host (network.disk peer).1 config
        (network.disk peer).2 = some node) :
      Outcome deployment network (.boot peer host) none
        { network with nodes := network.nodes.insert peer node }
  | published (message : NetworkMessage) : Outcome deployment network (.publish message) none
      { network with gossip := network.gossip ++ [message] }
  | asked (envelope : Envelope SyncRequest) : Outcome deployment network (.ask envelope) none
      { network with requests := network.requests ++ [envelope] }
  | answered (envelope : Envelope SyncResponse) : Outcome deployment network (.answer envelope) none
      { network with responses := network.responses ++ [envelope] }
  | turn {action : Action} {turn : Turn} {node node' : Node} {network' : Network}
      (harrival : network.arrival action = some (turn.peer, turn.event))
      (htaken : TurnTaken deployment network turn node node' network') :
      Outcome deployment network action (some turn) network'

/-- Every action that returns ends in one of these ways. -/
theorem outcome_of_act {action : Action} {output : Option Turn}
    (h : act deployment network action = some (output, network')) :
    Outcome deployment network action output network' := by
  have hturn : ((network.arrival action).bind fun entry =>
      network.takeTurn deployment.crypto entry.1 entry.2) = some (output, network') →
      Outcome deployment network action output network' := by
    intro hact
    obtain ⟨⟨peer, event⟩, harrival, htake⟩ := Option.bind_eq_some_iff.mp hact
    obtain ⟨turn, node, node', rfl, rfl, rfl, htaken⟩ := turnTaken_of_takeTurn htake
    exact .turn harrival htaken
  cases action with
  | boot peer host =>
    obtain ⟨booted, hboot, heq⟩ := Option.map_eq_some_iff.mp h
    obtain ⟨rfl, rfl⟩ := Prod.mk.inj heq
    obtain ⟨config, hconfig, hnode⟩ := Option.bind_eq_some_iff.mp hboot
    obtain ⟨node, hstart, hafter⟩ := Option.bind_eq_some_iff.mp hnode
    obtain rfl := Option.some.inj hafter
    exact .booted hconfig hstart
  | publish message =>
    obtain ⟨rfl, rfl⟩ := Prod.mk.inj (Option.some.inj h)
    exact .published message
  | ask envelope =>
    obtain ⟨rfl, rfl⟩ := Prod.mk.inj (Option.some.inj h)
    exact .asked envelope
  | answer envelope =>
    obtain ⟨rfl, rfl⟩ := Prod.mk.inj (Option.some.inj h)
    exact .answered envelope
  | own | gossip | request | response => exact hturn h

/-- A node that runs after a turn ran before, or is the one that took it. -/
theorem TurnTaken.lookup {turn : Turn} (h : TurnTaken deployment network turn node node' network')
    (peer : Bytes) : network'.nodes.lookup peer =
      if peer = turn.peer then some node' else network.nodes.lookup peer := by
  rw [h.after, nodes_foldl, FiniteMap.lookup_insert_ite]

/-- The blocks that an event brings circulate. -/
theorem circulates_of_arrival {action : Action} (h : network.arrival action = some (peer, event))
    {block : Block} (hbrings : block ∈ event.brings) : network.Circulates block := by
  cases action with
  | own self own =>
    rw [arrival] at h
    split at h
    · contradiction
    · rename_i hown
      obtain ⟨rfl, rfl⟩ := Prod.mk.inj (Option.some.inj h)
      cases own with
      | block | blocks => simp [Event.onWire] at hown
      | _ => simp [Event.brings] at hbrings
  | gossip receiver host index =>
    obtain ⟨message, hmessage, heq⟩ := Option.map_eq_some_iff.mp h
    obtain ⟨rfl, rfl⟩ := Prod.mk.inj heq
    cases message with
    | newBlock sent =>
      obtain rfl : block = sent := by
        simpa [NetworkMessage.handleGossipsubMessage, Event.brings] using hbrings
      exact .inl (List.mem_of_getElem? hmessage)
    | newTransaction | vote => simp [NetworkMessage.handleGossipsubMessage, Event.brings] at hbrings
  | request index =>
    obtain ⟨request, -, heq⟩ := Option.map_eq_some_iff.mp h
    obtain ⟨rfl, rfl⟩ := Prod.mk.inj heq
    simp [Event.brings] at hbrings
  | response hosts index =>
    obtain ⟨⟨sender, receiver, content⟩, hresponse, heq⟩ := Option.map_eq_some_iff.mp h
    obtain ⟨rfl, rfl⟩ := Prod.mk.inj heq
    cases content with
    | blocks sent =>
      have hsent : block ∈ sent := List.mem_iff_getElem.mpr (by
        simpa [SyncResponse.handleBehaviourEvent, Event.brings] using hbrings)
      exact .inr (.inl ⟨_, List.mem_of_getElem? hresponse, sent, rfl, hsent⟩)
    | chainInfo => simp [SyncResponse.handleBehaviourEvent, Event.brings] at hbrings
  | boot | publish | ask | answer => simp [arrival] at h

/-- After a turn nothing new circulates but the block made in it, once its header is on record. -/
theorem TurnTaken.circulates {turn : Turn} (h : TurnTaken deployment network turn node node' network')
    (hbrings : ∀ block ∈ turn.event.brings, network.Circulates block)
    (hexchanges : node.Exchanges deployment.crypto turn.event made turn.commands node') {block : Block}
    (hcirculates : network'.Circulates block) : network.Circulates block ∨ made = some block ∧
      node'.chain.existingHash block.header.slot block.header.validatorPubkey = some block.hash := by
  rcases hcirculates with hgossip | ⟨response, hresponse, blocks, hcontent, hmem⟩ |
    ⟨peer, holder, hash, hlookup, hstored⟩
  · rw [h.after, gossip_foldl] at hgossip
    rcases List.mem_append.mp hgossip with hold | hnew
    · exact .inl (.inl hold)
    · obtain ⟨command, hcommand, hpublished⟩ := List.mem_filterMap.mp hnew
      rw [NetworkCommand.published_newBlock hpublished] at hcommand
      exact .inr (hexchanges.blocks block hcommand)
  · rw [h.after] at hresponse
    rcases mem_responses_foldl hresponse with hold | ⟨channel, hsent⟩
    · exact .inl (.inr (.inl ⟨response, hold, blocks, hcontent, hmem⟩))
    · rw [hcontent] at hsent
      obtain ⟨hash, hstored⟩ := hexchanges.responses channel blocks hsent block hmem
      exact .inl (.inr (.inr ⟨turn.peer, node, hash, h.running, hstored⟩))
  · rw [h.lookup] at hlookup
    split at hlookup
    · obtain rfl := Option.some.inj hlookup
      rcases hexchanges.acts.getBlock hstored with hold | ⟨hbrought | hmade, hrecord, -⟩
      · exact .inl (.inr (.inr ⟨turn.peer, node, hash, h.running, hold⟩))
      · exact .inl (hbrings block hbrought)
      · exact .inr ⟨hmade, hrecord⟩
    · exact .inl (.inr (.inr ⟨peer, holder, hash, hlookup, hstored⟩))

/-- What a start leaves: the blocks and the recorded headers of the database, with the genesis block
stored, nobody slashed, no votes, and an empty mempool. -/
structure Started (deployment : Deployment) (config : NodeConfig) (storage : Storage) (node : Node) :
    Prop where
  stored : ∀ hash block, node.chain.getBlock hash = some block →
    block = deployment.genesisBlock ∨ storage.getBlock hash = some block
  seenHeaders : node.chain.seenHeaders = ∅
  headers : node.chain.storage.headers = storage.headers
  unslashed : ∀ pubkey, node.chain.validators.isSlashed pubkey = false
  votes : node.chain.votes = ∅
  validatorKey : node.validatorKey = config.validatorKey deployment.schemes
  mempool : node.mempool = .new 1000

/-- A start leaves this. -/
theorem started_of_boot {host : Host} {config : NodeConfig} {storage : Storage}
    {claims : FiniteMap Bytes Int64} (hgenesis : config.genesis = deployment.genesis)
    (h : Node.boot deployment.crypto deployment.schemes host storage config claims = some node) :
    Started deployment config storage node := by
  rw [Node.boot_eq] at h
  obtain ⟨chain, hchain, hnode⟩ := Option.bind_eq_some_iff.mp h
  obtain rfl := Option.some.inj hnode
  have hblock : config.genesisBlock deployment.schemes deployment.crypto = deployment.genesisBlock := by
    unfold NodeConfig.genesisBlock Deployment.genesisBlock
    rw [hgenesis]
  rw [hblock] at hchain
  obtain ⟨hseen, hheaders, hslashed⟩ := Chain.records_of_start hchain
  obtain ⟨accounts, pendingChanges, trie, rfl⟩ := Chain.start_frame hchain
  refine ⟨fun hash block hstored => ?_, hseen, hheaders, hslashed, rfl, rfl, rfl⟩
  have hopened : (storage.opened deployment.genesisBlock).getBlock hash = some block := hstored
  unfold Storage.opened at hopened
  split at hopened
  · exact .inr hopened
  · unfold Storage.getBlock at hopened
    rw [FiniteMap.lookup_insert_ite] at hopened
    split at hopened
    · exact .inl (Option.some.inj hopened).symm
    · exact .inr hopened

/-- The nodes that run after a start. -/
theorem lookup_booted (network : Network) (peer : Bytes) (node : Node) (other : Bytes) :
    (network.nodes.insert peer node).lookup other =
      if other = peer then some node else network.nodes.lookup other :=
  FiniteMap.lookup_insert_ite ..

/-- Every running node holds the validator key of its configuration. -/
def Keyed (deployment : Deployment) (network : Network) : Prop :=
  ∀ peer node, network.nodes.lookup peer = some node → ∃ config,
    deployment.peers.lookup peer = some config ∧
    node.validatorKey = config.validatorKey deployment.schemes

theorem keyed_empty (deployment : Deployment) : Keyed deployment empty := by
  intro peer node h
  simp [empty] at h

/-- A turn leaves the keys alone. -/
theorem Keyed.turn {turn : Turn} (h : Keyed deployment network)
    (htaken : TurnTaken deployment network turn node node' network')
    (hexchanges : node.Exchanges deployment.crypto turn.event made turn.commands node') :
    Keyed deployment network' := by
  intro peer running hrunning
  rw [htaken.lookup] at hrunning
  split at hrunning
  · rename_i heq
    obtain rfl := Option.some.inj hrunning
    rw [heq, hexchanges.validatorKey]
    exact h turn.peer node htaken.running
  · exact h peer running hrunning

/-- A start takes the key from the configuration. -/
theorem Keyed.boot {config : NodeConfig} {storage : Storage} (h : Keyed deployment network)
    (hconfig : deployment.peers.lookup peer = some config)
    (hstarted : Started deployment config storage node) :
    Keyed deployment { network with nodes := network.nodes.insert peer node } := by
  intro other running hrunning
  dsimp only at hrunning
  rw [lookup_booted] at hrunning
  split at hrunning
  · rename_i heq
    obtain rfl := Option.some.inj hrunning
    exact ⟨config, heq ▸ hconfig, hstarted.validatorKey⟩
  · exact h other running hrunning

/-- A block made in the name of a node is made in a turn of that node. -/
theorem Keyed.maker {turn : Turn} {other : Bytes} {config : NodeConfig} {block : Block}
    (h : Keyed deployment network) (hdistinct : deployment.DistinctKeys)
    (htaken : TurnTaken deployment network turn node node' network')
    (hexchanges : node.Exchanges deployment.crypto turn.event made turn.commands node')
    (hconfig : deployment.peers.lookup other = some config) (hmade : made = some block)
    (hname : block.header.validatorPubkey = config.validatorKey deployment.schemes) :
    other = turn.peer := by
  obtain ⟨own, hown, hkey⟩ := h turn.peer node htaken.running
  have hby := (hexchanges.fresh block hmade).2.2
  rw [hname, hkey] at hby
  exact hdistinct other turn.peer config own hconfig hown hby

/-- The block is not in the name of a node of the deployment. -/
def Foreign (deployment : Deployment) (block : Block) : Prop :=
  ∀ peer config, deployment.peers.lookup peer = some config →
    config.validatorKey deployment.schemes ≠ block.header.validatorPubkey

/-- No block that a stranger sends by the action is in the name of a node. -/
def Unforged (deployment : Deployment) : Action → Prop
  | .publish (.newBlock block) => Foreign deployment block
  | .answer ⟨_, _, .blocks blocks⟩ => ∀ block ∈ blocks, Foreign deployment block
  | _ => True

/-- After strangers sent something, only blocks in other names are new. -/
theorem circulates_of_publish {message : NetworkMessage} {block : Block}
    (hunforged : Unforged deployment (.publish message))
    (h : Circulates { network with gossip := network.gossip ++ [message] } block) :
    network.Circulates block ∨ Foreign deployment block := by
  rcases h with hgossip | hrest
  · rcases List.mem_append.mp hgossip with hold | hnew
    · exact .inl (.inl hold)
    · obtain rfl := List.mem_singleton.mp hnew
      exact .inr hunforged
  · exact .inl (.inr hrest)

theorem circulates_of_answer {envelope : Envelope SyncResponse} {block : Block}
    (hunforged : Unforged deployment (.answer envelope))
    (h : Circulates { network with responses := network.responses ++ [envelope] } block) :
    network.Circulates block ∨ Foreign deployment block := by
  rcases h with hgossip | ⟨response, hresponse, blocks, hcontent, hmem⟩ | hstored
  · exact .inl (.inl hgossip)
  · rcases List.mem_append.mp hresponse with hold | hnew
    · exact .inl (.inr (.inl ⟨response, hold, blocks, hcontent, hmem⟩))
    · obtain rfl := List.mem_singleton.mp hnew
      obtain ⟨sender, receiver, content⟩ := response
      obtain rfl : content = .blocks blocks := hcontent
      exact .inr (hunforged block hmem)
  · exact .inl (.inr (.inr hstored))

/-- The hash of a block for a slot and in a name, that circulates or is on record somewhere. -/
def Knows (network : Network) (genesisBlock : Block) (slot : UInt64) (pubkey : Bytes) (hash : String) :
    Prop :=
  (∃ block, (block = genesisBlock ∨ network.Circulates block) ∧ block.header.slot = slot ∧
    block.header.validatorPubkey = pubkey ∧ block.hash = hash) ∨
  ∃ peer node, network.nodes.lookup peer = some node ∧ node.chain.OnRecord slot pubkey hash

/-- Only the genesis block is known in a network without nodes. -/
theorem knows_empty {genesisBlock : Block} {slot : UInt64} {pubkey : Bytes} {hash : String}
    (h : empty.Knows genesisBlock slot pubkey hash) :
    slot = genesisBlock.header.slot ∧ hash = genesisBlock.hash := by
  rcases h with ⟨block, rfl | hcirculates, rfl, -, rfl⟩ | ⟨peer, node, hnode, -⟩
  · exact ⟨rfl, rfl⟩
  · simp [Circulates, empty] at hcirculates
  · simp [empty] at hnode

/-- What strangers send makes nothing known in the name of a node. -/
theorem knows_of_sent {other : Bytes} {config : NodeConfig} {genesisBlock : Block} {slot : UInt64}
    {hash : String} (hnodes : network'.nodes = network.nodes)
    (hcirculates : ∀ block, network'.Circulates block →
      network.Circulates block ∨ Foreign deployment block)
    (hconfig : deployment.peers.lookup other = some config)
    (h : network'.Knows genesisBlock slot (config.validatorKey deployment.schemes) hash) :
    network.Knows genesisBlock slot (config.validatorKey deployment.schemes) hash := by
  rcases h with ⟨block, hknown, rfl, hname, rfl⟩ | ⟨holder, running, hrunning, hrecord⟩
  · refine .inl ⟨block, ?_, rfl, hname, rfl⟩
    refine hknown.imp_right fun hafter => (hcirculates block hafter).resolve_right fun hforeign => ?_
    exact hforeign other config hconfig hname.symm
  · exact .inr ⟨holder, running, hnodes ▸ hrunning, hrecord⟩

/-- A start on the database that a node left makes nothing known. -/
theorem knows_of_boot {config : NodeConfig} {slot : UInt64} {pubkey : Bytes} {hash : String}
    (hstarted : Started deployment config (network.disk peer).1 node)
    (h : Knows { network with nodes := network.nodes.insert peer node } deployment.genesisBlock slot pubkey
      hash) : network.Knows deployment.genesisBlock slot pubkey hash := by
  have hdisk : ∀ {block : Block} {hash : String}, (network.disk peer).1.getBlock hash = some block →
      network.Circulates block := by
    intro block hash hstored
    unfold disk at hstored
    split at hstored
    · simp [Storage.getBlock, Storage.empty] at hstored
    · rename_i left hleft
      exact .inr (.inr ⟨peer, left, hash, hleft, hstored⟩)
  rcases h with ⟨block, hknown, rfl, hname, rfl⟩ | ⟨holder, running, hrunning, hrecord⟩
  · refine .inl ⟨block, ?_, rfl, hname, rfl⟩
    rcases hknown with hgenesis | hgossip | hresponse | ⟨holder, running, hash, hrunning, hstored⟩
    · exact .inl hgenesis
    · exact .inr (.inl hgossip)
    · exact .inr (.inr (.inl hresponse))
    · dsimp only at hrunning
      rw [lookup_booted] at hrunning
      split at hrunning
      · obtain rfl := Option.some.inj hrunning
        exact (hstarted.stored hash block hstored).imp_right hdisk
      · exact .inr (.inr (.inr ⟨holder, running, hash, hrunning, hstored⟩))
  · dsimp only at hrunning
    rw [lookup_booted] at hrunning
    split at hrunning
    · obtain rfl := Option.some.inj hrunning
      unfold Chain.OnRecord at hrecord
      rw [hstarted.seenHeaders, hstarted.headers] at hrecord
      have hheader := hrecord.resolve_left (by simp)
      unfold disk at hheader
      split at hheader
      · simp [Storage.empty] at hheader
      · rename_i left hleft
        exact .inr ⟨peer, left, hleft, .inr hheader⟩
    · exact .inr ⟨holder, running, hrunning, hrecord⟩

end Network

end Nocostcoin
