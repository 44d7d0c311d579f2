import Nocostcoin.Library.Execution
import Nocostcoin.Node.Startup

/-!
# The network

`network.rs`: what the commands of a node put on the wire, and what reaches a node from there. A gossiped
message may reach any node at any time, any number of times or never; a request goes to the peer it
names, and its answer to the peer that asked. Strangers may send what they like.
-/

namespace Nocostcoin

/-- `NetworkMessage`. -/
inductive NetworkMessage where
  | newBlock (block : Block)
  | newTransaction (tx : Transaction)
  | vote (vote : Vote)

/-- A request or an answer on its way. -/
structure Envelope (κ : Type) where
  sender : Bytes
  receiver : Bytes
  content : κ

/-- The running nodes by peer id, and all that was ever sent. -/
structure Network where
  nodes : FiniteMap Bytes Node
  gossip : List NetworkMessage
  requests : List (Envelope SyncRequest)
  responses : List (Envelope SyncResponse)

/-- The configurations that some peers start their nodes with: one genesis for all of them. -/
structure Deployment where
  crypto : Crypto
  schemes : KeySchemes
  genesis : GenesisConfig
  peers : FiniteMap Bytes NodeConfig
  genesis_eq : ∀ peer config, peers.lookup peer = some config → config.genesis = genesis

/-- The nodes have different validator keys: no two of them share a seed or a key file. -/
def Deployment.DistinctKeys (deployment : Deployment) : Prop :=
  ∀ peer other config config', deployment.peers.lookup peer = some config →
    deployment.peers.lookup other = some config' →
    config.validatorKey deployment.schemes = config'.validatorKey deployment.schemes → peer = other

/-- The genesis block of a deployment. -/
def Deployment.genesisBlock (deployment : Deployment) : Block :=
  Node.genesisBlock deployment.crypto
    (generateValidatorKeypair deployment.schemes deployment.genesis.genesisSeed)
    deployment.genesis.genesisTime

/-- The events that come from the wire; the others are the node's own. -/
def Event.onWire : Event → Bool
  | .vote _ _ | .chainInfo _ _ _ _ | .blocks _ _ | .incomingRequest _ _ _ | .block _ _
  | .transaction _ => true
  | _ => false

/-- `handle_gossipsub_message`: the channel of the loop that a message is forwarded to. -/
def NetworkMessage.handleGossipsubMessage (host : Host) : NetworkMessage → Event
  | .newBlock received => .block host received
  | .newTransaction tx => .transaction tx
  | .vote received => .vote host received

/-- The responses in `handle_behaviour_event`, forwarded to the sync channel. -/
def SyncResponse.handleBehaviourEvent (hosts : ℕ → Host) (peerId : Bytes) : SyncResponse → Event
  | .blocks received => .blocks peerId (received.mapIdx fun i block => (hosts i, block))
  | .chainInfo headHash height => .chainInfo (hosts 0) peerId height headHash

namespace Network

/-- No node runs and nothing was sent. -/
def empty : Network := { nodes := ∅, gossip := [], requests := [], responses := [] }

/-- `handle_command`: a broadcast is published, a request is sent to its peer, and a response goes back
to the peer whose request came on its channel. -/
def handleCommand (self : Bytes) (network : Network) : NetworkCommand → Network
  | .broadcastBlock block => { network with gossip := network.gossip ++ [.newBlock block] }
  | .broadcastTransaction tx => { network with gossip := network.gossip ++ [.newTransaction tx] }
  | .broadcastVote vote => { network with gossip := network.gossip ++ [.vote vote] }
  | .requestChainInfo peerId =>
      { network with requests := network.requests ++ [⟨self, peerId, .getChainInfo⟩] }
  | .requestBlocks peerId startHash limit =>
      { network with requests := network.requests ++ [⟨self, peerId, .getBlocks startHash limit⟩] }
  | .sendResponse channel response =>
    match network.requests[channel]? with
    | none => network
    | some request =>
        { network with responses := network.responses ++ [⟨self, request.sender, response⟩] }
  | .reply _ => network

/-- What happens in a network: a node starts or starts again, it has an event of its own, something that
was sent reaches a node, or a stranger sends something. -/
inductive Action where
  | boot (peer : Bytes) (host : Host)
  | own (peer : Bytes) (event : Event)
  | gossip (peer : Bytes) (host : Host) (index : ℕ)
  | request (index : ℕ)
  | response (hosts : ℕ → Host) (index : ℕ)
  | publish (message : NetworkMessage)
  | ask (envelope : Envelope SyncRequest)
  | answer (envelope : Envelope SyncResponse)

/-- A node that took an event, and what it commanded. -/
structure Turn where
  peer : Bytes
  event : Event
  commands : List NetworkCommand

/-- The node that an action concerns and its event, where there is one. -/
def arrival (network : Network) : Action → Option (Bytes × Event)
  | .own peer event => if event.onWire then none else some (peer, event)
  | .gossip peer host index =>
      network.gossip[index]?.map fun message => (peer, message.handleGossipsubMessage host)
  | .request index =>
      network.requests[index]?.map fun request =>
        (request.receiver, .incomingRequest request.sender request.content index)
  | .response hosts index =>
      network.responses[index]?.map fun response =>
        (response.receiver, response.content.handleBehaviourEvent hosts response.sender)
  | _ => none

/-- A running node takes an event, and its commands are carried out. -/
def takeTurn (crypto : Crypto) (network : Network) (peer : Bytes) (event : Event) :
    Option (Option Turn × Network) := do
  let node ← network.nodes.lookup peer
  let (commands, node) ← node.handle crypto event
  some (some { peer, event, commands },
    commands.foldl (handleCommand peer) { network with nodes := network.nodes.insert peer node })

/-- The database and the faucet claims that a start of a node finds. -/
def disk (network : Network) (peer : Bytes) : Storage × FiniteMap Bytes Int64 :=
  match network.nodes.lookup peer with
  | none => (.empty, ∅)
  | some node => (node.chain.storage, node.claims)

/-- Start the node of a peer on its database. A wallet that the node set before comes back with an event. -/
def boot (deployment : Deployment) (network : Network) (peer : Bytes) (host : Host) : Option Network := do
  let config ← deployment.peers.lookup peer
  let node ← Node.boot deployment.crypto deployment.schemes host (network.disk peer).1 config
    (network.disk peer).2
  some { network with nodes := network.nodes.insert peer node }

/-- One action. -/
def act (deployment : Deployment) (network : Network) : Action → Option (Option Turn × Network)
  | .boot peer host => (network.boot deployment peer host).map fun network => (none, network)
  | .publish message => some (none, { network with gossip := network.gossip ++ [message] })
  | .ask envelope => some (none, { network with requests := network.requests ++ [envelope] })
  | .answer envelope => some (none, { network with responses := network.responses ++ [envelope] })
  | action => do
    let (peer, event) ← network.arrival action
    network.takeTurn deployment.crypto peer event

end Network

namespace Sample

/-- The two initial validators of the sample network, each on its own seed. -/
def peers : FiniteMap Bytes NodeConfig :=
  ((∅ : FiniteMap Bytes NodeConfig).insert [1] (config (some "first"))).insert [2]
    (config (some "second"))

/-- Each peer has one of the two seeds. -/
theorem lookup_peers {peer : Bytes} {found : NodeConfig} (h : peers.lookup peer = some found) :
    peer = [2] ∧ found = config (some "second") ∨ peer = [1] ∧ found = config (some "first") := by
  unfold peers at h
  rw [FiniteMap.lookup_insert_ite, FiniteMap.lookup_insert_ite] at h
  split at h
  · rename_i heq
    exact .inl ⟨heq, (Option.some.inj h).symm⟩
  · split at h
    · rename_i heq
      exact .inr ⟨heq, (Option.some.inj h).symm⟩
    · simp at h

/-- The first peer has the first seed. -/
theorem lookup_first : peers.lookup [1] = some (config (some "first")) := by
  unfold peers
  rw [FiniteMap.lookup_insert_ite, if_neg (by decide), FiniteMap.lookup_insert_ite, if_pos rfl]

/-- Their deployment. -/
def deployment : Deployment where
  crypto := Crypto.plain
  schemes := KeySchemes.plain
  genesis := (config none).genesis
  peers := peers
  genesis_eq peer found h := by
    rcases lookup_peers h with ⟨-, rfl⟩ | ⟨-, rfl⟩ <;> rfl

/-- Their seeds give them different keys. -/
theorem distinctKeys_deployment : deployment.DistinctKeys := by
  intro peer other found found' h h' hkey
  rcases lookup_peers h with ⟨rfl, rfl⟩ | ⟨rfl, rfl⟩ <;>
    rcases lookup_peers h' with ⟨rfl, rfl⟩ | ⟨rfl, rfl⟩
  · rfl
  · exact absurd hkey (by decide +kernel)
  · exact absurd hkey (by decide +kernel)
  · rfl

end Sample

end Nocostcoin
