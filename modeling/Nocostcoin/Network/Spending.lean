import Nocostcoin.Network.Traffic
import Nocostcoin.Node.Intake

/-!
# Who spends from a wallet

If nobody else signs with the key of a wallet, then every transaction of the wallet that is stored anywhere
was made by a node that held the wallet, and each nonce that some ledger has used up for the wallet belongs
to such a transaction. This holds whatever blocks strangers build from the transactions they saw.
-/

namespace Nocostcoin

open Execution

namespace Network

variable {deployment : Deployment} {wallet : Bytes} {network network' : Network} {node node' : Node}
  {calls : List (Call Network Action (Option Turn))} {tx : Transaction}

/-- A node that held the wallet made the transaction and broadcast it. -/
def Ordered (calls : List (Call Network Action (Option Turn))) (wallet : Bytes) (tx : Transaction) :
    Prop :=
  ∃ call ∈ calls, ∃ turn node, call.output = some turn ∧ call.pre.nodes.lookup turn.peer = some node ∧
    node.myAddress = wallet ∧ turn.event ≠ .submitTransaction tx ∧
    .broadcastTransaction tx ∈ turn.commands

/-- Later calls take nothing back. -/
theorem Ordered.append (h : Ordered calls wallet tx)
    (later : List (Call Network Action (Option Turn))) : Ordered (calls ++ later) wallet tx := by
  obtain ⟨call, hcall, hordered⟩ := h
  exact ⟨call, List.mem_append_left later hcall, hordered⟩

/-- The transactions that an action brings from outside the nodes. -/
def Action.brings : Action → List Transaction
  | .own _ (.submitTransaction tx) => [tx]
  | .publish (.newTransaction tx) => [tx]
  | .publish (.newBlock block) => block.transactions
  | .answer ⟨_, _, .blocks blocks⟩ => blocks.flatMap Block.transactions
  | _ => []

/-- Nobody outside signs with the wallet: valid transactions of it are brought only after they were
ordered. -/
def Guarded (deployment : Deployment) (wallet : Bytes) (calls : List (Call Network Action (Option Turn)))
    (action : Action) : Prop :=
  ∀ tx ∈ action.brings, tx.validate deployment.crypto = .ok () → tx.sender = wallet →
    Ordered calls wallet tx

/-- The transaction is gossiped, waits in a mempool, or is in a block that is under way or stored. -/
def Carries (network : Network) (tx : Transaction) : Prop :=
  .newTransaction tx ∈ network.gossip ∨
  (∃ block, network.Circulates block ∧ tx ∈ block.transactions) ∨
  ∃ peer node signature, network.nodes.lookup peer = some node ∧
    node.mempool.transactions.lookup signature = some tx

/-- Only a broadcast of a transaction publishes it. -/
theorem published_newTransaction {command : NetworkCommand}
    (h : command.published = some (.newTransaction tx)) : command = .broadcastTransaction tx := by
  cases command with
  | broadcastTransaction other =>
    obtain rfl := NetworkMessage.newTransaction.inj (Option.some.inj h)
    rfl
  | _ => simp [NetworkCommand.published] at h

/-- A transaction that an event brings by itself was gossiped or submitted. -/
theorem transaction_of_arrival {action : Action} {peer : Bytes}
    (h : network.arrival action = some (peer, .transaction tx)) : .newTransaction tx ∈ network.gossip := by
  cases action with
  | own self own =>
    rw [arrival] at h
    split at h
    · contradiction
    · rename_i hown
      obtain ⟨-, rfl⟩ := Prod.mk.inj (Option.some.inj h)
      simp [Event.onWire] at hown
  | gossip receiver host index =>
    obtain ⟨message, hmessage, heq⟩ := Option.map_eq_some_iff.mp h
    cases message with
    | newTransaction sent =>
      obtain ⟨-, hevent⟩ := Prod.mk.inj heq
      obtain rfl : sent = tx := Event.transaction.inj hevent
      exact List.mem_of_getElem? hmessage
    | newBlock | vote => simp [NetworkMessage.handleGossipsubMessage] at heq
  | request index =>
    obtain ⟨request, -, heq⟩ := Option.map_eq_some_iff.mp h
    simp at heq
  | response hosts index =>
    obtain ⟨⟨sender, receiver, content⟩, -, heq⟩ := Option.map_eq_some_iff.mp h
    cases content <;> simp [SyncResponse.handleBehaviourEvent] at heq
  | boot | publish | ask | answer => simp [arrival] at h

/-- After a turn the network carries what it did before, and what was broadcast. -/
theorem TurnTaken.carries {action : Action} {turn : Turn} {made : Option Block}
    (h : TurnTaken deployment network turn node node' network')
    (harrival : network.arrival action = some (turn.peer, turn.event))
    (hexchanges : node.Exchanges deployment.crypto turn.event made turn.commands node')
    (hcarries : network'.Carries tx) :
    network.Carries tx ∨ .broadcastTransaction tx ∈ turn.commands := by
  have hintake := Node.intake_of_handle h.handled
  rcases hcarries with hgossip | ⟨block, hcirculates, htx⟩ |
    ⟨peer, running, signature, hrunning, hlookup⟩
  · rw [h.after, gossip_foldl] at hgossip
    rcases List.mem_append.mp hgossip with hold | hnew
    · exact .inl (.inl hold)
    · obtain ⟨command, hcommand, hpublished⟩ := List.mem_filterMap.mp hnew
      rw [published_newTransaction hpublished] at hcommand
      exact .inr hcommand
  · rcases h.circulates (fun other hbrings => circulates_of_arrival harrival hbrings) hexchanges
      hcirculates with hold | ⟨hmade, -⟩
    · exact .inl (.inr (.inl ⟨block, hold, htx⟩))
    · exact (hexchanges.packed block hmade tx htx).imp_left fun ⟨signature, hlookup⟩ =>
        .inr (.inr ⟨turn.peer, node, signature, h.running, hlookup⟩)
  · rw [h.lookup] at hrunning
    split at hrunning
    · obtain rfl := Option.some.inj hrunning
      rcases hintake.pool signature tx hlookup with hold | ⟨-, hevent | hbroadcast⟩
      · exact .inl (.inr (.inr ⟨turn.peer, node, signature, h.running, hold⟩))
      · rw [hevent] at harrival
        exact .inl (.inl (transaction_of_arrival harrival))
      · exact .inr hbroadcast
    · exact .inl (.inr (.inr ⟨peer, running, signature, hrunning, hlookup⟩))

/-- Each nonce of the wallet below the one of the account belongs to an ordered transaction. -/
def Backed (calls : List (Call Network Action (Option Turn))) (wallet address : Bytes) (account : Account) :
    Prop :=
  address = wallet → ∀ nonce, nonce < account.nonce →
    ∃ tx, Ordered calls wallet tx ∧ tx.sender = wallet ∧ tx.nonce = nonce

theorem Backed.append {address : Bytes} {account : Account} (h : Backed calls wallet address account)
    (later : List (Call Network Action (Option Turn))) : Backed (calls ++ later) wallet address account := by
  intro haddress nonce hnonce
  obtain ⟨tx, hordered, hsender⟩ := h haddress nonce hnonce
  exact ⟨tx, hordered.append later, hsender⟩

/-- The transactions of the wallet that the network carries were ordered, those that are stored are valid,
and every ledger is backed. -/
structure Accounted (deployment : Deployment) (wallet : Bytes)
    (calls : List (Call Network Action (Option Turn))) (network : Network) : Prop where
  carried : ∀ tx, network.Carries tx → tx.validate deployment.crypto = .ok () → tx.sender = wallet →
    Ordered calls wallet tx
  valid : ∀ peer node, network.nodes.lookup peer = some node → ∀ hash block,
    node.chain.getBlock hash = some block → ∀ tx ∈ block.transactions,
      tx.validate deployment.crypto = .ok ()
  backed : ∀ peer node, network.nodes.lookup peer = some node →
    node.chain.state.Everywhere (Backed calls wallet)

/-- What strangers send keeps the accounts, if they sign nothing with the wallet. -/
theorem Accounted.sent {action : Action} {call : Call Network Action (Option Turn)}
    (haccounted : Accounted deployment wallet calls network)
    (hguarded : Guarded deployment wallet calls action) (hnodes : network'.nodes = network.nodes)
    (hcarries : ∀ tx, network'.Carries tx → network.Carries tx ∨ tx ∈ action.brings) :
    Accounted deployment wallet (calls ++ [call]) network' := by
  constructor
  case carried =>
    intro tx htx hvalid hsender
    rcases hcarries tx htx with hold | hbrought
    · exact (haccounted.carried tx hold hvalid hsender).append _
    · exact (hguarded tx hbrought hvalid hsender).append _
  case valid =>
    rw [hnodes]
    exact haccounted.valid
  case backed =>
    intro peer running hrunning address account hfound
    rw [hnodes] at hrunning
    exact (haccounted.backed peer running hrunning address account hfound).append _

end Network

end Nocostcoin
