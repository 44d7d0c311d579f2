import Nocostcoin.Node.Exchange

/-!
# Which transactions a node takes in and sends

A transaction gets into the mempool by a message or a submission, or the node makes it with its own
wallet; either way it is valid. The node broadcasts what was submitted and what it made, and nothing else.
-/

namespace Nocostcoin

namespace Node

variable {crypto : Crypto} {host : Host} {node node' : Node} {event : Event}
  {commands : List NetworkCommand} {tx : Transaction}

/-- The mempool takes in valid transactions that the event brings or that are broadcast; a broadcast
transaction is valid, and was submitted or is in the name of the node's wallet. -/
structure Intake (crypto : Crypto) (node : Node) (event : Event) (commands : List NetworkCommand)
    (node' : Node) : Prop where
  pool : ∀ signature tx, node'.mempool.transactions.lookup signature = some tx →
    node.mempool.transactions.lookup signature = some tx ∨
      tx.validate crypto = .ok () ∧ (event = .transaction tx ∨ .broadcastTransaction tx ∈ commands)
  broadcast : ∀ tx, .broadcastTransaction tx ∈ commands → tx.validate crypto = .ok () ∧
    (event = .submitTransaction tx ∨ tx.sender = node.myAddress)

/-- An event that leaves the mempool alone, or takes from it, and broadcasts no transaction. -/
theorem Intake.quiet (hpool : ∀ signature tx, node'.mempool.transactions.lookup signature = some tx →
      node.mempool.transactions.lookup signature = some tx)
    (hquiet : broadcasts commands = []) : Intake crypto node event commands node' := by
  constructor
  · exact fun signature tx hlookup => .inl (hpool signature tx hlookup)
  · intro tx hbroadcast
    rw [← mem_broadcasts_iff, hquiet] at hbroadcast
    exact absurd hbroadcast List.not_mem_nil

/-- An offer of a transaction that was submitted or is the wallet's. -/
theorem Offers.intake (h : Offers crypto node tx commands node')
    (horigin : event = .submitTransaction tx ∨ tx.sender = node.myAddress) :
    Intake crypto node event commands node' := by
  rcases h.outcome with ⟨hnone, hmempool⟩ | ⟨hadmitted, hone, hmempool⟩
  · exact .quiet (fun signature tx hlookup => hmempool ▸ hlookup) hnone
  · have hvalid := Mempool.validate_of_admission hadmitted
    have honly : ∀ other, .broadcastTransaction other ∈ commands → other = tx := by
      intro other hbroadcast
      rw [← mem_broadcasts_iff, hone] at hbroadcast
      exact List.mem_singleton.mp hbroadcast
    constructor
    · intro signature found hlookup
      refine (h.lookup hlookup).imp_right fun hbroadcast => ?_
      obtain rfl := honly found hbroadcast
      exact ⟨hvalid, .inr hbroadcast⟩
    · intro other hbroadcast
      obtain rfl := honly other hbroadcast
      exact ⟨hvalid, horigin⟩

/-- A slot takes in the generated transfer. -/
theorem intake_handleSlot {tick : Tick} (h : node.handleSlot crypto host tick = some (commands, node')) :
    Intake crypto node (.slot host tick) commands node' := by
  rcases frame_handleSlot h with ⟨rfl, rfl⟩ | ⟨-, hbroadcasts, hmempool, -⟩
  · exact .quiet (fun _ _ hlookup => hlookup) rfl
  · obtain ⟨address, amount, hoffers⟩ :=
      offers_simulate crypto host { node with lastSlot := tick.currentSlot } tick
    have htaken : Intake crypto { node with lastSlot := tick.currentSlot } (.slot host tick)
        (simulate crypto host { node with lastSlot := tick.currentSlot } tick).1
        (node.selecting crypto host tick) := hoffers.intake (.inr rfl)
    have hsame : ∀ tx, .broadcastTransaction tx ∈ commands ↔ .broadcastTransaction tx ∈
        (simulate crypto host { node with lastSlot := tick.currentSlot } tick).1 := by
      intro tx
      rw [← mem_broadcasts_iff, hbroadcasts, mem_broadcasts_iff]
    constructor
    · intro signature tx hlookup
      rw [hmempool] at hlookup
      refine (htaken.pool signature tx (Mempool.lookup_of_removeTransactions hlookup)).imp_right
        fun hnew => hnew.imp_right fun horigin => horigin.imp_right (hsame tx).mpr
    · exact fun tx hbroadcast => htaken.broadcast tx ((hsame tx).mp hbroadcast)

/-- So does every event. -/
theorem intake_of_handle (h : node.handle crypto event = some (commands, node')) :
    Intake crypto node event commands node' := by
  cases event with
  | slot host tick => exact intake_handleSlot h
  | block host block =>
    obtain ⟨-, hquiet, hmempool⟩ := frame_handleBlock h
    refine .quiet (fun signature tx hlookup => ?_) hquiet
    rw [hmempool] at hlookup
    exact Mempool.lookup_of_removeTransactions hlookup
  | blocks sender blocks =>
    obtain ⟨-, hquiet, hmempool⟩ := frame_handleBlocks h
    exact .quiet (fun signature tx hlookup => hmempool ▸ hlookup) hquiet
  | send host receiver amount =>
    obtain ⟨rfl, rfl⟩ := Prod.mk.inj (Option.some.inj h)
    cases receiver with
    | none => exact .quiet (fun _ _ hlookup => hlookup) rfl
    | some receiver => exact (offers_publish ..).intake (.inr rfl)
  | createTransaction host receiver amount =>
    obtain ⟨rfl, rfl⟩ := Prod.mk.inj (Option.some.inj h)
    cases receiver with
    | none => exact .quiet (fun _ _ hlookup => hlookup) rfl
    | some receiver => exact (offers_submit ..).intake (.inr rfl)
  | submitTransaction tx =>
    obtain ⟨rfl, rfl⟩ := Prod.mk.inj (Option.some.inj h)
    exact (offers_submit ..).intake (.inl rfl)
  | faucet host receiver currentTime recorded =>
    obtain ⟨rfl, rfl⟩ := Prod.mk.inj (Option.some.inj h)
    obtain ⟨address, amount, hoffers⟩ :=
      offers_handleFaucet crypto host node receiver currentTime recorded
    exact hoffers.intake (.inr rfl)
  | registerValidator stake =>
    rw [handle, handleRegister] at h
    split at h
    · obtain ⟨rfl, rfl⟩ := Prod.mk.inj (Option.some.inj h)
      exact .quiet (fun _ _ hlookup => hlookup) rfl
    · obtain ⟨rfl, rfl⟩ := Prod.mk.inj (Option.some.inj h)
      exact (offers_submit ..).intake (.inr rfl)
  | transaction tx =>
    obtain ⟨rfl, rfl⟩ := Prod.mk.inj (Option.some.inj h)
    rcases node.addTransaction_eq crypto tx with ⟨error, hrefused⟩ | ⟨hadmitted, htaken⟩
    · rw [hrefused]
      exact .quiet (fun _ _ hlookup => hlookup) rfl
    · rw [htaken]
      refine ⟨fun signature found hlookup => ?_, by simp⟩
      rw [Mempool.lookup_entered] at hlookup
      split at hlookup
      · obtain rfl := Option.some.inj hlookup
        exact .inr ⟨Mempool.validate_of_admission hadmitted, .inl rfl⟩
      · exact .inl hlookup
  | chainInfo host peerId height headHash =>
    obtain ⟨ourHeight, -, hact⟩ := Option.bind_eq_some_iff.mp h
    split at hact <;>
      · obtain ⟨rfl, rfl⟩ := Prod.mk.inj (Option.some.inj hact)
        exact .quiet (fun _ _ hlookup => hlookup) rfl
  | incomingRequest peerId request channel =>
    cases request with
    | getChainInfo =>
      obtain ⟨height, -, hact⟩ := Option.bind_eq_some_iff.mp h
      obtain ⟨rfl, rfl⟩ := Prod.mk.inj (Option.some.inj hact)
      exact .quiet (fun _ _ hlookup => hlookup) rfl
    | getBlocks startHash limit =>
      obtain ⟨rfl, rfl⟩ := Prod.mk.inj (Option.some.inj h)
      exact .quiet (fun _ _ hlookup => hlookup) rfl
  | vote | peerConnected | peerDisconnected | peerIdentified | toggleSim | setWallet =>
    obtain ⟨rfl, rfl⟩ := Prod.mk.inj (Option.some.inj h)
    exact .quiet (fun _ _ hlookup => hlookup) rfl

end Node

end Nocostcoin
