import Mathlib.Logic.Relation
import Nocostcoin.Node.Loop

/-!
# What an event does to a node

Every event makes a few elementary changes to chain and mempool, one after another, and may change the
sync manager at the end. Only messages of peers do the latter, and only they lead to a request for
blocks.
-/

namespace Nocostcoin

/-- The messages that concern the sync. -/
def Event.OfSync : Event → Prop
  | .chainInfo _ _ _ _ | .blocks _ _ | .peerIdentified _ _ _ => True
  | _ => False

namespace Node

variable {crypto : Crypto} {node node' mid : Node} {commands : List NetworkCommand}

/-- An elementary change of a node. -/
inductive Change (crypto : Crypto) (node : Node) : Node → Prop
  | enter {tx : Transaction} (hadmitted : node.mempool.admission crypto tx node.chain.state = .ok ()) :
      Change crypto node { node with mempool := { node.mempool with
        transactions := node.mempool.transactions.insert tx.signature tx } }
  | remove (txs : List Transaction) :
      Change crypto node { node with mempool := node.mempool.removeTransactions txs }
  | deliver {host : Host} {block : Block} {accepted : Bool} {chain : Chain}
      (hdelivered : node.chain.addBlock crypto host block = some (accepted, chain)) :
      Change crypto node { node with chain }
  | vote (host : Host) (vote : Vote) :
      Change crypto node { node with chain := (node.chain.addVote crypto host vote).2 }
  | prune {eraser : Storage.Eraser} {pruneTarget : UInt64} {storage : Storage}
      (hpruned : storage =
        (node.chain.storage.pruneBlocksBefore eraser pruneTarget node.chain.head).2) :
      Change crypto node { node with chain := node.chain.withStorage storage }
  | record (lastSlot : UInt64) (simulationEnabled : Bool) (myAddress : Bytes)
      (claims : FiniteMap Bytes Int64) :
      Change crypto node { node with lastSlot, simulationEnabled, myAddress, claims }

/-- Elementary changes one after another. -/
abbrev Changes (crypto : Crypto) : Node → Node → Prop := Relation.ReflTransGen (Change crypto)

/-- Elementary changes leave the sync manager alone. -/
theorem Changes.syncManager (h : Changes crypto node node') : node'.syncManager = node.syncManager := by
  induction h with
  | refl => rfl
  | tail _ hchange ih =>
    rw [← ih]
    cases hchange <;> rfl

/-- No blocks are asked for. -/
def Quiet (commands : List NetworkCommand) : Prop :=
  ∀ peerId startHash limit, NetworkCommand.requestBlocks peerId startHash limit ∉ commands

theorem quiet_nil : Quiet [] := fun _ _ _ => List.not_mem_nil

/-- An event beside the sync: elementary changes, and no blocks asked for. -/
structure Local (crypto : Crypto) (node : Node) (commands : List NetworkCommand) (node' : Node) :
    Prop where
  changes : Changes crypto node node'
  quiet : Quiet commands

/-- Nothing happens. -/
theorem Local.nil : Local crypto node [] node := ⟨.refl, quiet_nil⟩

/-- Something is answered. -/
theorem Local.reply (result : Except String String) : Local crypto node [.reply result] node :=
  ⟨.refl, by simp [Quiet]⟩

/-- A silent change. -/
theorem Change.silent (h : Change crypto node node') : Local crypto node [] node' :=
  ⟨.single h, quiet_nil⟩

/-- Two parts of an event one after another. -/
theorem Local.append {first second : List NetworkCommand} (hfirst : Local crypto node first mid)
    (hsecond : Local crypto mid second node') : Local crypto node (first ++ second) node' := by
  refine ⟨hfirst.changes.trans hsecond.changes, fun peerId startHash limit hmem => ?_⟩
  rcases List.mem_append.mp hmem with hmem | hmem
  · exact hfirst.quiet peerId startHash limit hmem
  · exact hsecond.quiet peerId startHash limit hmem

/-- A change before the rest of an event. -/
theorem Local.after (hchange : Changes crypto node mid) (hrest : Local crypto mid commands node') :
    Local crypto node commands node' := ⟨hchange.trans hrest.changes, hrest.quiet⟩

/-- A refused transaction changes nothing, an admitted one enters the mempool. -/
theorem changes_addTransaction {tx : Transaction} {result : Except String Unit}
    (h : node.addTransaction crypto tx = (result, node')) : Changes crypto node node' := by
  obtain rfl : (node.addTransaction crypto tx).2 = node' := congrArg Prod.snd h
  rcases node.mempool.addTransaction_cases crypto tx node.chain.state with hrefused |
    ⟨hadmitted, hadded⟩
  · have hsame : (node.addTransaction crypto tx).2 = node :=
      congrArg (fun mempool => { node with mempool }) hrefused
    rw [hsame]
  · have hentered : (node.addTransaction crypto tx).2 = { node with mempool := { node.mempool with
        transactions := node.mempool.transactions.insert tx.signature tx } } :=
      congrArg (fun mempool => { node with mempool }) hadded
    rw [hentered]
    exact .single (.enter hadmitted)

/-- A published transaction is beside the sync. -/
theorem local_publish (crypto : Crypto) (node : Node) (tx : Transaction) :
    Local crypto node (node.publish crypto tx).1 (node.publish crypto tx).2 := by
  unfold publish
  split <;> rename_i hadded <;> exact ⟨changes_addTransaction hadded, by simp [Quiet]⟩

/-- A submitted transaction is. -/
theorem local_submit (crypto : Crypto) (node : Node) (tx : Transaction) (onError : String → String) :
    Local crypto node (node.submit crypto tx onError).1 (node.submit crypto tx onError).2 := by
  unfold submit
  split <;> rename_i hadded <;> exact ⟨changes_addTransaction hadded, by simp [Quiet]⟩

/-- A faucet claim is. -/
theorem local_handleFaucet (crypto : Crypto) (host : Host) (node : Node) (receiver : Option Bytes)
    (currentTime : Int64) (recorded : Option String) :
    Local crypto node (node.handleFaucet crypto host receiver currentTime recorded).1
      (node.handleFaucet crypto host receiver currentTime recorded).2 := by
  unfold handleFaucet
  split
  · exact .reply _
  · split
    · exact .reply _
    · split
      · exact .reply _
      · dsimp only
        split
        · exact .reply _
        · split
          · rename_i hadded
            exact ⟨changes_addTransaction hadded, by simp [Quiet]⟩
          · rename_i node' hadded
            exact ⟨(changes_addTransaction hadded).tail
              (.record node'.lastSlot node'.simulationEnabled node'.myAddress _), by simp [Quiet]⟩

/-- A block from the network is. -/
theorem local_handleBlock {host : Host} {block : Block}
    (h : node.handleBlock crypto host block = some (commands, node')) :
    Local crypto node commands node' := by
  obtain ⟨⟨accepted, chain⟩, hdelivered, hact⟩ := Option.bind_eq_some_iff.mp h
  have hchain : Change crypto node { node with chain } := .deliver hdelivered
  cases accepted with
  | false =>
    obtain ⟨rfl, rfl⟩ := Prod.mk.inj (Option.some.inj hact)
    exact hchain.silent
  | true =>
    have hremoved : Changes crypto node { node with
        chain, mempool := node.mempool.removeTransactions block.transactions } :=
      .tail (.single hchain) (.remove block.transactions)
    obtain ⟨head, -, hvote⟩ := Option.bind_eq_some_iff.mp hact
    split at hvote
    · obtain ⟨rfl, rfl⟩ := Prod.mk.inj (Option.some.inj hvote)
      exact ⟨hremoved.tail (.vote host _), by simp [Quiet]⟩
    · obtain ⟨rfl, rfl⟩ := Prod.mk.inj (Option.some.inj hvote)
      exact ⟨hremoved, quiet_nil⟩

/-- The generated transfer of a slot is. -/
theorem local_simulate (crypto : Crypto) (host : Host) (node : Node) (tick : Tick) :
    Local crypto node (node.simulate crypto host tick).1 (node.simulate crypto host tick).2 := by
  unfold simulate
  split
  · exact .nil
  · split
    · exact local_publish ..
    · exact .nil

/-- Pruning is. -/
theorem changes_prune {tick : Tick} (h : node.prune tick = some node') : Changes crypto node node' := by
  unfold prune at h
  split at h
  · obtain ⟨height, -, hprune⟩ := Option.bind_eq_some_iff.mp h
    dsimp only at hprune
    split at hprune
    · rw [← Option.some.inj hprune]
      exact .single (.prune rfl)
    · rw [← Option.some.inj hprune]
  · rw [← Option.some.inj h]

/-- The production of a block is. -/
theorem local_produce {host : Host} {tick : Tick} {parent : Block}
    (h : node.produce crypto host tick parent = some (commands, node')) :
    Local crypto node commands node' := by
  obtain ⟨pruned, hprune, hadd⟩ := Option.bind_eq_some_iff.mp h
  obtain ⟨⟨accepted, chain⟩, hdelivered, hact⟩ := Option.bind_eq_some_iff.mp hadd
  have hchain : Changes crypto node { pruned with chain } :=
    (changes_prune hprune).tail (.deliver hdelivered)
  cases accepted with
  | false =>
    obtain ⟨rfl, rfl⟩ := Prod.mk.inj (Option.some.inj hact)
    exact ⟨hchain, quiet_nil⟩
  | true =>
    obtain ⟨rfl, rfl⟩ := Prod.mk.inj (Option.some.inj hact)
    exact ⟨(hchain.tail (.vote host _)).tail (.remove _), by simp [Quiet]⟩

/-- A slot is. -/
theorem local_handleSlot {host : Host} {tick : Tick}
    (h : node.handleSlot crypto host tick = some (commands, node')) :
    Local crypto node commands node' := by
  unfold handleSlot at h
  split at h
  · have hslot : Changes crypto node { node with lastSlot := tick.currentSlot } :=
      .single (.record tick.currentSlot node.simulationEnabled node.myAddress node.claims)
    have hgenerated := local_simulate crypto host { node with lastSlot := tick.currentSlot } tick
    generalize simulate crypto host { node with lastSlot := tick.currentSlot } tick = generated
      at h hgenerated
    obtain ⟨parent, -, hact⟩ := Option.bind_eq_some_iff.mp h
    split at hact
    · obtain ⟨⟨produced, next⟩, hproduce, hlast⟩ := Option.bind_eq_some_iff.mp hact
      obtain ⟨rfl, rfl⟩ := Prod.mk.inj (Option.some.inj hlast)
      exact .after hslot (hgenerated.append (local_produce hproduce))
    · obtain ⟨rfl, rfl⟩ := Prod.mk.inj (Option.some.inj hact)
      exact .after hslot hgenerated
  · obtain ⟨rfl, rfl⟩ := Prod.mk.inj (Option.some.inj h)
    exact .nil

/-- The blocks of a message are delivered one after another. -/
theorem changes_addBlocks (node : Node) {blocks : List (Host × Block)} {before : ℕ}
    {result : Except String ℕ} {chain : Chain}
    (h : SyncManager.addBlocks crypto before node.chain blocks = some (result, chain)) :
    Changes crypto node { node with chain } := by
  induction blocks generalizing node before with
  | nil =>
    obtain ⟨-, rfl⟩ := Prod.mk.inj (Option.some.inj h)
    exact .refl
  | cons entry rest ih =>
    obtain ⟨host, block⟩ := entry
    rw [SyncManager.addBlocks] at h
    split at h
    · contradiction
    · rename_i next hdelivered
      exact .head (.deliver hdelivered) (ih { node with chain := next } h)
    · rename_i next hdelivered
      split at h
      · exact .head (.deliver hdelivered) (ih { node with chain := next } h)
      · obtain ⟨-, rfl⟩ := Prod.mk.inj (Option.some.inj h)
        exact .single (.deliver hdelivered)

/-- An event that does not concern the sync is local. -/
theorem local_of_handle {event : Event} (hother : ¬ event.OfSync)
    (h : node.handle crypto event = some (commands, node')) : Local crypto node commands node' := by
  cases event with
  | chainInfo | blocks | peerIdentified => exact absurd trivial hother
  | slot host tick => exact local_handleSlot h
  | block host block => exact local_handleBlock h
  | vote host vote =>
    obtain ⟨rfl, rfl⟩ := Prod.mk.inj (Option.some.inj h)
    exact (Change.vote host vote).silent
  | send host receiver amount =>
    obtain ⟨rfl, rfl⟩ := Prod.mk.inj (Option.some.inj h)
    cases receiver with
    | none => exact .nil
    | some receiver => exact local_publish ..
  | createTransaction host receiver amount =>
    obtain ⟨rfl, rfl⟩ := Prod.mk.inj (Option.some.inj h)
    cases receiver with
    | none => exact .reply _
    | some receiver => exact local_submit ..
  | submitTransaction tx =>
    obtain ⟨rfl, rfl⟩ := Prod.mk.inj (Option.some.inj h)
    exact local_submit ..
  | faucet host receiver currentTime recorded =>
    obtain ⟨rfl, rfl⟩ := Prod.mk.inj (Option.some.inj h)
    exact local_handleFaucet ..
  | registerValidator stake =>
    rw [handle, handleRegister] at h
    split at h
    · obtain ⟨rfl, rfl⟩ := Prod.mk.inj (Option.some.inj h)
      exact .reply _
    · obtain ⟨rfl, rfl⟩ := Prod.mk.inj (Option.some.inj h)
      exact local_submit ..
  | transaction tx =>
    obtain ⟨rfl, rfl⟩ := Prod.mk.inj (Option.some.inj h)
    exact ⟨changes_addTransaction rfl, quiet_nil⟩
  | incomingRequest peerId request channel =>
    cases request with
    | getChainInfo =>
      obtain ⟨height, -, hact⟩ := Option.bind_eq_some_iff.mp h
      obtain ⟨rfl, rfl⟩ := Prod.mk.inj (Option.some.inj hact)
      exact ⟨.refl, by simp [Quiet]⟩
    | getBlocks startHash limit =>
      obtain ⟨rfl, rfl⟩ := Prod.mk.inj (Option.some.inj h)
      exact ⟨.refl, by simp [Quiet]⟩
  | peerConnected peerId =>
    obtain ⟨rfl, rfl⟩ := Prod.mk.inj (Option.some.inj h)
    exact ⟨.refl, by simp [Quiet]⟩
  | peerDisconnected peerId =>
    obtain ⟨rfl, rfl⟩ := Prod.mk.inj (Option.some.inj h)
    exact .nil
  | toggleSim =>
    obtain ⟨rfl, rfl⟩ := Prod.mk.inj (Option.some.inj h)
    exact (Change.record node.lastSlot _ node.myAddress node.claims).silent
  | setWallet address =>
    obtain ⟨rfl, rfl⟩ := Prod.mk.inj (Option.some.inj h)
    exact (Change.record node.lastSlot node.simulationEnabled address node.claims).silent

/-- The loop changes nothing but the sync manager after a message of blocks. -/
theorem continueSync_eq {received : Bool} (h : node.continueSync received = some (commands, node')) :
    node' = { node with syncManager := node'.syncManager } := by
  unfold continueSync at h
  split at h
  · obtain ⟨height, -, hact⟩ := Option.bind_eq_some_iff.mp h
    split at hact
    · split at hact <;>
        · obtain ⟨-, rfl⟩ := Prod.mk.inj (Option.some.inj hact)
          rfl
    · obtain ⟨-, rfl⟩ := Prod.mk.inj (Option.some.inj hact)
      rfl
  · obtain ⟨-, rfl⟩ := Prod.mk.inj (Option.some.inj h)
    rfl

/-- What a message of blocks does: a foreign block fails the sync; else the manager looks at the target
and the loop goes on from there. -/
theorem handleBlocks_cases {blocks : List (Host × Block)}
    (h : node.handleBlocks crypto blocks = some (commands, node')) :
    (∃ error chain', SyncManager.addBlocks crypto 0 node.chain blocks = some (.error error, chain') ∧
      commands = [] ∧
      node' = { node with chain := chain', syncManager := node.syncManager.failSync error }) ∨
    ∃ count chain' syncManager,
      SyncManager.addBlocks crypto 0 node.chain blocks = some (.ok count, chain') ∧
      node.syncManager.checkTarget count chain' = some syncManager ∧
      continueSync { node with chain := chain', syncManager } (!blocks.isEmpty) =
        some (commands, node') := by
  rw [handleBlocks, SyncManager.processBlocks] at h
  generalize SyncManager.addBlocks crypto 0 node.chain blocks = added at h ⊢
  rcases added with _ | ⟨error | count, chain'⟩
  · contradiction
  · obtain ⟨rfl, rfl⟩ := Prod.mk.inj (Option.some.inj h)
    exact .inl ⟨error, chain', rfl, rfl, rfl⟩
  · obtain ⟨processed, hprocessed, hcontinue⟩ := Option.bind_eq_some_iff.mp h
    obtain ⟨syncManager, hmanager, rfl⟩ := Option.map_eq_some_iff.mp hprocessed
    exact .inr ⟨count, chain', syncManager, rfl, hmanager, hcontinue⟩

/-- Any event is elementary changes and then a change of the sync manager. -/
theorem changes_of_handle {event : Event} (h : node.handle crypto event = some (commands, node')) :
    ∃ mid, Changes crypto node mid ∧ node' = { mid with syncManager := node'.syncManager } := by
  by_cases hother : event.OfSync
  · cases event with
    | chainInfo host peerId height headHash =>
      obtain ⟨ourHeight, -, hact⟩ := Option.bind_eq_some_iff.mp h
      refine ⟨node, .refl, ?_⟩
      split at hact <;>
        · obtain ⟨-, rfl⟩ := Prod.mk.inj (Option.some.inj hact)
          rfl
    | blocks sender blocks =>
      rcases handleBlocks_cases h with ⟨error, chain', hadded, -, rfl⟩ |
        ⟨count, chain', syncManager, hadded, -, hcontinue⟩
      · exact ⟨_, changes_addBlocks node hadded, rfl⟩
      · have hsame := continueSync_eq hcontinue
        exact ⟨{ node with chain := chain' }, changes_addBlocks node hadded, hsame⟩
    | peerIdentified peerId protocol address =>
      obtain ⟨rfl, rfl⟩ := Prod.mk.inj (Option.some.inj h)
      exact ⟨node, .refl, rfl⟩
    | _ => contradiction
  · exact ⟨node', (local_of_handle hother h).changes, rfl⟩

end Node

end Nocostcoin
