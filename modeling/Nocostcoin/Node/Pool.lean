import Nocostcoin.Chain.Replay
import Nocostcoin.Node.Production
import Nocostcoin.Node.Restart

/-!
# Whether the mempool holds live transactions only

A block moves the nonces of its senders, and what the mempool holds at the nonces of the block is dead
from then on. The two handlers of single blocks drop the block's transactions from the mempool, by
signature; the handler of a batch of blocks drops nothing.
-/

namespace Nocostcoin

open Execution

variable {crypto : Crypto}

/-- The blocks of a batch that are accepted, up to the one that ends it. -/
def acceptedBlocks (crypto : Crypto) : Chain → List (Host × Block) → List Block
  | _, [] => []
  | chain, (host, block) :: rest =>
    match chain.addBlock crypto host block with
    | none => []
    | some (true, chain) => block :: acceptedBlocks crypto chain rest
    | some (false, chain) =>
      if (chain.getBlock block.hash).isSome then acceptedBlocks crypto chain rest else []

/-- The databases that an event hands blocks to accept every write. -/
def Event.Reliable : Event → Prop
  | .block host _ => host.Reliable
  | .blocks _ entries => ∀ entry ∈ entries, entry.1.Reliable
  | .slot host _ => host.Reliable
  | _ => True

/-- The transactions of some blocks. -/
def transactionsIn (blocks : List Block) : List Transaction := blocks.flatMap Block.transactions

/-- The nonces of a range, where it does not wrap around. -/
theorem mem_nonceRange_iff {first nonce : UInt64} {count : ℕ} (hfew : first.toNat + count < 2 ^ 64) :
    nonce ∈ nonceRange first count ↔ first.toNat ≤ nonce.toNat ∧ nonce.toNat < first.toNat + count := by
  unfold nonceRange
  rw [List.mem_map]
  constructor
  · rintro ⟨i, hi, rfl⟩
    have hlt := List.mem_range.mp hi
    rw [UInt64.toNat_add, UInt64.toNat_ofNat']
    omega
  · intro hbounds
    refine ⟨nonce.toNat - first.toNat, List.mem_range.mpr (by omega), ?_⟩
    apply UInt64.toNat_inj.mp
    have hlt := nonce.toNat_lt
    rw [UInt64.toNat_add, UInt64.toNat_ofNat']
    omega

namespace Chain

variable {host : Host} {chain chain' : Chain}

/-- A vote counts nothing. -/
theorem noncesCounted_of_vote (host : Host) (vote : Vote) (hsettled : chain.NoncesSettled) :
    NoncesCounted chain (chain.addVote crypto host vote).2 [] := by
  obtain ⟨votes, stored, finalizedHead, hvote⟩ := addVote_frame crypto host chain vote
  rw [hvote]
  exact .of_same hsettled fun _ => rfl

/-- A single block is a batch of its own. -/
theorem transactionsIn_acceptedBlocks_single {block : Block} {accepted : Bool}
    (h : chain.addBlock crypto host block = some (accepted, chain')) :
    transactionsIn (acceptedBlocks crypto chain [(host, block)]) = committedTransactions block accepted := by
  rw [acceptedBlocks, h]
  cases accepted with
  | true => exact List.append_nil _
  | false =>
    dsimp only
    split <;> rfl

/-- A batch on reliable databases counts the transactions of its accepted blocks. -/
theorem noncesCounted_of_addBlocks {blocks : List (Host × Block)} {before : ℕ} {result : Except String ℕ}
    (hreliable : ∀ entry ∈ blocks, entry.1.Reliable) (hsettled : chain.NoncesSettled)
    (h : SyncManager.addBlocks crypto before chain blocks = some (result, chain')) :
    NoncesCounted chain chain' (transactionsIn (acceptedBlocks crypto chain blocks)) := by
  induction blocks generalizing chain before with
  | nil =>
    obtain ⟨-, rfl⟩ := Prod.mk.inj (Option.some.inj h)
    exact .of_same hsettled fun _ => rfl
  | cons entry rest ih =>
    obtain ⟨host, block⟩ := entry
    obtain ⟨hhost, hrest⟩ := List.forall_mem_cons.mp hreliable
    rw [SyncManager.addBlocks] at h
    rw [acceptedBlocks]
    cases hadd : chain.addBlock crypto host block with
    | none =>
      rw [hadd] at h
      contradiction
    | some answer =>
      obtain ⟨accepted, next⟩ := answer
      have hfirst := noncesCounted_of_delivery hhost hsettled (delivery_of_addBlock hadd)
      rw [hadd] at h
      cases accepted with
      | true => exact hfirst.trans (ih hrest hfirst.settled h)
      | false =>
        dsimp only at h ⊢
        split at h
        · rename_i hknown
          rw [if_pos hknown]
          exact hfirst.trans (ih hrest hfirst.settled h)
        · rename_i hunknown
          obtain ⟨-, rfl⟩ := Prod.mk.inj (Option.some.inj h)
          rw [if_neg hunknown]
          exact hfirst

end Chain

namespace Node

variable {node node' mid : Node} {commands : List NetworkCommand}

/-- The chain and the block that a slot hands to `add_block`, if it gets there. -/
def ownBlock (crypto : Crypto) (host : Host) (node : Node) (tick : Tick) : Option (Chain × Block) :=
  if ¬ node.syncManager.isSyncing ∧ node.lastSlot < tick.currentSlot then do
    let ready := node.selecting crypto host tick
    let parent ← ready.chain.getHead
    if ready.isLeader crypto parent tick.currentSlot then do
      let pruned ← ready.prune tick
      some (pruned.chain, produceBlock crypto parent tick.currentSlot ready.validatorKey
        (ready.mempool.getTransactionsForBlock host 100) tick.timestamp)
    else none
  else none

/-- The chain and the blocks that an event hands to it. -/
def deliveries (crypto : Crypto) (node : Node) : Event → Option (Chain × List (Host × Block))
  | .blocks _ blocks => some (node.chain, blocks)
  | .block host block => some (node.chain, [(host, block)])
  | .slot host tick => (node.ownBlock crypto host tick).map fun (chain, block) => (chain, [(host, block)])
  | _ => none

/-- The transactions of the blocks that are accepted in an event. -/
def acceptedIn (crypto : Crypto) (node : Node) (event : Event) : List Transaction :=
  match node.deliveries crypto event with
  | some (chain, blocks) => transactionsIn (acceptedBlocks crypto chain blocks)
  | none => []

/-- The accepted transactions of a slot are those of its own block. -/
theorem acceptedIn_slot (crypto : Crypto) (host : Host) (node : Node) (tick : Tick) :
    node.acceptedIn crypto (.slot host tick) = match node.ownBlock crypto host tick with
      | some (chain, block) => transactionsIn (acceptedBlocks crypto chain [(host, block)])
      | none => [] := by
  have hdeliveries : node.deliveries crypto (.slot host tick) =
      (node.ownBlock crypto host tick).map fun own => (own.1, [(host, own.2)]) := rfl
  unfold acceptedIn
  rw [hdeliveries]
  cases node.ownBlock crypto host tick <;> rfl

/-- The mempool of an event when its blocks are handed over: that of a slot may have a generated transfer
in it. -/
def poolOf (crypto : Crypto) (node : Node) : Event → Mempool
  | .slot host tick => (node.selecting crypto host tick).mempool
  | _ => node.mempool

/-- What an event removes from the mempool: nothing after a batch of blocks. -/
def removedIn (crypto : Crypto) (node : Node) : Event → List Transaction
  | .blocks _ _ => []
  | event => node.acceptedIn crypto event

/-- What the mempool holds it held before, or it has a nonce that the state admits. -/
def Admits (node : Node) (mempool : Mempool) : Prop :=
  ∀ signature tx, mempool.transactions.lookup signature = some tx →
    node.mempool.transactions.lookup signature = some tx ∨ node.chain.state.getNonce tx.sender ≤ tx.nonce

/-- Something that counts no transaction and admits some. -/
structure Idle (node node' : Node) : Prop where
  counted : node.chain.NoncesSettled → Chain.NoncesCounted node.chain node'.chain []
  admits : node.Admits node'.mempool

/-- Nothing counts no transaction. -/
theorem Idle.refl (node : Node) : Idle node node :=
  ⟨fun hsettled => .of_same hsettled fun _ => rfl, fun _ _ h => .inl h⟩

/-- Something that leaves chain and mempool alone does. -/
theorem Idle.of_same (hchain : node'.chain = node.chain) (hpool : node'.mempool = node.mempool) :
    Idle node node' := by
  constructor
  · intro hsettled
    rw [hchain]
    exact .of_same hsettled fun _ => rfl
  · intro signature tx h
    rw [hpool] at h
    exact .inl h

/-- Adding a transaction is idle. -/
theorem idle_addTransaction (crypto : Crypto) (node : Node) (tx : Transaction) :
    Idle node (node.addTransaction crypto tx).2 := by
  constructor
  · exact fun hsettled => .of_same hsettled fun _ => rfl
  · rcases node.mempool.addTransaction_cases crypto tx node.chain.state with hrefused |
      ⟨hadmitted, hadded⟩
    · intro signature found h
      exact .inl (hrefused ▸ h)
    · intro signature found h
      have hentry : (node.mempool.transactions.insert tx.signature tx).lookup signature = some found := by
        have hpool : (node.addTransaction crypto tx).2.mempool = _ := hadded
        rwa [hpool] at h
      rw [FiniteMap.lookup_insert_ite] at hentry
      split at hentry
      · rw [← Option.some.inj hentry]
        exact .inr (Mempool.nonce_of_admission hadmitted)
      · exact .inl hentry

/-- Publishing a transaction adds it. -/
theorem publish_snd (crypto : Crypto) (node : Node) (tx : Transaction) :
    (node.publish crypto tx).2 = (node.addTransaction crypto tx).2 := by
  unfold publish
  split <;> rename_i hadded <;> rw [hadded]

/-- Submitting a transaction adds it. -/
theorem submit_snd (crypto : Crypto) (node : Node) (tx : Transaction) (onError : String → String) :
    (node.submit crypto tx onError).2 = (node.addTransaction crypto tx).2 := by
  unfold submit
  split <;> rename_i hadded <;> rw [hadded]

/-- A faucet claim is idle. -/
theorem idle_handleFaucet (crypto : Crypto) (host : Host) (node : Node) (receiver : Option Bytes)
    (currentTime : Int64) (recorded : Option String) :
    Idle node (node.handleFaucet crypto host receiver currentTime recorded).2 := by
  unfold handleFaucet
  split
  · exact .refl node
  · rename_i address
    have hadded := idle_addTransaction crypto node (node.newTransfer crypto host address 1000)
    split
    · exact .refl node
    · split
      · exact .refl node
      · dsimp only
        split
        · exact .refl node
        · split <;> rename_i hresult <;> rw [hresult] at hadded
          · exact hadded
          · exact ⟨hadded.counted, hadded.admits⟩

/-- It is idle. -/
theorem idle_simulate (crypto : Crypto) (host : Host) (node : Node) (tick : Tick) :
    Idle node (node.simulate crypto host tick).2 := by
  unfold simulate
  split
  · exact .refl node
  · split
    · rw [publish_snd]
      exact idle_addTransaction ..
    · exact .refl node

/-- Pruning leaves the mempool alone and every nonce. -/
theorem idle_prune {tick : Tick} (h : node.prune tick = some node') :
    node'.mempool = node.mempool ∧
      (node.chain.NoncesSettled → Chain.NoncesCounted node.chain node'.chain []) := by
  have hkept : ∀ storage : Storage, storage.accounts = node.chain.storage.accounts →
      node.chain.NoncesSettled → Chain.NoncesCounted node.chain (node.chain.withStorage storage) [] := by
    intro storage haccounts hsettled
    have hsame : ∀ address, (node.chain.withStorage storage).state.getNonce address =
        node.chain.state.getNonce address := by
      intro address
      rw [State.getNonce, State.getNonce, State.getAccount_eq_lookup, State.getAccount_eq_lookup]
      unfold State.accounts
      change (((node.chain.state.pendingChanges ∪ storage.accounts).lookup address).map _).getD 0 = _
      rw [haccounts]
      rfl
    apply Chain.NoncesCounted.of_same
    · intro address
      rw [hsame, ← hsettled address]
      exact Chain.getNonce_discardChanges haccounts address
    · exact hsame
  unfold prune at h
  split at h
  · obtain ⟨height, -, hprune⟩ := Option.bind_eq_some_iff.mp h
    dsimp only at hprune
    split at hprune
    · rw [← Option.some.inj hprune]
      exact ⟨rfl, hkept _ (Storage.accounts_pruneHeights ..)⟩
    · rw [← Option.some.inj hprune]
      exact ⟨rfl, (Idle.refl node).counted⟩
  · rw [← Option.some.inj h]
    exact ⟨rfl, (Idle.refl node).counted⟩

/-- What an event does to nonces and mempool: it counts the transactions of the accepted blocks; where
there are such blocks, exactly the removed signatures leave the mempool, else some may enter. -/
structure Handled (crypto : Crypto) (node : Node) (event : Event) (node' : Node) : Prop where
  counted : node.chain.NoncesSettled →
    Chain.NoncesCounted node.chain node'.chain (node.acceptedIn crypto event)
  admits : node.Admits (node.poolOf crypto event) ∧ node.Admits node'.mempool
  left : node.acceptedIn crypto event ≠ [] →
    node'.mempool = (node.poolOf crypto event).removeTransactions (node.removedIn crypto event)

/-- An event that hands over no block and is idle. -/
theorem Handled.of_idle {event : Event} (hnone : node.acceptedIn crypto event = [])
    (hpool : node.Admits (node.poolOf crypto event)) (hidle : Idle node node') :
    Handled crypto node event node' := by
  constructor
  · rw [hnone]
    exact hidle.counted
  · exact ⟨hpool, hidle.admits⟩
  · exact fun hsome => absurd hnone hsome

/-- A block from the network. -/
theorem handled_handleBlock {host : Host} {block : Block} (hreliable : host.Reliable)
    (h : node.handleBlock crypto host block = some (commands, node')) :
    Handled crypto node (.block host block) node' := by
  obtain ⟨⟨accepted, chain⟩, hdelivered, hact⟩ := Option.bind_eq_some_iff.mp h
  have haccepted : node.acceptedIn crypto (.block host block) =
      Chain.committedTransactions block accepted :=
    Chain.transactionsIn_acceptedBlocks_single hdelivered
  have hcounted := fun hsettled => Chain.noncesCounted_of_delivery hreliable hsettled
    (Chain.delivery_of_addBlock hdelivered)
  have hsame : node.Admits (node.poolOf crypto (.block host block)) := (Idle.refl node).admits
  cases accepted with
  | false =>
    obtain ⟨-, rfl⟩ := Prod.mk.inj (Option.some.inj hact)
    exact .of_idle haccepted hsame ⟨hcounted, (Idle.refl node).admits⟩
  | true =>
    obtain ⟨head, -, hvote⟩ := Option.bind_eq_some_iff.mp hact
    have hpool : ∀ mempool, mempool = node.mempool.removeTransactions block.transactions →
        node.Admits mempool := by
      intro mempool hremoved signature tx hlookup
      rw [hremoved] at hlookup
      exact .inl (Mempool.lookup_of_removeTransactions hlookup)
    have hremoved : node.removedIn crypto (.block host block) = block.transactions := haccepted
    split at hvote
    · obtain ⟨-, rfl⟩ := Prod.mk.inj (Option.some.inj hvote)
      refine ⟨fun hsettled => ?_, ⟨hsame, hpool _ rfl⟩, fun _ => by rw [hremoved]; rfl⟩
      rw [haccepted, ← List.append_nil (Chain.committedTransactions block true)]
      exact (hcounted hsettled).trans (Chain.noncesCounted_of_vote host _ (hcounted hsettled).settled)
    · obtain ⟨-, rfl⟩ := Prod.mk.inj (Option.some.inj hvote)
      refine ⟨fun hsettled => ?_, ⟨hsame, hpool _ rfl⟩, fun _ => by rw [hremoved]; rfl⟩
      rw [haccepted]
      exact hcounted hsettled

/-- A batch of blocks: nothing leaves the mempool. -/
theorem handled_handleBlocks {peerId : Bytes} {blocks : List (Host × Block)}
    (hreliable : ∀ entry ∈ blocks, entry.1.Reliable)
    (h : node.handleBlocks crypto blocks = some (commands, node')) :
    Handled crypto node (.blocks peerId blocks) node' := by
  have hsame : node.Admits node.mempool := (Idle.refl node).admits
  rcases handleBlocks_cases h with ⟨error, chain', hadded, -, rfl⟩ |
    ⟨count, chain', syncManager, hadded, -, hcontinue⟩
  · exact ⟨fun hsettled => Chain.noncesCounted_of_addBlocks hreliable hsettled hadded, ⟨hsame, hsame⟩,
      fun _ => rfl⟩
  · rw [continueSync_eq hcontinue]
    exact ⟨fun hsettled => Chain.noncesCounted_of_addBlocks hreliable hsettled hadded, ⟨hsame, hsame⟩,
      fun _ => rfl⟩

/-- The block of a slot. -/
theorem handled_produce {host : Host} {tick : Tick} {parent : Block} {ready : Node}
    (hready : node.selecting crypto host tick = ready) (hreliable : host.Reliable)
    (hentered : ¬ node.syncManager.isSyncing ∧ node.lastSlot < tick.currentSlot)
    (hparent : ready.chain.getHead = some parent) (hleader : ready.isLeader crypto parent tick.currentSlot)
    (hidle : Idle node ready)
    (h : ready.produce crypto host tick parent = some (commands, node')) :
    Handled crypto node (.slot host tick) node' := by
  obtain ⟨pruned, hprune, hadd⟩ := Option.bind_eq_some_iff.mp h
  obtain ⟨⟨accepted, chain⟩, hdelivered, hact⟩ := Option.bind_eq_some_iff.mp hadd
  obtain ⟨hmempool, hpruned⟩ := idle_prune hprune
  have hown : node.ownBlock crypto host tick = some (pruned.chain, produceBlock crypto parent
      tick.currentSlot ready.validatorKey (ready.mempool.getTransactionsForBlock host 100)
      tick.timestamp) := by
    unfold ownBlock
    rw [if_pos hentered, hready]
    simp only [hparent, hleader, hprune, Option.bind_eq_bind, Option.bind_some, if_true]
  have haccepted : node.acceptedIn crypto (.slot host tick) = Chain.committedTransactions
      (produceBlock crypto parent tick.currentSlot ready.validatorKey
        (ready.mempool.getTransactionsForBlock host 100) tick.timestamp) accepted := by
    rw [acceptedIn_slot, hown]
    exact Chain.transactionsIn_acceptedBlocks_single hdelivered
  have hpool : node.poolOf crypto (.slot host tick) = ready.mempool := congrArg mempool hready
  have hcounted : node.chain.NoncesSettled → Chain.NoncesCounted node.chain chain
      (node.acceptedIn crypto (.slot host tick)) := by
    intro hsettled
    have hbefore := hidle.counted hsettled
    have hmid := hpruned hbefore.settled
    rw [haccepted]
    exact (hbefore.trans hmid).trans (Chain.noncesCounted_of_delivery hreliable hmid.settled
      (Chain.delivery_of_addBlock hdelivered))
  cases accepted with
  | false =>
    obtain ⟨-, rfl⟩ := Prod.mk.inj (Option.some.inj hact)
    refine ⟨hcounted, ⟨hpool ▸ hidle.admits, ?_⟩, fun hsome => absurd haccepted hsome⟩
    exact hmempool ▸ hidle.admits
  | true =>
    obtain ⟨-, rfl⟩ := Prod.mk.inj (Option.some.inj hact)
    refine ⟨fun hsettled => ?_, ⟨hpool ▸ hidle.admits, ?_⟩, fun _ => ?_⟩
    · rw [← List.append_nil (node.acceptedIn crypto _)]
      exact (hcounted hsettled).trans (Chain.noncesCounted_of_vote host _ (hcounted hsettled).settled)
    · intro signature tx hlookup
      have hleft := Mempool.lookup_of_removeTransactions hlookup
      rw [hmempool] at hleft
      exact hidle.admits signature tx hleft
    · have hremoved : node.removedIn crypto (.slot host tick) =
          ready.mempool.getTransactionsForBlock host 100 := haccepted
      rw [hpool, hremoved, ← hmempool]

/-- A slot. -/
theorem handled_handleSlot {host : Host} {tick : Tick} (hreliable : host.Reliable)
    (h : node.handleSlot crypto host tick = some (commands, node')) :
    Handled crypto node (.slot host tick) node' := by
  have hsimulate := idle_simulate crypto host { node with lastSlot := tick.currentSlot } tick
  have hidle : Idle node (node.selecting crypto host tick) := ⟨hsimulate.counted, hsimulate.admits⟩
  have hselecting : node.selecting crypto host tick =
      (simulate crypto host { node with lastSlot := tick.currentSlot } tick).2 := rfl
  unfold handleSlot at h
  split at h
  · rename_i hentered
    generalize simulate crypto host { node with lastSlot := tick.currentSlot } tick = generated
      at h hselecting
    obtain ⟨parent, hparent, hact⟩ := Option.bind_eq_some_iff.mp h
    rw [hselecting] at hidle
    split at hact
    · rename_i hleader
      obtain ⟨⟨produced, next⟩, hproduce, hlast⟩ := Option.bind_eq_some_iff.mp hact
      obtain ⟨-, rfl⟩ := Prod.mk.inj (Option.some.inj hlast)
      exact handled_produce hselecting hreliable hentered hparent hleader hidle hproduce
    · rename_i hfollower
      obtain ⟨-, rfl⟩ := Prod.mk.inj (Option.some.inj hact)
      have hnone : node.acceptedIn crypto (.slot host tick) = [] := by
        rw [acceptedIn_slot, ownBlock, if_pos hentered, hselecting]
        simp only [hparent, hfollower, Option.bind_eq_bind, Option.bind_some, if_false, Bool.false_eq_true]
      have hpool : node.poolOf crypto (.slot host tick) = generated.2.mempool :=
        congrArg mempool hselecting
      exact .of_idle hnone (hpool ▸ hidle.admits) hidle
  · rename_i hskipped
    obtain ⟨-, rfl⟩ := Prod.mk.inj (Option.some.inj h)
    have hnone : node.acceptedIn crypto (.slot host tick) = [] := by
      rw [acceptedIn_slot, ownBlock, if_neg hskipped]
    exact .of_idle hnone hidle.admits (.refl node)

/-- Every event on reliable databases is handled so. -/
theorem handled_of_handle {event : Event} (hreliable : event.Reliable)
    (h : node.handle crypto event = some (commands, node')) : Handled crypto node event node' := by
  have hsame : node.Admits node.mempool := (Idle.refl node).admits
  cases event with
  | slot host tick => exact handled_handleSlot hreliable h
  | block host block => exact handled_handleBlock hreliable h
  | blocks peerId blocks => exact handled_handleBlocks hreliable h
  | vote host vote =>
    obtain ⟨-, rfl⟩ := Prod.mk.inj (Option.some.inj h)
    exact .of_idle rfl hsame ⟨Chain.noncesCounted_of_vote host vote, hsame⟩
  | chainInfo host peerId height headHash =>
    obtain ⟨ourHeight, -, hact⟩ := Option.bind_eq_some_iff.mp h
    split at hact <;>
      · obtain ⟨-, rfl⟩ := Prod.mk.inj (Option.some.inj hact)
        exact .of_idle rfl hsame (.of_same rfl rfl)
  | incomingRequest peerId request channel =>
    cases request with
    | getChainInfo =>
      obtain ⟨height, -, hact⟩ := Option.bind_eq_some_iff.mp h
      obtain ⟨-, rfl⟩ := Prod.mk.inj (Option.some.inj hact)
      exact .of_idle rfl hsame (.refl node)
    | getBlocks startHash limit =>
      obtain ⟨-, rfl⟩ := Prod.mk.inj (Option.some.inj h)
      exact .of_idle rfl hsame (.refl node)
  | send host receiver amount =>
    obtain ⟨-, rfl⟩ := Prod.mk.inj (Option.some.inj h)
    cases receiver with
    | none => exact .of_idle rfl hsame (.refl node)
    | some receiver => exact .of_idle rfl hsame (publish_snd crypto node _ ▸ idle_addTransaction ..)
  | createTransaction host receiver amount =>
    obtain ⟨-, rfl⟩ := Prod.mk.inj (Option.some.inj h)
    cases receiver with
    | none => exact .of_idle rfl hsame (.refl node)
    | some receiver => exact .of_idle rfl hsame (submit_snd crypto node _ _ ▸ idle_addTransaction ..)
  | submitTransaction tx =>
    obtain ⟨-, rfl⟩ := Prod.mk.inj (Option.some.inj h)
    exact .of_idle rfl hsame (submit_snd crypto node _ _ ▸ idle_addTransaction ..)
  | registerValidator stake =>
    rw [handle, handleRegister] at h
    split at h
    · obtain ⟨-, rfl⟩ := Prod.mk.inj (Option.some.inj h)
      exact .of_idle rfl hsame (.refl node)
    · obtain ⟨-, rfl⟩ := Prod.mk.inj (Option.some.inj h)
      exact .of_idle rfl hsame (submit_snd crypto node _ _ ▸ idle_addTransaction ..)
  | faucet host receiver currentTime recorded =>
    obtain ⟨-, rfl⟩ := Prod.mk.inj (Option.some.inj h)
    exact .of_idle rfl hsame (idle_handleFaucet ..)
  | transaction tx =>
    obtain ⟨-, rfl⟩ := Prod.mk.inj (Option.some.inj h)
    exact .of_idle rfl hsame (idle_addTransaction ..)
  | peerConnected | peerDisconnected | peerIdentified | toggleSim | setWallet =>
    obtain ⟨-, rfl⟩ := Prod.mk.inj (Option.some.inj h)
    exact .of_idle rfl hsame (.of_same rfl rfl)

/-- The mempool holds live transactions only: their nonces are not below those of their senders, and none
of them is among those that are done. -/
def Live (node : Node) (done : List Transaction) : Prop :=
  ∀ signature tx, node.mempool.transactions.lookup signature = some tx →
    node.chain.state.getNonce tx.sender ≤ tx.nonce ∧ tx ∉ done

/-- An event removes from the mempool, by signature, whatever is there at the sender and the nonce of a
transaction that it accepts. -/
def Clears (crypto : Crypto) (node : Node) (event : Event) : Prop :=
  ∀ signature tx, (node.poolOf crypto event).transactions.lookup signature = some tx →
    ∀ other ∈ node.acceptedIn crypto event, other.sender = tx.sender → other.nonce = tx.nonce →
      ∃ removed ∈ node.removedIn crypto event, removed.signature = signature

instance (node : Node) (done : List Transaction) : Decidable (node.Live done) :=
  decidable_of_iff (∀ entry ∈ Host.plain.walk node.mempool.transactions,
      node.chain.state.getNonce entry.2.sender ≤ entry.2.nonce ∧ entry.2 ∉ done)
    ⟨fun h signature tx hlookup => h (signature, tx) (Host.mem_walk.mpr hlookup),
      fun h entry hentry => h entry.1 entry.2 (Host.mem_walk.mp hentry)⟩

instance (crypto : Crypto) (node : Node) (event : Event) : Decidable (node.Clears crypto event) :=
  decidable_of_iff (∀ entry ∈ Host.plain.walk (node.poolOf crypto event).transactions,
      ∀ other ∈ node.acceptedIn crypto event, other.sender = entry.2.sender →
        other.nonce = entry.2.nonce →
        ∃ removed ∈ node.removedIn crypto event, removed.signature = entry.1)
    ⟨fun h signature tx hlookup => h (signature, tx) (Host.mem_walk.mpr hlookup),
      fun h entry hentry => h entry.1 entry.2 (Host.mem_walk.mp hentry)⟩

end Node

namespace Chain

variable {opened chain chain' : Chain} {txs txs' : List Transaction}

/-- Who sent few transactions has their number as nonce, if it started at zero. -/
theorem NoncesCounted.toNat_getNonce (h : NoncesCounted opened chain txs)
    (hfresh : ∀ address, opened.state.getNonce address = 0) (hfew : txs.length < 2 ^ 64) (address : Bytes) :
    (chain.state.getNonce address).toNat = sentBy address txs := by
  have hle := sentBy_le_length address txs
  rw [h.counted, hfresh, UInt64.zero_add, UInt64.toNat_ofNat']
  omega

/-- The nonces of the transactions that are counted next are those between the two counts. -/
theorem NoncesCounted.mem_noncesOf_iff (h : NoncesCounted chain chain' txs) {address : Bytes}
    (hfew : (chain.state.getNonce address).toNat + sentBy address txs < 2 ^ 64) {nonce : UInt64} :
    nonce ∈ noncesOf address txs ↔
      chain.state.getNonce address ≤ nonce ∧ nonce < chain'.state.getNonce address := by
  have hafter : (chain'.state.getNonce address).toNat =
      (chain.state.getNonce address).toNat + sentBy address txs := by
    rw [h.counted, UInt64.toNat_add, UInt64.toNat_ofNat']
    omega
  rw [h.consecutive, mem_nonceRange_iff hfew, UInt64.le_iff_toNat_le, UInt64.lt_iff_toNat_lt, hafter]

end Chain

namespace Node

variable {schemes : KeySchemes} {config : NodeConfig} {node node' booted : Node} {done : List Transaction}

/-- Of a live mempool, an event leaves a live one if and only if it clears the nonces it takes. -/
theorem Live.iff_clears {event : Event} (hlive : node.Live done)
    (hcounted : Chain.NoncesCounted booted.chain node.chain done)
    (hfresh : ∀ address, booted.chain.state.getNonce address = 0)
    (hhandled : Handled crypto node event node')
    (hfew : (done ++ node.acceptedIn crypto event).length < 2 ^ 64) :
    node'.Live (done ++ node.acceptedIn crypto event) ↔ node.Clears crypto event := by
  have hstep := hhandled.counted hcounted.settled
  have hafter := (hcounted.trans hstep).toNat_getNonce hfresh hfew
  rw [List.length_append] at hfew
  have hbefore := hcounted.toNat_getNonce hfresh (by omega)
  have htaken : ∀ address nonce, nonce ∈ noncesOf address (node.acceptedIn crypto event) ↔
      node.chain.state.getNonce address ≤ nonce ∧ nonce < node'.chain.state.getNonce address := by
    intro address nonce
    apply hstep.mem_noncesOf_iff
    have hsum := sentBy_append address done (node.acceptedIn crypto event)
    have hbound := (node'.chain.state.getNonce address).toNat_lt
    rw [hafter, hsum] at hbound
    rw [hbefore]
    omega
  have hold : ∀ {mempool : Mempool}, node.Admits mempool → ∀ signature tx,
      mempool.transactions.lookup signature = some tx →
      node.chain.state.getNonce tx.sender ≤ tx.nonce := by
    intro mempool hadmits signature tx hlookup
    rcases hadmits signature tx hlookup with hwas | hadmitted
    · exact (hlive signature tx hwas).1
    · exact hadmitted
  constructor
  · intro hpost signature tx hlookup other hother hsender hnonce
    by_contra hstays
    push Not at hstays
    have hsome : node.acceptedIn crypto event ≠ [] := List.ne_nil_of_mem hother
    have hleft : node'.mempool.transactions.lookup signature = some tx := by
      rw [hhandled.left hsome]
      exact Mempool.lookup_removeTransactions_iff.mpr ⟨hlookup, hstays⟩
    have hmem : tx.nonce ∈ noncesOf tx.sender (node.acceptedIn crypto event) := by
      rw [← hnonce]
      exact List.mem_map_of_mem (List.mem_filter.mpr ⟨hother, decide_eq_true hsender⟩)
    exact absurd ((htaken _ _).mp hmem).2 (UInt64.not_lt.mpr (hpost signature tx hleft).1)
  · intro hclears signature tx hlookup
    have hadmitted := hold hhandled.admits.2 signature tx hlookup
    have hnonce : node'.chain.state.getNonce tx.sender ≤ tx.nonce := by
      by_contra hdead
      have hmem := (htaken tx.sender tx.nonce).mpr ⟨hadmitted, UInt64.not_le.mp hdead⟩
      obtain ⟨other, hfound, hsame⟩ := List.mem_map.mp hmem
      obtain ⟨hother, hsender⟩ := List.mem_filter.mp hfound
      rw [hhandled.left (List.ne_nil_of_mem hother)] at hlookup
      obtain ⟨hpool, hkept⟩ := Mempool.lookup_removeTransactions_iff.mp hlookup
      obtain ⟨removed, hremoved, hsignature⟩ :=
        hclears signature tx hpool other hother (of_decide_eq_true hsender) hsame
      exact hkept removed hremoved hsignature
    refine ⟨hnonce, fun hdone => ?_⟩
    -- whatever is done has a nonce below the count
    have hmem : tx.nonce ∈ noncesOf tx.sender (done ++ node.acceptedIn crypto event) :=
      List.mem_map_of_mem (List.mem_filter.mpr ⟨hdone, decide_eq_true rfl⟩)
    have hbound := (node'.chain.state.getNonce tx.sender).toNat_lt
    rw [hafter] at hbound
    have hall : (booted.chain.state.getNonce tx.sender).toNat +
        sentBy tx.sender (done ++ node.acceptedIn crypto event) < 2 ^ 64 := by
      rw [hfresh]
      simpa using hbound
    exact absurd (((hcounted.trans hstep).mem_noncesOf_iff hall).mp hmem).2 (UInt64.not_lt.mpr hnonce)

/-- The databases that an operation hands blocks to, or restarts on, accept every write. -/
def Operation.Reliable : Operation → Prop
  | .event occurred => occurred.Reliable
  | .restart host => host.Reliable

/-- The transactions of the blocks that a call accepts. -/
def acceptedBy (crypto : Crypto) (call : Call Node Operation (List NetworkCommand)) : List Transaction :=
  match call.label with
  | .event event => call.pre.acceptedIn crypto event
  | .restart _ => []

/-- The transactions of all blocks accepted in a run. -/
def acceptedDuring (crypto : Crypto) (calls : List (Call Node Operation (List NetworkCommand))) :
    List Transaction :=
  calls.flatMap (acceptedBy crypto)

/-- A call clears the nonces it takes; a restart takes none. -/
def ClearsIn (crypto : Crypto) (call : Call Node Operation (List NetworkCommand)) : Prop :=
  match call.label with
  | .event event => call.pre.Clears crypto event
  | .restart _ => True

instance (crypto : Crypto) (call : Call Node Operation (List NetworkCommand)) :
    Decidable (ClearsIn crypto call) :=
  match call with
  | ⟨pre, .event event, _, _⟩ => inferInstanceAs (Decidable (pre.Clears crypto event))
  | ⟨_, .restart _, _, _⟩ => inferInstanceAs (Decidable True)

theorem acceptedDuring_append (calls : List (Call Node Operation (List NetworkCommand)))
    (call : Call Node Operation (List NetworkCommand)) :
    acceptedDuring crypto (calls ++ [call]) = acceptedDuring crypto calls ++ acceptedBy crypto call := by
  simp [acceptedDuring]

/-- A restart on a reliable database counts nothing and empties the mempool. -/
theorem counted_of_restart {host : Host} (hreliable : host.Reliable)
    (hsettled : node.chain.NoncesSettled)
    (h : boot crypto schemes host node.chain.storage config node.claims = some node') :
    Chain.NoncesCounted node.chain node'.chain [] ∧ node'.mempool = .new 1000 := by
  rw [boot_eq] at h
  obtain ⟨chain, hstart, hnode⟩ := Option.bind_eq_some_iff.mp h
  obtain rfl := Option.some.inj hnode
  exact ⟨Chain.noncesCounted_of_start hreliable hsettled hstart, rfl⟩

/-- Nothing in an empty mempool is dead. -/
theorem live_of_new {capacity : ℕ} (h : node.mempool = .new capacity) : node.Live done := by
  intro signature tx hlookup
  rw [h] at hlookup
  contradiction

/-- In every run of events and restarts from a first start, on reliable databases and with fewer than
`2 ^ 64` accepted transactions: the mempool holds live transactions only in every state if and only if every
event clears the nonces it takes. -/
theorem mempool_live_iff {host : Host} {claims : FiniteMap Bytes Int64}
    {calls : List (Call Node Operation (List NetworkCommand))}
    (hhost : host.Reliable) (hboot : boot crypto schemes host .empty config claims = some booted)
    (hrun : Run (operate crypto schemes config) booted calls node)
    (hreliable : ∀ call ∈ calls, call.label.Reliable)
    (hfew : (acceptedDuring crypto calls).length < 2 ^ 64) :
    (∀ before call after, calls = before ++ call :: after →
        call.post.Live (acceptedDuring crypto (before ++ [call]))) ↔
      ∀ call ∈ calls, ClearsIn crypto call := by
  rw [boot_eq] at hboot
  obtain ⟨chain, hstart, hnode⟩ := Option.bind_eq_some_iff.mp hboot
  obtain ⟨trie, hchain⟩ := Chain.start_eq hhost hstart
  have hempty : booted.mempool = .new 1000 := by rw [← Option.some.inj hnode]
  have hsettled : booted.chain.NoncesSettled := by
    rw [← Option.some.inj hnode, hchain]
    exact fun _ => rfl
  have hfresh : ∀ address, booted.chain.state.getNonce address = 0 := by
    intro address
    rw [← Option.some.inj hnode, hchain]
    exact nonce_fundedAccounts Storage.empty.accounts _ address
  suffices hboth : Chain.NoncesCounted booted.chain node.chain (acceptedDuring crypto calls) ∧
      ((∀ before call after, calls = before ++ call :: after →
          call.post.Live (acceptedDuring crypto (before ++ [call]))) ↔
        ∀ call ∈ calls, ClearsIn crypto call) from hboth.2
  clear hnode
  induction hrun with
  | nil =>
    refine ⟨.of_same hsettled fun _ => rfl, iff_of_true (fun before call after hsplit => ?_) (by simp)⟩
    simp at hsplit
  | @snoc calls s s' operation commands hbefore hnext ih =>
    rw [acceptedDuring_append] at hfew ⊢
    obtain ⟨hrestOk, hlastOk⟩ := List.forall_mem_append.mp hreliable
    obtain ⟨hcounted, hlive⟩ := ih hrestOk (by rw [List.length_append] at hfew; omega)
    have hpre : (∀ before call after, calls = before ++ call :: after →
        call.post.Live (acceptedDuring crypto (before ++ [call]))) → s.Live (acceptedDuring crypto calls) := by
      intro hall
      cases hbefore with
      | nil => exact live_of_new hempty
      | snoc => exact hall _ _ [] rfl
    have hlast : Chain.NoncesCounted s.chain s'.chain (acceptedBy crypto ⟨s, operation, commands, s'⟩) ∧
        (s.Live (acceptedDuring crypto calls) →
          (s'.Live (acceptedDuring crypto calls ++ acceptedBy crypto ⟨s, operation, commands, s'⟩) ↔
            ClearsIn crypto ⟨s, operation, commands, s'⟩)) := by
      have hlastOk := hlastOk _ List.mem_cons_self
      cases operation with
      | event event =>
        have hhandled := handled_of_handle hlastOk hnext
        exact ⟨hhandled.counted hcounted.settled,
          fun hs => hs.iff_clears hcounted hfresh hhandled hfew⟩
      | restart host =>
        obtain ⟨restarted, hrestart, heq⟩ := Option.map_eq_some_iff.mp hnext
        obtain ⟨-, rfl⟩ := Prod.mk.inj heq
        obtain ⟨hkept, hemptied⟩ := counted_of_restart hlastOk hcounted.settled hrestart
        exact ⟨hkept, fun _ => iff_of_true (live_of_new hemptied) trivial⟩
    refine ⟨hcounted.trans hlast.1, ?_⟩
    rw [forall_calls_snoc, hlive, List.forall_mem_append, List.forall_mem_singleton,
      acceptedDuring_append]
    exact and_congr_right fun hclears => hlast.2 (hpre (hlive.mpr hclears))

end Node

namespace Sample

/-- A signed transfer to Alice by the first of the initial validators. -/
def payment : Transaction :=
  let sender := generateValidatorKeypair KeySchemes.plain "first"
  Transaction.new Crypto.plain sender alice (.nativeTransfer 10) 0 sender

/-- A block with that transfer, by the same validator. -/
def paymentBlock : Block :=
  Node.produceBlock Crypto.plain ((config none).genesisBlock KeySchemes.plain Crypto.plain) 1
    (generateValidatorKeypair KeySchemes.plain "first") [payment] 0

end Sample

namespace Node

/-- A transfer comes by gossip, then a block with it comes in a batch: the transfer stays in the mempool. -/
theorem synced_transfer_stays :
    ∃ booted calls node, Sample.booted none = some booted ∧
      Run (operate Crypto.plain KeySchemes.plain (Sample.config none)) booted calls node ∧
      calls.map Call.label = [.event (.transaction Sample.payment),
        .event (.blocks [] [(Host.plain, Sample.paymentBlock)])] ∧
      acceptedDuring Crypto.plain calls = [Sample.payment] ∧
      ¬ node.Live (acceptedDuring Crypto.plain calls) := by
  obtain ⟨booted, calls, node, hbooted, hrun, hlabels, hcheck⟩ := Run.exists_of_trace_from
    (operate Crypto.plain KeySchemes.plain (Sample.config none)) (Sample.booted none)
    [.event (.transaction Sample.payment), .event (.blocks [] [(Host.plain, Sample.paymentBlock)])]
    (fun _ calls node => decide (acceptedDuring Crypto.plain calls = [Sample.payment] ∧
      ¬ node.Live (acceptedDuring Crypto.plain calls))) (by decide +kernel)
  exact ⟨booted, calls, node, hbooted, hrun, hlabels, of_decide_eq_true hcheck⟩

/-- The same block by gossip clears the mempool, which stays live, also over a restart. -/
theorem mempool_live_after_gossip :
    ∃ booted calls node, Sample.booted none = some booted ∧
      Run (operate Crypto.plain KeySchemes.plain (Sample.config none)) booted calls node ∧
      calls.map Call.label = [.event (.transaction Sample.payment),
        .event (.block Host.plain Sample.paymentBlock), .restart Host.plain] ∧
      acceptedDuring Crypto.plain calls = [Sample.payment] ∧
      ∀ before call after, calls = before ++ call :: after →
        call.post.Live (acceptedDuring Crypto.plain (before ++ [call])) := by
  obtain ⟨booted, calls, node, hbooted, hrun, hlabels, hcheck⟩ := Run.exists_of_trace_from
    (operate Crypto.plain KeySchemes.plain (Sample.config none)) (Sample.booted none)
    [.event (.transaction Sample.payment), .event (.block Host.plain Sample.paymentBlock),
      .restart Host.plain]
    (fun _ calls node => decide (acceptedDuring Crypto.plain calls = [Sample.payment] ∧
      ∀ call ∈ calls, ClearsIn Crypto.plain call)) (by decide +kernel)
  obtain ⟨haccepted, hclears⟩ := of_decide_eq_true hcheck
  have hreliable : ∀ call ∈ calls, call.label.Reliable := by
    intro call hcall
    have hlabel := hlabels ▸ List.mem_map_of_mem (f := Call.label) hcall
    simp only [List.mem_cons, List.not_mem_nil, or_false] at hlabel
    rcases hlabel with hlabel | hlabel | hlabel <;> rw [hlabel]
    · trivial
    · exact Host.plain_reliable
    · exact Host.plain_reliable
  have hlive := (mempool_live_iff Host.plain_reliable hbooted hrun hreliable
    (by rw [haccepted]; decide)).mpr hclears
  exact ⟨booted, calls, node, hbooted, hrun, hlabels, haccepted, hlive⟩

end Node

end Nocostcoin
