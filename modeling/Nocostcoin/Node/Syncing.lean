import Nocostcoin.Chain.Acceptance
import Nocostcoin.Node.Step

/-!
# When a sync goes on

`process_blocks` looks at the target only when it added a block, and the loop acts only below the
target. So a batch without any new block, met at the target, neither ends the sync nor asks for more;
and nothing else in the loop does either.
-/

namespace Nocostcoin

open Execution

variable {crypto : Crypto}

namespace SyncManager

/-- Every block of a message is refused although it is stored: the chain before and after. -/
inductive AllKnown (crypto : Crypto) : Chain → List (Host × Block) → Chain → Prop
  | nil {chain : Chain} : AllKnown crypto chain [] chain
  | cons {chain next chain' : Chain} {host : Host} {block : Block} {rest : List (Host × Block)}
      (hrefused : chain.addBlock crypto host block = some (false, next))
      (hstored : (next.getBlock block.hash).isSome) (hrest : AllKnown crypto next rest chain') :
      AllKnown crypto chain ((host, block) :: rest) chain'

/-- The loop of `process_blocks` counts upwards. -/
theorem le_of_addBlocks {blocks : List (Host × Block)} {chain chain' : Chain} {before after : ℕ}
    (h : addBlocks crypto before chain blocks = some (.ok after, chain')) : before ≤ after := by
  induction blocks generalizing chain before with
  | nil =>
    obtain ⟨hcount, -⟩ := Prod.mk.inj (Option.some.inj h)
    exact (Except.ok.inj hcount).le
  | cons entry rest ih =>
    obtain ⟨host, block⟩ := entry
    rw [addBlocks] at h
    split at h
    · contradiction
    · exact (Nat.le_succ before).trans (ih h)
    · split at h
      · exact ih h
      · simp at h

/-- The loop ends without having added a block exactly when it knew them all. -/
theorem addBlocks_none_added_iff {blocks : List (Host × Block)} {chain chain' : Chain} {count : ℕ} :
    addBlocks crypto count chain blocks = some (.ok count, chain') ↔
      AllKnown crypto chain blocks chain' := by
  constructor
  · intro h
    induction blocks generalizing chain with
    | nil =>
      obtain ⟨-, rfl⟩ := Prod.mk.inj (Option.some.inj h)
      exact .nil
    | cons entry rest ih =>
      obtain ⟨host, block⟩ := entry
      rw [addBlocks] at h
      split at h
      · contradiction
      · exact absurd (le_of_addBlocks h) (Nat.not_succ_le_self count)
      · rename_i next hrefused
        split at h
        · rename_i hstored
          exact .cons hrefused hstored (ih h)
        · simp at h
  · intro h
    induction h with
    | nil => rfl
    | cons hrefused hstored _ ih =>
      rw [addBlocks, hrefused]
      dsimp only
      rw [if_pos hstored, ih]

/-- On reliable databases a message of known blocks leaves head and stored blocks alone. -/
theorem AllKnown.keeps {chain chain' : Chain} {blocks : List (Host × Block)}
    (h : AllKnown crypto chain blocks chain') (hreliable : ∀ entry ∈ blocks, entry.1.Reliable) :
    chain'.head = chain.head ∧ chain'.storage.blocks = chain.storage.blocks := by
  induction h with
  | nil => exact ⟨rfl, rfl⟩
  | cons hrefused _ _ ih =>
    have hdelivery := Chain.delivery_of_addBlock hrefused
    obtain ⟨hhead, hblocks⟩ := ih fun entry hentry => hreliable entry (List.mem_cons_of_mem _ hentry)
    rcases Chain.acceptance_or_rejection (hreliable _ List.mem_cons_self) hdelivery with
      ⟨haccepted, -⟩ | ⟨-, -, hrejection⟩
    · exact absurd haccepted (by simp)
    · exact ⟨hhead.trans hrejection.head, hblocks.trans hrejection.blocks⟩

/-- On reliable databases the height is as before. -/
theorem AllKnown.getHeight {chain chain' : Chain} {blocks : List (Host × Block)}
    (h : AllKnown crypto chain blocks chain') (hreliable : ∀ entry ∈ blocks, entry.1.Reliable) :
    chain'.getHeight = chain.getHeight := by
  obtain ⟨hhead, hblocks⟩ := h.keeps hreliable
  unfold Chain.getHeight Chain.getHead Storage.getBlock
  rw [hhead, hblocks]

/-- A state outside a sync. -/
theorem isSyncing_eq_false {manager : SyncManager}
    (h : ∀ peer target, manager.state ≠ .syncing peer target) : manager.isSyncing = false := by
  unfold isSyncing
  split
  · rename_i peer target hstate
    exact absurd hstate (h peer target)
  · rfl

end SyncManager

namespace Node

variable {node node' : Node} {commands : List NetworkCommand} {blocks : List (Host × Block)}
  {peer : Bytes} {target : UInt64}

/-- The sync is over, or its peer was asked for blocks. -/
def Moves (peer : Bytes) (commands : List NetworkCommand) (node : Node) : Prop :=
  node.syncManager.isSyncing = false ∨
    ∃ startHash limit, NetworkCommand.requestBlocks peer startHash limit ∈ commands

/-- A message of blocks that are all known, met at the target. -/
def Stalls (crypto : Crypto) (chain : Chain) (target : UInt64) (blocks : List (Host × Block)) : Prop :=
  ∃ chain' height, SyncManager.AllKnown crypto chain blocks chain' ∧
    chain'.getHeight = some height ∧ target ≤ height

/-- Below the target the loop acts, at the target it does nothing. -/
theorem continueSync_moves_iff {received : Bool}
    (hstate : node.syncManager.state = .syncing peer target)
    (h : node.continueSync received = some (commands, node')) :
    ∃ height, node.chain.getHeight = some height ∧ (Moves peer commands node' ↔ height < target) := by
  rw [continueSync, hstate] at h
  obtain ⟨height, hheight, hact⟩ := Option.bind_eq_some_iff.mp h
  refine ⟨height, hheight, ?_⟩
  by_cases hbelow : height < target
  · rw [if_pos hbelow] at hact
    refine iff_of_true ?_ hbelow
    cases received with
    | true =>
      obtain ⟨rfl, -⟩ := Prod.mk.inj (Option.some.inj hact)
      exact .inr ⟨_, _, List.mem_singleton_self _⟩
    | false =>
      obtain ⟨-, rfl⟩ := Prod.mk.inj (Option.some.inj hact)
      exact .inl rfl
  · rw [if_neg hbelow] at hact
    obtain ⟨rfl, rfl⟩ := Prod.mk.inj (Option.some.inj hact)
    refine iff_of_false ?_ hbelow
    rintro (hover | ⟨_, _, hmem⟩)
    · simp [SyncManager.isSyncing, hstate] at hover
    · simp at hmem

/-- Outside a sync nothing is sent and nothing changes. -/
theorem continueSync_of_idle {received : Bool}
    (hstate : ∀ peer target, node.syncManager.state ≠ .syncing peer target) :
    node.continueSync received = some ([], node) := by
  unfold continueSync
  split
  · rename_i peer target hsyncing
    exact absurd hsyncing (hstate peer target)
  · rfl

/-- A message stalls exactly when no block was added and the height is at the target. -/
theorem stalls_iff {chain : Chain} :
    Stalls crypto chain target blocks ↔
      ∃ chain' height, SyncManager.addBlocks crypto 0 chain blocks = some (.ok 0, chain') ∧
        chain'.getHeight = some height ∧ target ≤ height := by
  unfold Stalls
  simp only [SyncManager.addBlocks_none_added_iff]

/-- A message of blocks moves the sync on unless it stalls. -/
theorem handleBlocks_moves_iff (hstate : node.syncManager.state = .syncing peer target)
    (h : node.handleBlocks crypto blocks = some (commands, node')) :
    Moves peer commands node' ↔ ¬ Stalls crypto node.chain target blocks := by
  rw [stalls_iff]
  rcases handleBlocks_cases h with ⟨error, chain', hadded, -, rfl⟩ |
    ⟨count, chain', syncManager, hadded, hmanager, hcontinue⟩
  · rw [hadded]
    exact iff_of_true (.inl rfl) (by simp)
  rw [hadded]
  rcases Nat.eq_zero_or_pos count with rfl | hpos
  · -- no block was added: the loop alone decides
    obtain rfl := Option.some.inj hmanager
    obtain ⟨height, hheight, hmoves⟩ := continueSync_moves_iff (by exact hstate) hcontinue
    have hheight' : chain'.getHeight = some height := hheight
    rw [hmoves, ← UInt64.not_le]
    simp [hheight']
  · -- a block was added: the manager looked at the target first
    refine iff_of_true ?_ (by simp [hpos.ne'])
    obtain ⟨height, hheight, hafter⟩ := SyncManager.checkTarget_of_pos hstate hpos hmanager
    by_cases hreached : target ≤ height
    · rw [if_pos hreached] at hafter
      have hidle : ∀ peer target, syncManager.state ≠ .syncing peer target := by simp [hafter]
      rw [continueSync_of_idle hidle] at hcontinue
      obtain ⟨-, rfl⟩ := Prod.mk.inj (Option.some.inj hcontinue)
      exact .inl (SyncManager.isSyncing_eq_false hidle)
    · rw [if_neg hreached] at hafter
      obtain ⟨height', hheight', hmoves⟩ := continueSync_moves_iff hafter hcontinue
      obtain rfl := Option.some.inj (hheight.symm.trans hheight')
      exact hmoves.mpr (UInt64.not_le.mp hreached)

/-- No message of blocks. -/
def NoBlocks (event : Event) : Prop := ∀ sender blocks, event ≠ .blocks sender blocks

/-- While syncing no other event than a message of blocks ends the sync or asks for blocks. -/
theorem syncing_of_handle {event : Event} (hstate : node.syncManager.state = .syncing peer target)
    (hother : NoBlocks event)
    (h : node.handle crypto event = some (commands, node')) :
    node'.syncManager.state = .syncing peer target ∧ Quiet commands := by
  by_cases hsync : event.OfSync
  · cases event with
    | blocks sender blocks => exact absurd rfl (hother sender blocks)
    | chainInfo host peerId height headHash =>
      obtain ⟨ourHeight, -, hact⟩ := Option.bind_eq_some_iff.mp h
      have hnone : (node.syncManager.updatePeerInfo peerId height).shouldSync host ourHeight = none :=
        if_pos (by simp [SyncManager.updatePeerInfo, hstate])
      rw [hnone] at hact
      obtain ⟨rfl, rfl⟩ := Prod.mk.inj (Option.some.inj hact)
      exact ⟨hstate, quiet_nil⟩
    | peerIdentified peerId protocol address =>
      obtain ⟨rfl, rfl⟩ := Prod.mk.inj (Option.some.inj h)
      exact ⟨hstate, quiet_nil⟩
    | _ => contradiction
  · have hlocal := local_of_handle hsync h
    rw [hlocal.changes.syncManager]
    exact ⟨hstate, hlocal.quiet⟩

variable {start last : Node} {calls : List (Call Node Event (List NetworkCommand))}

/-- So a sync with nothing in flight stays, asks for no block and lets no slot produce one: in every run
without a message of blocks. -/
theorem syncing_of_run (hrun : Run (handle crypto) start calls last)
    (hstate : start.syncManager.state = .syncing peer target)
    (hother : ∀ call ∈ calls, NoBlocks call.label) :
    last.syncManager.state = .syncing peer target ∧
      ∀ call ∈ calls, Quiet call.output ∧
        ∀ host tick, call.label = .slot host tick → call.output = [] ∧ call.post = call.pre := by
  let Syncing (node : Node) : Prop := node.syncManager.state = .syncing peer target
  let Admits (_ : Node) (event : Event) : Prop := NoBlocks event
  have hstep : ∀ node event commands node', Syncing node → Admits node event →
      handle crypto node event = some (commands, node') → Syncing node' :=
    fun node event commands node' hsyncing hevent h => (syncing_of_handle hsyncing hevent h).1
  refine ⟨hrun.invariant Syncing Admits hstate hstep hother, fun call hcall => ?_⟩
  have hbefore : Syncing call.pre :=
    (hrun.invariant_of_mem Syncing Admits hstate hstep hother hcall).1
  have hnext := hrun.next_of_mem hcall
  refine ⟨(syncing_of_handle hbefore (hother call hcall) hnext).2, fun host tick hlabel => ?_⟩
  have hsyncing : call.pre.syncManager.isSyncing = true := by
    rw [SyncManager.isSyncing, hbefore]
  rw [hlabel, handle, handleSlot, if_neg (by simp [hsyncing])] at hnext
  obtain ⟨houtput, hpost⟩ := Prod.mk.inj (Option.some.inj hnext)
  exact ⟨houtput.symm, hpost.symm⟩

/-- In every run of a node, every message of blocks met while syncing ends the sync or leads to a request
to its peer exactly when the message does not stall. -/
theorem sync_moves_iff (hrun : Run (handle crypto) start calls last) :
    ∀ call ∈ calls, ∀ sender blocks peer target, call.label = .blocks sender blocks →
      call.pre.syncManager.state = .syncing peer target →
        (Moves peer call.output call.post ↔ ¬ Stalls crypto call.pre.chain target blocks) := by
  intro call hcall sender blocks peer target hlabel hstate
  have hnext := hrun.next_of_mem hcall
  rw [hlabel] at hnext
  exact handleBlocks_moves_iff hstate hnext

/-- A peer at height one is followed, and a block of that height comes by gossip or not. -/
def followPeer (gossip : List Event) : List Event :=
  .chainInfo Host.plain Sample.bob 1 (Sample.block Sample.genesis 1 []).hash :: gossip

/-- Gossip brings the peer's block before its answer, an empty one: the node does nothing, and goes on
syncing. -/
theorem sync_hangs :
    ∃ opened calls call last, Sample.node = some opened ∧
      Run (handle Crypto.plain) opened (calls ++ [call]) last ∧
      calls.map Call.label = followPeer [.block Host.plain (Sample.block Sample.genesis 1 [])] ∧
      call.label = .blocks Sample.bob [] ∧ call.pre.syncManager.state = .syncing Sample.bob 1 ∧
      ¬ Moves Sample.bob call.output call.post := by
  obtain ⟨opened, calls, call, last, hstart, hrun, hlabels, hlabel, hcheck⟩ :=
    Run.exists_last_of_trace_from (handle Crypto.plain) Sample.node
      (followPeer [.block Host.plain (Sample.block Sample.genesis 1 [])]) (.blocks Sample.bob [])
      (fun call => decide (call.pre.syncManager.state = .syncing Sample.bob 1 ∧
        call.post.syncManager.isSyncing = true ∧ call.output.isEmpty = true)) (by decide +kernel)
  obtain ⟨hstate, hsyncing, hsilent⟩ := of_decide_eq_true hcheck
  refine ⟨opened, calls, call, last, hstart, hrun, hlabels, hlabel, hstate, ?_⟩
  rintro (hover | ⟨startHash, limit, hmem⟩)
  · simp [hsyncing] at hover
  · rw [List.isEmpty_iff.mp hsilent] at hmem
    exact List.not_mem_nil hmem

/-- Without the gossip the same answer moves the sync on. -/
theorem sync_moves_below_target :
    ∃ opened calls call last, Sample.node = some opened ∧
      Run (handle Crypto.plain) opened (calls ++ [call]) last ∧
      calls.map Call.label = followPeer [] ∧ call.label = .blocks Sample.bob [] ∧
      (Moves Sample.bob call.output call.post ↔ ¬ Stalls Crypto.plain call.pre.chain 1 []) := by
  obtain ⟨opened, calls, call, last, hstart, hrun, hlabels, hlabel, hcheck⟩ :=
    Run.exists_last_of_trace_from (handle Crypto.plain) Sample.node (followPeer [])
      (.blocks Sample.bob []) (fun call =>
        decide (call.pre.syncManager.state = .syncing Sample.bob 1)) (by decide +kernel)
  exact ⟨opened, calls, call, last, hstart, hrun, hlabels, hlabel,
    sync_moves_iff hrun call (List.mem_append_right _ (List.mem_singleton_self call)) Sample.bob []
      Sample.bob 1 hlabel (of_decide_eq_true hcheck)⟩

/-- On reliable databases the height that counts is the one before the message. -/
theorem stalls_iff_of_reliable {chain : Chain} (hreliable : ∀ entry ∈ blocks, entry.1.Reliable) :
    Stalls crypto chain target blocks ↔
      (∃ chain', SyncManager.AllKnown crypto chain blocks chain') ∧
        ∃ height, chain.getHeight = some height ∧ target ≤ height := by
  constructor
  · rintro ⟨chain', height, hall, hheight, htarget⟩
    exact ⟨⟨chain', hall⟩, height, (hall.getHeight hreliable).symm.trans hheight, htarget⟩
  · rintro ⟨⟨chain', hall⟩, height, hheight, htarget⟩
    exact ⟨chain', height, hall, (hall.getHeight hreliable).trans hheight, htarget⟩

end Node

end Nocostcoin
