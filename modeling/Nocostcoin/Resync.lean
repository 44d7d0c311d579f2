import Nocostcoin.Library.Execution
import Nocostcoin.Node
import Nocostcoin.Sync

/-!
# Syncing again

`should_sync` follows the highest peer while the manager is idle. A completed sync leaves the manager
synced for good: only a start or a failure of another sync ends that.
-/

namespace Nocostcoin

open Execution

namespace SyncManager

variable {crypto : Crypto} {host : Host} {manager manager' : SyncManager} {ourHeight : UInt64}

/-- A known peer is higher. -/
def Behind (manager : SyncManager) (ourHeight : UInt64) : Prop :=
  ∃ peer entry, manager.peers.lookup peer = some entry ∧ ourHeight < entry.height

/-- A known peer that no known peer exceeds. -/
def Highest (manager : SyncManager) (peer : Bytes) (height : UInt64) : Prop :=
  (∃ entry, manager.peers.lookup peer = some entry ∧ entry.height = height) ∧
    ∀ other entry, manager.peers.lookup other = some entry → entry.height ≤ height

/-- A node that is behind is told to follow a highest peer, and no other node is. -/
structure FollowsHighest (host : Host) (manager : SyncManager) (ourHeight : UInt64) : Prop where
  behind : manager.Behind ourHeight →
    ∃ peer height, manager.shouldSync host ourHeight = some (peer, height) ∧ manager.Highest peer height
  level : ¬ manager.Behind ourHeight → manager.shouldSync host ourHeight = none

/-- The greatest of the entries is one of them and none exceeds it. -/
theorem maxByHeight_eq_some {entries : List (Bytes × PeerState)} {greatest : Bytes × PeerState}
    (h : maxByHeight entries = some greatest) :
    greatest ∈ entries ∧ ∀ entry ∈ entries, entry.2.height ≤ greatest.2.height := by
  have hmem : greatest ∈ entries.reverse.argmax fun entry => entry.2.height.toNat := h
  refine ⟨List.mem_reverse.mp (List.argmax_mem hmem), fun entry hentry => ?_⟩
  exact List.le_of_mem_argmax (List.mem_reverse.mpr hentry) hmem

/-- There is no greatest entry exactly if there is none. -/
theorem maxByHeight_eq_none {entries : List (Bytes × PeerState)} :
    maxByHeight entries = none ↔ entries = [] := by
  unfold maxByHeight
  rw [List.argmax_eq_none, List.reverse_eq_nil_iff]

/-- While idle the manager follows the highest peer. -/
theorem followsHighest_of_idle (hidle : manager.state = .idle) :
    FollowsHighest host manager ourHeight := by
  have hvalue : manager.shouldSync host ourHeight =
      (maxByHeight ((host.walk manager.peers).filter fun entry => ourHeight < entry.2.height)).map
        fun entry => (entry.1, entry.2.height) :=
    if_neg (not_not.mpr hidle)
  have hmem : ∀ peer entry, (peer, entry) ∈ (host.walk manager.peers).filter
      (fun entry => ourHeight < entry.2.height) ↔
        manager.peers.lookup peer = some entry ∧ ourHeight < entry.height := by
    intro peer entry
    rw [List.mem_filter, Host.mem_walk, decide_eq_true_eq]
  constructor
  · rintro ⟨higher, info, hknown, habove⟩
    cases hmax : maxByHeight ((host.walk manager.peers).filter
        fun entry => ourHeight < entry.2.height) with
    | none =>
      have hentry := (hmem higher info).mpr ⟨hknown, habove⟩
      rw [maxByHeight_eq_none.mp hmax] at hentry
      exact absurd hentry List.not_mem_nil
    | some greatest =>
      obtain ⟨peer, entry⟩ := greatest
      obtain ⟨hfound, hgreatest⟩ := maxByHeight_eq_some hmax
      obtain ⟨hpeer, hpeerAbove⟩ := (hmem peer entry).mp hfound
      refine ⟨peer, entry.height, by rw [hvalue, hmax, Option.map_some], ⟨entry, hpeer, rfl⟩,
        fun other state hother => ?_⟩
      by_cases hlow : ourHeight < state.height
      · exact hgreatest (other, state) ((hmem other state).mpr ⟨hother, hlow⟩)
      · exact UInt64.le_trans (UInt64.not_lt.mp hlow) (UInt64.le_of_lt hpeerAbove)
  · intro hlevel
    rw [hvalue, maxByHeight_eq_none.mpr, Option.map_none]
    rw [List.eq_nil_iff_forall_not_mem]
    rintro ⟨peer, entry⟩ hentry
    exact hlevel ⟨peer, entry, (hmem peer entry).mp hentry⟩

/-- Once synced the manager follows nobody, which is right only for a node that is not behind. -/
theorem followsHighest_of_synced (hsynced : manager.state = .synced) :
    FollowsHighest host manager ourHeight ↔ ¬ manager.Behind ourHeight := by
  have hnone : manager.shouldSync host ourHeight = none := if_pos (by simp [hsynced])
  constructor
  · rintro hfollows hbehind
    obtain ⟨peer, height, hsome, -⟩ := hfollows.behind hbehind
    rw [hnone] at hsome
    contradiction
  · exact fun hlevel => ⟨fun hbehind => absurd hbehind hlevel, fun _ => hnone⟩

/-- A batch that adds a block and brings the chain to the target of the sync. -/
def Reaches (crypto : Crypto) (manager : SyncManager) (blocks : List (Host × Block)) (chain : Chain) :
    Prop :=
  ∃ peer targetHeight addedCount chain' currentHeight, manager.state = .syncing peer targetHeight ∧
    addBlocks crypto 0 chain blocks = some (.ok addedCount, chain') ∧ 0 < addedCount ∧
    chain'.getHeight = some currentHeight ∧ targetHeight ≤ currentHeight

/-- A batch of blocks completes the sync by reaching its target, and else leaves its state alone. -/
theorem state_processBlocks {blocks : List (Host × Block)} {chain chain' : Chain}
    {result : Except String Unit}
    (h : manager.processBlocks crypto blocks chain = some (result, manager', chain')) :
    (Reaches crypto manager blocks chain ∧ manager'.state = .synced) ∨
      ¬ Reaches crypto manager blocks chain ∧ manager'.state = manager.state := by
  unfold processBlocks at h
  split at h
  · contradiction
  · rename_i error failed hadd
    obtain ⟨-, hrest⟩ := Prod.mk.inj (Option.some.inj h)
    obtain ⟨rfl, -⟩ := Prod.mk.inj hrest
    refine .inr ⟨?_, rfl⟩
    rintro ⟨peer, targetHeight, addedCount, added, currentHeight, -, hok, -⟩
    simp [hadd] at hok
  · rename_i addedCount added hadd
    obtain ⟨after, hcheck, hanswer⟩ := Option.map_eq_some_iff.mp h
    obtain ⟨-, hrest⟩ := Prod.mk.inj hanswer
    obtain ⟨rfl, -⟩ := Prod.mk.inj hrest
    have hunique : Reaches crypto manager blocks chain ↔ ∃ peer targetHeight currentHeight,
        manager.state = .syncing peer targetHeight ∧ 0 < addedCount ∧
          added.getHeight = some currentHeight ∧ targetHeight ≤ currentHeight := by
      unfold Reaches
      rw [hadd]
      constructor
      · rintro ⟨peer, targetHeight, count, chain₁, currentHeight, hstate, hok, hpos, hheight, hle⟩
        obtain ⟨hcount, rfl⟩ := Prod.mk.inj (Option.some.inj hok)
        obtain rfl := Except.ok.inj hcount
        exact ⟨peer, targetHeight, currentHeight, hstate, hpos, hheight, hle⟩
      · rintro ⟨peer, targetHeight, currentHeight, hstate, hpos, hheight, hle⟩
        exact ⟨peer, targetHeight, addedCount, added, currentHeight, hstate, rfl, hpos, hheight, hle⟩
    rw [hunique]
    by_cases hpos : 0 < addedCount
    · cases hstate : manager.state with
      | syncing peer targetHeight =>
        obtain ⟨height, hheight, hafter⟩ := checkTarget_of_pos hstate hpos hcheck
        by_cases hreached : targetHeight ≤ height
        · rw [if_pos hreached] at hafter
          exact .inl ⟨⟨peer, targetHeight, height, rfl, hpos, hheight, hreached⟩, hafter⟩
        · rw [if_neg hreached] at hafter
          refine .inr ⟨?_, hafter⟩
          rintro ⟨peer', targetHeight', height', hsame, -, hheight', hle⟩
          obtain ⟨-, rfl⟩ := SyncState.syncing.inj hsame
          obtain rfl := Option.some.inj (hheight.symm.trans hheight')
          exact hreached hle
      | idle | synced =>
        rw [checkTarget, if_pos hpos, hstate] at hcheck
        refine .inr ⟨?_, ?_⟩
        · rintro ⟨peer, targetHeight, height, hsame, -⟩
          contradiction
        · rw [← Option.some.inj hcheck, hstate]
    · rw [checkTarget, if_neg hpos] at hcheck
      refine .inr ⟨?_, ?_⟩
      · rintro ⟨peer, targetHeight, height, -, hadded, -⟩
        exact hpos hadded
      · rw [← Option.some.inj hcheck]

/-- The calls that change a manager. The blocks come with the chain that they are added to. -/
inductive Operation where
  | updatePeerInfo (peer : Bytes) (height : UInt64)
  | updatePeerMetadata (peer : Bytes) (address protocol : Option String)
  | startSync (peer : Bytes) (targetHeight : UInt64)
  | processBlocks (blocks : List (Host × Block)) (chain : Chain)
  | completeSync
  | failSync (reason : String)

/-- Perform a call. -/
def operate (crypto : Crypto) (manager : SyncManager) : Operation → Option (Except String Unit × SyncManager)
  | .updatePeerInfo peer height => some (.ok (), manager.updatePeerInfo peer height)
  | .updatePeerMetadata peer address protocol =>
      some (.ok (), manager.updatePeerMetadata peer address protocol)
  | .startSync peer targetHeight => some (.ok (), manager.startSync peer targetHeight)
  | .processBlocks blocks chain =>
      (manager.processBlocks crypto blocks chain).map fun (result, manager, _) => (result, manager)
  | .completeSync => some (.ok (), manager.completeSync)
  | .failSync reason => some (.ok (), manager.failSync reason)

/-- The calls that complete a sync: `complete_sync`, and a batch that reaches the target. -/
def Completes (crypto : Crypto) (call : Call SyncManager Operation (Except String Unit)) : Prop :=
  match call.label with
  | .completeSync => True
  | .processBlocks blocks chain => Reaches crypto call.pre blocks chain
  | _ => False

/-- The calls that start a sync or end it as failed. -/
def Restarts (call : Call SyncManager Operation (Except String Unit)) : Prop :=
  match call.label with
  | .startSync _ _ | .failSync _ => True
  | _ => False

/-- A call leaves the manager synced if it completes a sync, or found it synced and restarts none. -/
theorem synced_operate {operation : Operation} {result : Except String Unit}
    (hcall : operate crypto manager operation = some (result, manager')) :
    manager'.state = .synced ↔
      Completes crypto ⟨manager, operation, result, manager'⟩ ∨
        manager.state = .synced ∧ ¬ Restarts ⟨manager, operation, result, manager'⟩ := by
  unfold Completes Restarts
  cases operation with
  | updatePeerInfo peer height =>
    obtain ⟨-, rfl⟩ := Prod.mk.inj (Option.some.inj hcall)
    simp [updatePeerInfo]
  | updatePeerMetadata peer address protocol =>
    obtain ⟨-, rfl⟩ := Prod.mk.inj (Option.some.inj hcall)
    simp [updatePeerMetadata]
  | startSync peer targetHeight =>
    obtain ⟨-, rfl⟩ := Prod.mk.inj (Option.some.inj hcall)
    simp [startSync, send]
  | completeSync =>
    obtain ⟨-, rfl⟩ := Prod.mk.inj (Option.some.inj hcall)
    simp [completeSync, send]
  | failSync reason =>
    obtain ⟨-, rfl⟩ := Prod.mk.inj (Option.some.inj hcall)
    simp [failSync, send]
  | processBlocks blocks chain =>
    obtain ⟨⟨processed, after, chain'⟩, hprocess, hanswer⟩ := Option.map_eq_some_iff.mp hcall
    obtain ⟨rfl, rfl⟩ := Prod.mk.inj hanswer
    rcases state_processBlocks hprocess with ⟨hreaches, hsynced⟩ | ⟨hshort, hstate⟩
    · simp [hreaches, hsynced]
    · simp [hshort, hstate]

variable {calls : List (Call SyncManager Operation (Except String Unit))}

/-- A manager is synced exactly if a call completed a sync and no later one restarted. -/
theorem synced_iff_standing (hrun : Run (operate crypto) .new calls manager) :
    manager.state = .synced ↔ Standing (Completes crypto) Restarts calls :=
  hrun.holds_iff_standing (fun manager => manager.state = .synced) (Completes crypto) Restarts
    (by simp [new]) fun _ _ _ _ hcall => synced_operate hcall

/-- In every run that does not leave the manager syncing, it follows a highest peer exactly if no
completed sync stands, or the node is not behind. -/
theorem followsHighest_iff_not_standing (hrun : Run (operate crypto) .new calls manager)
    (hidle : manager.isSyncing = false) (host : Host) (ourHeight : UInt64) :
    FollowsHighest host manager ourHeight ↔
      ¬ Standing (Completes crypto) Restarts calls ∨ ¬ manager.Behind ourHeight := by
  rw [← synced_iff_standing hrun]
  unfold isSyncing at hidle
  cases hstate : manager.state with
  | idle => exact iff_of_true (followsHighest_of_idle hstate) (.inl (by simp))
  | synced =>
    rw [followsHighest_of_synced hstate]
    simp
  | syncing peer targetHeight =>
    rw [hstate] at hidle
    contradiction

/-- A peer is synced with up to height ten and then announces twenty. -/
def syncThenAnnounce : List Operation :=
  [.updatePeerInfo Sample.bob 10, .startSync Sample.bob 10, .completeSync,
    .updatePeerInfo Sample.bob 20]

/-- The node that is ten behind is told to follow nobody. -/
theorem not_followsHighest_of_syncThenAnnounce :
    ∃ calls manager, Run (operate Crypto.plain) .new calls manager ∧
      calls.map Call.label = syncThenAnnounce ∧ manager.isSyncing = false ∧
      ¬ FollowsHighest Host.plain manager 10 := by
  obtain ⟨calls, manager, hrun, hlabels, hcheck⟩ := Run.exists_of_trace (operate Crypto.plain) .new
    syncThenAnnounce (fun _ manager => decide (manager.isSyncing = false ∧
      manager.shouldSync Host.plain 10 = none ∧
      (manager.peers.lookup Sample.bob).map PeerState.height = some 20)) (by decide +kernel)
  obtain ⟨hidle, hnone, hheight⟩ := of_decide_eq_true hcheck
  refine ⟨calls, manager, hrun, hlabels, hidle, fun hfollows => ?_⟩
  obtain ⟨entry, hentry, hhigher⟩ := Option.map_eq_some_iff.mp hheight
  obtain ⟨peer, height, hsome, -⟩ := hfollows.behind ⟨Sample.bob, entry, hentry, by simp [hhigher]⟩
  rw [hnone] at hsome
  contradiction

/-- After the next start and failure the manager follows the peer again. -/
theorem followsHighest_iff_not_standing_after_failure :
    ∃ calls manager, Run (operate Crypto.plain) .new calls manager ∧
      calls.map Call.label = syncThenAnnounce ++ [.startSync Sample.bob 20, .failSync "Stalled"] ∧
      manager.isSyncing = false ∧ FollowsHighest Host.plain manager 10 := by
  obtain ⟨calls, manager, hrun, hlabels, hcheck⟩ := Run.exists_of_trace (operate Crypto.plain) .new
    (syncThenAnnounce ++ [.startSync Sample.bob 20, .failSync "Stalled"])
    (fun _ manager => decide (manager.isSyncing = false ∧ manager.state ≠ .synced)) (by decide +kernel)
  obtain ⟨hidle, hstate⟩ := of_decide_eq_true hcheck
  refine ⟨calls, manager, hrun, hlabels, hidle, ?_⟩
  exact (followsHighest_iff_not_standing hrun hidle Host.plain 10).mpr
    (.inl (mt (synced_iff_standing hrun).mpr hstate))

end SyncManager

end Nocostcoin
