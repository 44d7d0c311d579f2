import Nocostcoin.Node.Intake
import Nocostcoin.Provenance

/-!
# The registries over a run of a node

Between two restarts the records of the registries go their steps, each by a valid transaction that reached
the node or was made by it. This is so for blocks that are rejected as well as for accepted ones.
-/

namespace Nocostcoin

open Execution

namespace Node

variable {crypto : Crypto} {schemes : KeySchemes} {config : NodeConfig} {host : Host} {storage : Storage}
  {claims : FiniteMap Bytes Int64} {booted mid node node' : Node} {event : Event}
  {commands : List NetworkCommand} {tx : Transaction}
  {calls before after : List (Call Node Event (List NetworkCommand))}

/-- The transactions of a run, one call at a time. -/
theorem mem_occurringIn_iff : tx ∈ occurringIn crypto calls ↔ ∃ call ∈ calls,
    tx ∈ call.label.transactions ∧ tx.validate crypto = .ok () ∨ .broadcastTransaction tx ∈ call.output := by
  unfold occurringIn
  simp only [List.mem_flatMap, List.mem_append, List.mem_filter, mem_broadcasts_iff, decide_eq_true_eq]

/-- A longer run has more transactions. -/
theorem mem_occurringIn_append (h : tx ∈ occurringIn crypto before)
    (after : List (Call Node Event (List NetworkCommand))) : tx ∈ occurringIn crypto (before ++ after) := by
  obtain ⟨call, hcall, horigin⟩ := mem_occurringIn_iff.mp h
  exact mem_occurringIn_iff.mpr ⟨call, List.mem_append_left after hcall, horigin⟩

/-- The blocks of an event bring its transactions. -/
theorem mem_transactions_of_brings {block : Block} (hbrings : block ∈ event.brings)
    (htx : tx ∈ block.transactions) : tx ∈ event.transactions := by
  cases event with
  | block host delivered =>
    obtain rfl := List.mem_singleton.mp hbrings
    exact htx
  | blocks sender entries =>
    obtain ⟨entry, hentry, rfl⟩ := List.mem_map.mp hbrings
    exact List.mem_flatMap.mpr ⟨entry, hentry, htx⟩
  | _ => exact absurd hbrings List.not_mem_nil

/-- What the mempool holds occurred before. -/
def Sourced (crypto : Crypto) (calls : List (Call Node Event (List NetworkCommand))) (node : Node) : Prop :=
  ∀ signature tx, node.mempool.transactions.lookup signature = some tx → tx ∈ occurringIn crypto calls

/-- An event keeps that so, and advances the ledger by what occurred. -/
theorem sourced_of_handle (hsourced : Sourced crypto calls node)
    (h : node.handle crypto event = some (commands, node')) :
    Sourced crypto (calls ++ [⟨node, event, commands, node'⟩]) node' ∧
      State.Lawful crypto (fun tx => tx ∈ occurringIn crypto (calls ++ [⟨node, event, commands, node'⟩]) ∧
        tx.validate crypto = .ok ()) node.chain.state node'.chain.state := by
  have hlast : ∀ tx, tx ∈ event.transactions ∧ tx.validate crypto = .ok () ∨
      .broadcastTransaction tx ∈ commands →
      tx ∈ occurringIn crypto (calls ++ [⟨node, event, commands, node'⟩]) := fun tx horigin =>
    mem_occurringIn_iff.mpr ⟨_, List.mem_append_right calls (List.mem_singleton_self _), horigin⟩
  have hpooled : ∀ signature tx, node.mempool.transactions.lookup signature = some tx →
      tx ∈ occurringIn crypto (calls ++ [⟨node, event, commands, node'⟩]) := fun signature tx hlookup =>
    mem_occurringIn_append (hsourced signature tx hlookup) _
  obtain ⟨made, hexchanges⟩ := exchanges_of_handle h
  constructor
  · intro signature tx hlookup
    rcases (intake_of_handle h).pool signature tx hlookup with hold | ⟨hvalid, hevent | hbroadcast⟩
    · exact hpooled signature tx hold
    · refine hlast tx (.inl ⟨?_, hvalid⟩)
      rw [hevent]
      exact List.mem_singleton_self tx
    · exact hlast tx (.inr hbroadcast)
  · refine State.lawful_of_advances hexchanges.acts.advances ?_
    rintro tx ⟨block, hbrings | hmade, htx⟩ hvalid
    · exact ⟨hlast tx (.inl ⟨mem_transactions_of_brings hbrings htx, hvalid⟩), hvalid⟩
    · rcases hexchanges.packed block hmade tx htx with ⟨signature, hlookup⟩ | hbroadcast
      · exact ⟨hpooled signature tx hlookup, hvalid⟩
      · exact ⟨hlast tx (.inr hbroadcast), hvalid⟩

/-- So it is after a run from a start. -/
theorem sourced_of_run (hboot : boot crypto schemes host storage config claims = some booted)
    (hrun : Run (handle crypto) booted calls node) : Sourced crypto calls node := by
  induction hrun with
  | nil =>
    rw [boot_eq] at hboot
    obtain ⟨chain, -, hnode⟩ := Option.bind_eq_some_iff.mp hboot
    obtain rfl := Option.some.inj hnode
    intro signature tx hlookup
    simp [Mempool.new] at hlookup
  | snoc _ hnext ih => exact (sourced_of_handle ih hnext).1

/-- Between any two moments after a start of a node, whatever blocks it accepts or rejects: every record of
an asset, of an item of a collection and of a channel goes its steps, each by a valid transaction that an
event brought or that the node broadcast; so registered assets and closed channels stay as they are. -/
theorem registries_lawful (hboot : boot crypto schemes host storage config claims = some booted)
    (hbefore : Run (handle crypto) booted before mid) (hafter : Run (handle crypto) mid after node) :
    State.Lawful crypto
      (fun tx => tx ∈ occurringIn crypto (before ++ after) ∧ tx.validate crypto = .ok ())
      mid.chain.state node.chain.state ∧
    (∀ assetId asset, mid.chain.state.assets.lookup assetId = some asset →
      node.chain.state.assets.lookup assetId = some asset) ∧
    ∀ channelId channel, mid.chain.state.channels.lookup channelId = some channel →
      channel.isClosed = true → node.chain.state.channels.lookup channelId = some channel := by
  have hlawful : State.Lawful crypto
      (fun tx => tx ∈ occurringIn crypto (before ++ after) ∧ tx.validate crypto = .ok ())
      mid.chain.state node.chain.state := by
    induction hafter with
    | nil => exact .of_same ⟨rfl, rfl, rfl⟩
    | @snoc after s s' event commands hrest hnext ih =>
      have hsourced := sourced_of_run hboot (hbefore.append hrest)
      have hstep := (sourced_of_handle hsourced hnext).2
      rw [List.append_assoc] at hstep
      refine .trans (ih.mono fun tx hexecuted => ?_) hstep
      rw [← List.append_assoc]
      exact ⟨mem_occurringIn_append hexecuted.1 _, hexecuted.2⟩
  exact ⟨hlawful, fun _ _ hregistered => hlawful.asset_fixed hregistered,
    fun _ _ hfound hclosed => hlawful.channel_final hfound hclosed⟩

/-- The id of Alice's first collection. -/
def artId : Bytes := Crypto.plain.sha256 (Sample.alice ++ u64ToLeBytes 0 ++ asBytes "Art")

/-- Alice creates a collection and mints an item of it for Bob. -/
def mintEvents : List Event :=
  [.submitTransaction (.new Crypto.plain Sample.alice [] (.createCollection "Art" "ART" []) 0 Sample.alice),
    .submitTransaction (.new Crypto.plain Sample.alice [] (.mintNFT artId 7 [] Sample.bob) 1 Sample.alice),
    .slot Host.plain (Sample.tick 3)]

/-- The item is Bob's, and it got there from nothing by steps of its own. -/
theorem registries_lawful_minted :
    ∃ booted calls node item, Sample.booted (some "first") = some booted ∧
      Run (handle Crypto.plain) booted calls node ∧ calls.map Call.label = mintEvents ∧
      node.chain.state.item artId 7 = some item ∧ item.2.map NFTItem.owner = some Sample.bob ∧
      Relation.ReflTransGen (State.ItemStep Crypto.plain
        (fun tx => tx ∈ occurringIn Crypto.plain calls ∧ tx.validate Crypto.plain = .ok ()) artId 7)
        none (some item) := by
  obtain ⟨booted, calls, node, hbooted, hrun, hlabels, hcheck⟩ :=
    Run.exists_of_trace_from (handle Crypto.plain) (Sample.booted (some "first")) mintEvents
      (fun booted _ node => (booted.chain.state.item artId 7).isNone &&
        (node.chain.state.item artId 7).any fun item => item.2.map NFTItem.owner = some Sample.bob)
      (by decide +kernel)
  obtain ⟨hnone, hminted⟩ := Bool.and_eq_true_iff.mp hcheck
  obtain ⟨item, hitem, howner⟩ := (Option.any_eq_true _ _).mp hminted
  have hlawful := (registries_lawful hbooted .nil hrun).1.items artId 7
  rw [Option.isNone_iff_eq_none.mp hnone, hitem, List.nil_append] at hlawful
  exact ⟨booted, calls, node, item, hbooted, hrun, hlabels, hitem, of_decide_eq_true howner, hlawful⟩

end Node

end Nocostcoin
