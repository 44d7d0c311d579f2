import Nocostcoin.Node.Startup

/-!
# The restart of a node

A restart starts the node again with its configuration, on the database it left. Validators, votes and
finality live in memory: the set is made up anew from the stored balances, and the stored head is taken
for finalized.
-/

namespace Nocostcoin

open Execution

/-- The finalized head has votes of two thirds of the stake on record. -/
def Chain.Finalized (chain : Chain) (hash : String) : Prop :=
  chain.finalizedHead = hash ∧ meetsThreshold (chain.voteStake hash) chain.validators.getTotalStake

instance (chain : Chain) (hash : String) : Decidable (chain.Finalized hash) :=
  inferInstanceAs (Decidable (_ ∧ _))

/-- The stake and the slashed flag that a set holds under a key. -/
def ValidatorSet.standing (set : ValidatorSet) (pubkey : Bytes) : Option (UInt64 × Bool) :=
  (set.validators.lookup pubkey).map fun validator => (validator.stake, validator.slashed)

namespace Node

/-- What happens to a node: an event of its loop, or a restart. -/
inductive Operation where
  | event (event : Event)
  | restart (host : Host)

/-- Let it happen; a restart keeps nothing but the configuration and the database. The key file of a wallet
that was set meanwhile is left out: where it could be saved, the event that sets the wallet comes again after
the restart. -/
def operate (crypto : Crypto) (schemes : KeySchemes) (config : NodeConfig) (node : Node) :
    Operation → Option (List NetworkCommand × Node)
  | .event event => node.handle crypto event
  | .restart host =>
      (boot crypto schemes host node.chain.storage config node.claims).map fun restarted => ([], restarted)

/-- The head that a start takes from a database. -/
def headOn (crypto : Crypto) (schemes : KeySchemes) (config : NodeConfig) (storage : Storage) : String :=
  storage.head.getD (config.genesisBlock schemes crypto).hash

/-- The blocks that were finalized so far: the first head, and those that got their votes. -/
def FinalizedBefore (booted : Node) (calls : List (Call Node Operation (List NetworkCommand)))
    (hash : String) : Prop :=
  hash = booted.chain.finalizedHead ∨ ∃ call ∈ calls, call.post.chain.Finalized hash

instance (booted : Node) (calls : List (Call Node Operation (List NetworkCommand))) (hash : String) :
    Decidable (FinalizedBefore booted calls hash) :=
  inferInstanceAs (Decidable (_ ∨ _))

/-- A restart keeps the keys, stakes and slashed flags of the validators and the total stake, and what it takes
for finalized had been finalized. -/
structure KeepsConsensus (booted : Node) (calls : List (Call Node Operation (List NetworkCommand)))
    (node restarted : Node) : Prop where
  standings : ∀ pubkey, restarted.chain.validators.standing pubkey = node.chain.validators.standing pubkey
  totalStake : restarted.chain.validators.getTotalStake = node.chain.validators.getTotalStake
  finalizedHead : FinalizedBefore booted calls restarted.chain.finalizedHead

/-- The registered validators are the start keys that have no coins in the database, each with the stake of a
start and not slashed, and with these stakes in total. -/
structure OnlyUnfundedStartKeys (schemes : KeySchemes) (config : NodeConfig) (node : Node) : Prop where
  standings : ∀ pubkey, node.chain.validators.standing pubkey =
    if Granted schemes config node.chain.storage.accounts pubkey then some (initialStake, false) else none
  totalStake : node.chain.validators.getTotalStake =
    UInt64.ofNat (unfunded node.chain.storage.accounts (config.startKeys schemes)).length * initialStake

variable {crypto : Crypto} {schemes : KeySchemes} {config : NodeConfig} {booted node restarted last : Node}
  {before after : List (Call Node Operation (List NetworkCommand))}
  {host : Host} {commands : List NetworkCommand}

/-- A restart in a run is a start on the database at that time. -/
theorem boot_of_run (hrun : Run (operate crypto schemes config) booted
      (before ++ ⟨node, .restart host, commands, restarted⟩ :: after) last) :
    boot crypto schemes host node.chain.storage config node.claims = some restarted := by
  have hcall := hrun.next_of_mem (List.mem_append_right before List.mem_cons_self)
  obtain ⟨other, hboot, hother⟩ := Option.map_eq_some_iff.mp hcall
  rw [hboot, (Prod.mk.inj hother).2]

/-- The standings after a start. -/
theorem Booted.standing {storage : Storage} {chain : Chain} (h : Booted crypto schemes storage config chain)
    (pubkey : Bytes) : chain.validators.standing pubkey =
      if Granted schemes config storage.accounts pubkey then some (initialStake, false) else none := by
  unfold ValidatorSet.standing
  rw [h.validators]
  split <;> rfl

/-- A restart keeps the validators exactly of a node whose validators are the unfunded start keys. -/
theorem Booted.validators_kept_iff
    (h : Booted crypto schemes node.chain.storage config restarted.chain) :
    (∀ pubkey, restarted.chain.validators.standing pubkey = node.chain.validators.standing pubkey) ∧
        restarted.chain.validators.getTotalStake = node.chain.validators.getTotalStake ↔
      OnlyUnfundedStartKeys schemes config node := by
  have htotal : restarted.chain.validators.getTotalStake = _ := h.totalStake
  rw [htotal]
  constructor
  · rintro ⟨hstandings, hsame⟩
    exact ⟨fun pubkey => (hstandings pubkey).symm.trans (h.standing pubkey), hsame.symm⟩
  · intro honly
    exact ⟨fun pubkey => (h.standing pubkey).trans (honly.standings pubkey).symm, honly.totalStake.symm⟩

/-- At any restart of any run the consensus state is kept if and only if the validators before it are the
unfunded start keys and the stored head had been finalized. -/
theorem restart_keeps_iff (hrun : Run (operate crypto schemes config) booted
      (before ++ ⟨node, .restart host, commands, restarted⟩ :: after) last) :
    KeepsConsensus booted before node restarted ↔
      OnlyUnfundedStartKeys schemes config node ∧
        FinalizedBefore booted before (headOn crypto schemes config node.chain.storage) := by
  have hbooted := booted_of_boot (boot_of_run hrun)
  rw [← hbooted.validators_kept_iff]
  have hhead : restarted.chain.finalizedHead = headOn crypto schemes config node.chain.storage :=
    hbooted.finalizedHead
  rw [← hhead]
  constructor
  · intro hkeeps
    exact ⟨⟨hkeeps.standings, hkeeps.totalStake⟩, hkeeps.finalizedHead⟩
  · rintro ⟨⟨hstandings, htotal⟩, hfinalized⟩
    exact ⟨hstandings, htotal, hfinalized⟩

end Node

namespace Sample

/-- A block on the genesis block by the first of the initial validators. -/
def firstBlock : Block :=
  Node.produceBlock Crypto.plain ((config none).genesisBlock KeySchemes.plain Crypto.plain) 1
    (generateValidatorKeypair KeySchemes.plain "first") [] 0

/-- The vote of an initial validator for it. -/
def firstVote (seed : String) : Vote :=
  Node.castVote Crypto.plain (generateValidatorKeypair KeySchemes.plain seed) firstBlock

/-- The block comes in and is finalized by both initial validators, on a database that refuses accounts. -/
def finalizedOperations : List Node.Operation :=
  [.event (.block accountless firstBlock), .event (.vote accountless (firstVote "first")),
    .event (.vote accountless (firstVote "second"))]

end Sample

namespace Node

/-- The two initial validators still have their coins when a node restarts after its first block, which
has no votes: no validator is left, and the block passes for finalized. -/
theorem restart_loses_validators :
    ∃ booted before node restarted, Sample.booted none = some booted ∧
      Run (operate Crypto.plain KeySchemes.plain (Sample.config none)) booted
        (before ++ [⟨node, .restart Host.plain, [], restarted⟩]) restarted ∧
      node.chain.validators.getTotalStake = 2000000 ∧
      restarted.chain.validators.getTotalStake = 0 ∧
      ¬ FinalizedBefore booted before restarted.chain.finalizedHead := by
  have hcheck : (Sample.booted none).any (fun booted =>
      (operate Crypto.plain KeySchemes.plain (Sample.config none) booted
        (.event (.block Host.plain Sample.firstBlock))).any fun answer =>
      (operate Crypto.plain KeySchemes.plain (Sample.config none) answer.2 (.restart Host.plain)).any
        fun answer' => decide (answer'.1.isEmpty = true ∧
          answer.2.chain.validators.getTotalStake = 2000000 ∧
          answer'.2.chain.validators.getTotalStake = 0 ∧
          ¬ FinalizedBefore booted [⟨booted, .event (.block Host.plain Sample.firstBlock), answer.1, answer.2⟩]
            answer'.2.chain.finalizedHead)) = true := by decide +kernel
  obtain ⟨booted, hbooted, hcheck⟩ := (Option.any_eq_true _ _).mp hcheck
  obtain ⟨⟨commands, node⟩, hblock, hcheck⟩ := (Option.any_eq_true _ _).mp hcheck
  obtain ⟨⟨commands', restarted⟩, hrestart, hcheck⟩ := (Option.any_eq_true _ _).mp hcheck
  obtain ⟨hnone, hbefore, hafter, hfinalized⟩ := of_decide_eq_true hcheck
  obtain rfl : commands' = [] := List.isEmpty_iff.mp hnone
  exact ⟨booted, [⟨booted, _, commands, node⟩], node, restarted, hbooted,
    .snoc (.snoc .nil hblock) hrestart, hbefore, hafter, hfinalized⟩

/-- Where the initial coins could not be stored, a restart after a finalized block registers both initial
validators again, and the block stays finalized. -/
theorem restart_keeps_validators :
    ∃ booted before node restarted,
      boot Crypto.plain KeySchemes.plain Sample.accountless .empty (Sample.config none) ∅ = some booted ∧
      Run (operate Crypto.plain KeySchemes.plain (Sample.config none)) booted
        (before ++ [⟨node, .restart Host.plain, [], restarted⟩]) restarted ∧
      before.map Call.label = Sample.finalizedOperations ∧
      node.chain.validators.getTotalStake = 2000000 ∧ node.chain.finalizedHead = Sample.firstBlock.hash ∧
      KeepsConsensus booted before node restarted := by
  obtain ⟨booted, before, node, hbooted, hrun, hlabels, hcheck⟩ := Run.exists_of_trace_from
    (operate Crypto.plain KeySchemes.plain (Sample.config none))
    (boot Crypto.plain KeySchemes.plain Sample.accountless .empty (Sample.config none) ∅)
    Sample.finalizedOperations
    (fun booted before node => decide (node.chain.validators = booted.chain.validators ∧
      node.chain.validators.getTotalStake = 2000000 ∧ node.chain.finalizedHead = Sample.firstBlock.hash ∧
      node.chain.storage.accounts = ∅ ∧
      FinalizedBefore booted before (headOn Crypto.plain KeySchemes.plain (Sample.config none)
        node.chain.storage) ∧
      (operate Crypto.plain KeySchemes.plain (Sample.config none) node (.restart Host.plain)).isSome))
    (by decide +kernel)
  obtain ⟨hsame, htotal, hhead, haccounts, hfinalized, hrestarts⟩ := of_decide_eq_true hcheck
  obtain ⟨⟨commands, restarted⟩, hrestart⟩ := Option.isSome_iff_exists.mp hrestarts
  obtain rfl : commands = [] := by
    obtain ⟨other, -, hother⟩ := Option.map_eq_some_iff.mp hrestart
    exact (Prod.mk.inj hother).1.symm
  have hfirst := booted_of_boot hbooted
  have honly : OnlyUnfundedStartKeys KeySchemes.plain (Sample.config none) node := by
    constructor
    · intro pubkey
      rw [hsame, haccounts]
      exact hfirst.standing pubkey
    · rw [hsame, haccounts]
      exact hfirst.totalStake
  have hlast := hrun.snoc hrestart
  exact ⟨booted, before, node, restarted, hbooted, hlast, hlabels, htotal, hhead,
    (restart_keeps_iff hlast).mpr ⟨honly, hfinalized⟩⟩

end Node

end Nocostcoin
