import Nocostcoin.Chain.Equivocation
import Nocostcoin.Chain.ForkLedger

/-!
# A node as a function of the blocks it is given

What decides on a block is the tree of stored blocks, the head, one ledger and one validator set for
all branches. A replica is these alone, and taking a block is a function on replicas. A node on
reliable databases, given blocks of different validators or slots, follows its replica.
-/

namespace Nocostcoin

open Execution

variable {crypto : Crypto}

/-- What a delivered block leaves of the ledger once it is executed: all of its effects, or, if one of
its transactions fails, the earlier writes to the registries. -/
def Ledger.settle (crypto : Crypto) (ledger : Ledger) (txs : List Transaction) : Bool × Ledger :=
  match ledger.execute crypto txs with
  | (.ok (), ledger) => (true, ledger)
  | (.error _, failed) => (false, { failed with accounts := ledger.accounts })

/-- No transactions settle without effect. -/
theorem Ledger.settle_nil (ledger : Ledger) : ledger.settle crypto [] = (true, ledger) := by
  rw [settle, execute_nil]

/-- The block that the fork choice keeps. -/
def Consensus.preferred (currentHead newBlock : Block) : Block :=
  if isBetterBlock newBlock currentHead then newBlock else currentHead

/-- The part of a node that decides on blocks. -/
structure Replica where
  blocks : FiniteMap String Block
  head : Block
  ledger : Ledger
  validators : ValidatorSet

namespace Replica

/-- The block's parent is stored and the consensus rules hold for it. -/
def admits (crypto : Crypto) (replica : Replica) (block : Block) : Bool :=
  match replica.blocks.lookup block.header.parentHash with
  | none => false
  | some parent =>
    match Consensus.validateBlock crypto block parent replica.validators with
    | .error _ => false
    | .ok () => true

theorem admits_iff {replica : Replica} {block : Block} : replica.admits crypto block = true ↔
    ∃ parent, replica.blocks.lookup block.header.parentHash = some parent ∧
      Consensus.validateBlock crypto block parent replica.validators = .ok () := by
  unfold admits
  cases replica.blocks.lookup block.header.parentHash with
  | none => simp
  | some parent =>
    cases hresult : Consensus.validateBlock crypto block parent replica.validators with
    | error error => simp [hresult]
    | ok => simp [hresult]

/-- Store a block whose transactions have settled. -/
def store (replica : Replica) (block : Block) (ledger : Ledger) : Replica :=
  { blocks := replica.blocks.insert block.hash block
    head := Consensus.preferred replica.head block
    ledger
    validators :=
      block.transactions.foldl (ValidatorSet.managed · block.header.epoch) replica.validators }

/-- Execute a block that was admitted. -/
def settle (crypto : Crypto) (replica : Replica) (block : Block) : Replica :=
  match replica.ledger.settle crypto block.transactions with
  | (true, ledger) => replica.store block ledger
  | (false, ledger) => { replica with ledger }

/-- Take a delivered block. -/
def take (crypto : Crypto) (replica : Replica) (block : Block) : Replica :=
  if replica.admits crypto block then replica.settle crypto block else replica

/-- The replica of a fresh node: the genesis block, the funded accounts and the registered
validators. -/
def fresh (accounts : FiniteMap Bytes Account) (genesisBlock : Block)
    (balances stakes : List (Bytes × UInt64)) : Replica :=
  { blocks := (∅ : FiniteMap String Block).insert genesisBlock.hash genesisBlock
    head := genesisBlock
    ledger := { accounts := fundedAccounts accounts balances, assets := ∅, collections := ∅,
                channels := ∅ }
    validators := stakes.foldl (fun set entry => (set.registerValidator entry.1 entry.2 0).2) .new }

/-- A block that can be accepted: it is on the genesis block or on another such block, and some
validator set lets it pass the consensus rules. -/
inductive Viable (crypto : Crypto) (genesisBlock : Block) (blocks : Finset Block) : Block → Prop
  | onGenesis {block : Block} {validators : ValidatorSet} (hmem : block ∈ blocks)
      (hvalid : Consensus.validateBlock crypto block genesisBlock validators = .ok ()) :
      Viable crypto genesisBlock blocks block
  | onBlock {parent block : Block} {validators : ValidatorSet} (hmem : block ∈ blocks)
      (hparent : Viable crypto genesisBlock blocks parent)
      (hvalid : Consensus.validateBlock crypto block parent validators = .ok ()) :
      Viable crypto genesisBlock blocks block

/-- Blocks are stored under their hashes; they are the genesis block and blocks that can be accepted. -/
def Grown (crypto : Crypto) (genesisBlock : Block) (blocks : Finset Block) (replica : Replica) : Prop :=
  ∀ hash stored, replica.blocks.lookup hash = some stored →
    stored.hash = hash ∧ (stored = genesisBlock ∨ Viable crypto genesisBlock blocks stored)

variable {genesisBlock block : Block} {blocks : Finset Block} {replica : Replica}

theorem Viable.mem (h : Viable crypto genesisBlock blocks block) : block ∈ blocks := by
  cases h with
  | onGenesis hmem => exact hmem
  | onBlock hmem => exact hmem

/-- Only blocks that can be accepted are admitted. -/
theorem Grown.viable (hgrown : replica.Grown crypto genesisBlock blocks) (hmem : block ∈ blocks)
    (hadmits : replica.admits crypto block = true) : Viable crypto genesisBlock blocks block := by
  obtain ⟨parent, hparent, hvalid⟩ := admits_iff.mp hadmits
  rcases (hgrown _ _ hparent).2 with rfl | hviable
  · exact .onGenesis hmem hvalid
  · exact .onBlock hmem hviable hvalid

/-- Taking a block keeps what is stored in place. -/
theorem Grown.take (hgrown : replica.Grown crypto genesisBlock blocks) (hmem : block ∈ blocks) :
    (replica.take crypto block).Grown crypto genesisBlock blocks := by
  unfold Replica.take
  split
  · rename_i hadmits
    unfold settle
    split
    · intro hash stored hstored
      change (replica.blocks.insert block.hash block).lookup hash = some stored at hstored
      rw [FiniteMap.lookup_insert_ite] at hstored
      split at hstored
      · rename_i heq
        obtain rfl := Option.some.inj hstored
        exact ⟨heq.symm, .inr (hgrown.viable hmem hadmits)⟩
      · exact hgrown hash stored hstored
    · exact hgrown
  · exact hgrown

/-- A fresh replica stores the genesis block under its hash. -/
theorem grown_fresh (accounts : FiniteMap Bytes Account) (balances stakes : List (Bytes × UInt64)) :
    (fresh accounts genesisBlock balances stakes).Grown crypto genesisBlock blocks := by
  intro hash stored hstored
  change ((∅ : FiniteMap String Block).insert genesisBlock.hash genesisBlock).lookup hash =
    some stored at hstored
  rw [FiniteMap.lookup_insert_ite] at hstored
  split at hstored
  · rename_i heq
    obtain rfl := Option.some.inj hstored
    exact ⟨heq.symm, .inl rfl⟩
  · contradiction

end Replica

namespace Chain

variable {host : Host} {chain chain' start : Chain} {block : Block} {accepted : Bool}
  {replica : Replica}

/-- The chain holds what its replica holds. -/
structure Shows (chain : Chain) (replica : Replica) : Prop where
  blocks : chain.storage.blocks = replica.blocks
  headHash : chain.head = replica.head.hash
  head : chain.getHead = some replica.head
  ledger : chain.state.discardChanges.ledger = replica.ledger
  validators : chain.validators = replica.validators

/-- Stored blocks are those of the replica. -/
theorem Shows.lookup (hshows : chain.Shows replica) (hash : String) :
    chain.getBlock hash = replica.blocks.lookup hash := by
  rw [← hshows.blocks]
  rfl

/-- Rolling back an execution keeps the accounts of before and the registries of after. -/
theorem ledger_of_failure {result : Except String Unit} {state : State}
    (hexec : processTransactions crypto (chain.recordHeader host block).state.discardChanges
      block.transactions = (result, state)) :
    state.discardChanges.ledger =
      { (chain.state.discardChanges.ledger.execute crypto block.transactions).2 with
        accounts := chain.state.discardChanges.ledger.accounts } := by
  obtain ⟨headers, hstorage⟩ := storage_of_execution_frame hexec
  have hledger := (execution_eq hexec).2
  rw [← ledger_processTransactions crypto chain.state.discardChanges block.transactions, ← hledger]
  have haccounts : state.discardChanges.accounts = chain.state.discardChanges.accounts := by
    change ∅ ∪ state.storage.accounts = ∅ ∪ chain.state.storage.accounts
    rw [hstorage]
  unfold State.ledger
  rw [haccounts]
  rfl

/-- A rejection that leaves ledger and validators alone is not seen by the replica. -/
theorem Shows.of_rejection (hshows : chain.Shows replica) (hreject : Rejection chain chain')
    {ledger : Ledger} (hledger : chain'.state.discardChanges.ledger = ledger)
    (hvalidators : chain'.validators = chain.validators) :
    chain'.Shows { replica with ledger } := by
  have hhead : chain'.getHead = chain.getHead := by
    unfold getHead Storage.getBlock
    rw [hreject.blocks, hreject.head]
  exact ⟨hreject.blocks.trans hshows.blocks, hreject.head.trans hshows.headHash,
    hhead.trans hshows.head, hledger, hvalidators.trans hshows.validators⟩

/-- The consensus part of `add_block`, seen from the replica. -/
theorem Shows.admits_iff (hshows : chain.Shows replica) :
    replica.admits crypto block = true ↔ ∃ parent,
      chain.getBlock block.header.parentHash = some parent ∧
      Consensus.validateBlock crypto block parent chain.validators = .ok () := by
  rw [Replica.admits_iff, hshows.lookup, hshows.validators]

/-- A block that is stored under a fresh hash. -/
theorem Shows.of_acceptance (hshows : chain.Shows replica)
    (hfresh : chain.getBlock block.hash = none) (haccept : Acceptance crypto chain block chain') :
    chain'.Shows (replica.settle crypto block) := by
  obtain ⟨parent, hpasses⟩ := haccept.passes
  obtain ⟨currentHead, hcurrent, hhead⟩ := haccept.head
  obtain rfl := Option.some.inj (hshows.head.symm.trans hcurrent)
  have hexec := ledger_processTransactions crypto chain.state.discardChanges block.transactions
  rw [hpasses.executes, ← haccept.ledger, hshows.ledger] at hexec
  have hlookup : ∀ hash, chain'.getBlock hash =
      if hash = block.hash then some block else chain.getBlock hash := by
    intro hash
    unfold getBlock Storage.getBlock
    rw [haccept.blocks, FiniteMap.lookup_insert_ite]
  rw [Replica.settle, Ledger.settle, ← hexec]
  constructor
  · rw [haccept.blocks, hshows.blocks]
    rfl
  · rw [hhead, hshows.headHash]
    unfold Replica.store Consensus.preferred
    split <;> rfl
  · change chain'.getBlock chain'.head = some (Consensus.preferred replica.head block)
    rw [hlookup, hhead]
    unfold Consensus.preferred
    split
    · rw [if_pos rfl]
    · have hother : chain.head ≠ block.hash := by
        intro heq
        rw [← heq] at hfresh
        exact absurd (hfresh.symm.trans hshows.head) (by simp)
      rw [if_neg hother]
      exact hshows.head
  · rfl
  · rw [haccept.validators, hshows.validators]
    rfl

/-- A block that fails in its execution settles without its accounts. -/
theorem Shows.of_failure (hshows : chain.Shows replica) {error : String} {state : State}
    (hexec : processTransactions crypto (chain.recordHeader host block).state.discardChanges
      block.transactions = (.error error, state)) :
    ((chain.recordHeader host block).withState state.discardChanges).Shows
      (replica.settle crypto block) := by
  have hledger := ledger_of_failure hexec
  have hresult := congrArg Prod.fst
    (ledger_processTransactions crypto chain.state.discardChanges block.transactions)
  rw [(execution_eq hexec).1] at hresult
  rw [hshows.ledger] at hledger hresult
  have hfailed := Prod.fst_eq_iff.mp hresult.symm
  rw [Replica.settle, Ledger.settle, hfailed]
  exact hshows.of_rejection (rejection_of_execution hexec) hledger
    (validators_recordHeader host chain block)

/-- The delivery is not stopped at the state root: if the block gets there, it names none or the
node's own. -/
def RootAgrees (crypto : Crypto) (chain : Chain) (block : Block) : Prop :=
  ReachesExecution crypto chain block →
    (chain.state.discardChanges.ledger.execute crypto block.transactions).1 = .ok () →
    block.header.stateRoot = "" ∨ block.header.stateRoot = chain.state.getRootHash

/-- A delivered block of a fresh slot and validator, and of a fresh hash if it is admitted, is taken as
the replica takes it. An accepted block is admitted and then stored, a rejected one stores nothing. -/
theorem shows_of_delivery (hreliable : host.Reliable) (hshows : chain.Shows replica)
    (hconsistent : chain.Consistent block)
    (hfresh : replica.admits crypto block = true → chain.getBlock block.hash = none)
    (hroot : chain.RootAgrees crypto block) (h : Delivery crypto host chain block accepted chain') :
    chain'.Shows (replica.take crypto block) ∧
      (accepted = true → replica.admits crypto block = true ∧
        chain'.storage.blocks = chain.storage.blocks.insert block.hash block) ∧
      (accepted = false → chain'.storage.blocks = chain.storage.blocks) := by
  cases h with
  | orphan hparent =>
    have hadmits : ¬ replica.admits crypto block = true := by
      rw [hshows.admits_iff]
      rintro ⟨parent, hstored, -⟩
      rw [hparent] at hstored
      contradiction
    rw [Replica.take, if_neg hadmits]
    exact ⟨hshows, by simp, fun _ => rfl⟩
  | equivocation _ hexisting hne => exact absurd (hconsistent _ hexisting) hne
  | invalid hparent _ hinvalid =>
    have hadmits : ¬ replica.admits crypto block = true := by
      rw [hshows.admits_iff]
      rintro ⟨parent, hstored, hvalid⟩
      obtain rfl := Option.some.inj (hparent.symm.trans hstored)
      rw [hinvalid] at hvalid
      contradiction
    have hreject : Rejection chain (chain.recordHeader host block) := by
      obtain ⟨seenHeaders, headers, hrecord⟩ := recordHeader_frame host chain block
      rw [hrecord]
      exact ⟨rfl, rfl, rfl, rfl, rfl, rfl⟩
    rw [Replica.take, if_neg hadmits]
    refine ⟨?_, by simp, fun _ => hreject.blocks⟩
    exact hshows.of_rejection hreject ((ledger_recordHeader host chain block).trans hshows.ledger)
      (validators_recordHeader host chain block)
  | @failed parent error state hparent _ hvalid hexec =>
    have hadmits : replica.admits crypto block = true := hshows.admits_iff.mpr ⟨parent, hparent, hvalid⟩
    rw [Replica.take, if_pos hadmits]
    exact ⟨hshows.of_failure hexec, by simp, fun _ => (rejection_of_execution hexec).blocks⟩
  | @mismatch parent state hparent _ hvalid hexec hmismatch =>
    have hresult := congrArg Prod.fst
      (ledger_processTransactions crypto chain.state.discardChanges block.transactions)
    rw [State.getRootHash, trie_of_execution hexec] at hmismatch
    exact absurd (hroot ⟨parent, hparent, hconsistent, hvalid⟩
      (hresult.symm.trans (execution_eq hexec).1)) (not_or.mpr hmismatch)
  | commit hparent _ hvalid hexec hagrees hcommit =>
    have hpasses := passes_of_commit hparent hconsistent hvalid hexec hagrees
    have hadmits := hshows.admits_iff.mpr ⟨_, hparent, hvalid⟩
    obtain ⟨rfl, haccept⟩ := acceptance_of_commit hreliable hpasses hexec hcommit
    rw [Replica.take, if_pos hadmits]
    exact ⟨hshows.of_acceptance (hfresh hadmits) haccept, fun _ => ⟨hadmits, haccept.blocks⟩, by simp⟩

/-- A fresh node shows its fresh replica. -/
theorem shows_of_start {storage : Storage} {genesisBlock : Block}
    {balances stakes : List (Bytes × UInt64)} (hblocks : storage.blocks = ∅)
    (hfresh : storage.head = none) (hhost : host.Reliable)
    (hopened : Chain.start crypto host storage genesisBlock balances stakes = some chain) :
    chain.Shows (.fresh storage.accounts genesisBlock balances stakes) := by
  obtain ⟨hgenesis, -, hhead, -⟩ := start_on_fresh hblocks hfresh hopened
  refine ⟨hgenesis, hhead, ?_, ?_, ?_⟩
  · exact (getBlock_of_genesis hgenesis chain.head).trans (if_pos hhead)
  · obtain ⟨trie, rfl⟩ := start_eq hhost hopened
    unfold State.ledger
    congr 1
    exact Finmap.empty_union
  · obtain ⟨trie, rfl⟩ := start_eq hhost hopened
    rfl

/-- The calls deliver the blocks, in this order. -/
def Delivers (calls : List (Call Chain Request Bool)) (order : List Block) : Prop :=
  calls.map (fun call => call.label.delivered) = order.map some

/-- The block was delivered and accepted. -/
def AcceptedIn (calls : List (Call Chain Request Bool)) (block : Block) : Prop :=
  ∃ call ∈ calls, call.label.delivered = some block ∧ call.output = true

/-- No two blocks of the set are of one validator in one slot. -/
def OneProposal (blocks : Finset Block) : Prop :=
  ∀ a ∈ blocks, ∀ b ∈ blocks, a ≠ b → a.header.slot = b.header.slot →
    a.header.validatorPubkey ≠ b.header.validatorPubkey

/-- Every block of the set that can be accepted has a hash of its own. -/
structure OwnHashes (crypto : Crypto) (genesisBlock : Block) (blocks : Finset Block) : Prop where
  genesis : ∀ a, Replica.Viable crypto genesisBlock blocks a → a.hash ≠ genesisBlock.hash
  hashes : ∀ a b, Replica.Viable crypto genesisBlock blocks a →
    Replica.Viable crypto genesisBlock blocks b → a ≠ b → a.hash ≠ b.hash

/-- Where a node stands after the blocks it was given: it shows what its replica made of them, what is
on record or stored came with one of them, and the accepted ones are those that can be and are
stored. -/
structure Follows (crypto : Crypto) (genesisBlock : Block) (blocks : Finset Block) (first : Replica)
    (order : List Block) (calls : List (Call Chain Request Bool)) (chain : Chain) : Prop where
  shows : chain.Shows (order.foldl (Replica.take crypto) first)
  grown : (order.foldl (Replica.take crypto) first).Grown crypto genesisBlock blocks
  recorded : ∀ slot pubkey hash, chain.OnRecord slot pubkey hash →
    ∃ block ∈ order, block.header.slot = slot ∧ block.header.validatorPubkey = pubkey
  stored : ∀ hash block, chain.getBlock hash = some block → block = genesisBlock ∨ block ∈ order
  accepted : ∀ block ∈ order, AcceptedIn calls block ↔
    Replica.Viable crypto genesisBlock blocks block ∧ chain.getBlock block.hash = some block

variable {calls : List (Call Chain Request Bool)} {call : Call Chain Request Bool} {order : List Block}
  {genesisBlock : Block} {blocks : Finset Block} {first : Replica}

/-- The last call delivers the last block. -/
theorem Delivers.snoc (h : Delivers (calls ++ [call]) order) :
    ∃ earlier block, order = earlier ++ [block] ∧ Delivers calls earlier ∧
      call.label.delivered = some block := by
  unfold Delivers at h
  rw [List.map_append, List.map_singleton] at h
  obtain ⟨earlier, last, rfl, hearlier, hlast⟩ := List.append_eq_map_iff.mp h
  obtain ⟨block, rfl, hblock⟩ := List.map_eq_singleton_iff.mp hlast
  exact ⟨earlier, block, rfl, hearlier.symm, hblock.symm⟩

/-- A block that some call delivers is one of the list. -/
theorem Delivers.mem (h : Delivers calls order) (hcall : call ∈ calls)
    (hdelivered : call.label.delivered = some block) : block ∈ order := by
  have hmem : call.label.delivered ∈ order.map some := h ▸ List.mem_map_of_mem hcall
  rw [hdelivered] at hmem
  obtain ⟨other, hother, heq⟩ := List.mem_map.mp hmem
  obtain rfl := Option.some.inj heq
  exact hother

/-- Requests that deliver the blocks do deliver them. -/
theorem delivers_of_labels (h : calls.map Call.label = order.map (Request.deliver host)) :
    Delivers calls order := by
  have hdelivered := congrArg (List.map Request.delivered) h
  rw [List.map_map, List.map_map] at hdelivered
  exact hdelivered

/-- An accepted block after one more call. -/
theorem acceptedIn_snoc : AcceptedIn (calls ++ [call]) block ↔
    AcceptedIn calls block ∨ call.label.delivered = some block ∧ call.output = true := by
  constructor
  · rintro ⟨other, hother, haccepted⟩
    rcases List.mem_append.mp hother with hold | hnew
    · exact .inl ⟨other, hold, haccepted⟩
    · obtain rfl := List.mem_singleton.mp hnew
      exact .inr haccepted
  · rintro (⟨other, hother, haccepted⟩ | haccepted)
    · exact ⟨other, List.mem_append_left _ hother, haccepted⟩
    · exact ⟨call, List.mem_append_right _ (List.mem_singleton_self call), haccepted⟩

/-- No other header is on record for a new block of the set. -/
theorem Follows.consistent (hproposal : OneProposal blocks)
    (hblocks : ∀ earlier ∈ order, earlier ∈ blocks) (hblock : block ∈ blocks) (hnew : block ∉ order)
    (hfollows : Follows crypto genesisBlock blocks first order calls chain) :
    chain.Consistent block := by
  intro existing hexisting
  obtain ⟨earlier, hearlier, hslot, hpubkey⟩ :=
    hfollows.recorded _ _ _ (onRecord_of_existingHash hexisting)
  have hne : earlier ≠ block := fun heq => hnew (heq ▸ hearlier)
  exact absurd hpubkey (hproposal earlier (hblocks earlier hearlier) block hblock hne hslot)

/-- No block is stored under the hash of a new block that can be accepted. -/
theorem Follows.fresh (hown : OwnHashes crypto genesisBlock blocks) (hnew : block ∉ order)
    (hfollows : Follows crypto genesisBlock blocks first order calls chain)
    (hviable : Replica.Viable crypto genesisBlock blocks block) :
    chain.getBlock block.hash = none := by
  apply Option.eq_none_iff_forall_ne_some.mpr
  intro stored hstored
  obtain ⟨hhash, horigin⟩ := hfollows.grown _ _ (hfollows.shows.lookup _ ▸ hstored)
  rcases hfollows.stored _ _ hstored with rfl | hearlier
  · exact hown.genesis block hviable hhash.symm
  · rcases horigin with rfl | hother
    · exact hown.genesis block hviable hhash.symm
    · exact hown.hashes stored block hother hviable (fun heq => hnew (heq ▸ hearlier)) hhash

/-- After a new block the accepted ones are still those that can be and are stored. -/
theorem Follows.accepted_snoc (hown : OwnHashes crypto genesisBlock blocks) (hnew : block ∉ order)
    (hdelivers : Delivers calls order)
    (hfollows : Follows crypto genesisBlock blocks first order calls chain)
    (hviable : accepted = true → Replica.Viable crypto genesisBlock blocks block)
    (hlookup : ∀ hash, chain'.getBlock hash =
      if accepted = true ∧ hash = block.hash then some block else chain.getBlock hash) :
    ∀ other ∈ order ++ [block],
      AcceptedIn (calls ++ [⟨chain, .deliver host block, accepted, chain'⟩]) other ↔
        Replica.Viable crypto genesisBlock blocks other ∧ chain'.getBlock other.hash = some other := by
  intro other hother
  rw [acceptedIn_snoc, hlookup]
  change AcceptedIn calls other ∨ some block = some other ∧ accepted = true ↔ _
  rcases List.mem_append.mp hother with hearlier | hnewest
  · have hne : other ≠ block := fun heq => hnew (heq ▸ hearlier)
    have hnotNew : ¬ (some block = some other ∧ accepted = true) :=
      fun hboth => hne (Option.some.inj hboth.1).symm
    rw [or_iff_left hnotNew, hfollows.accepted other hearlier]
    apply and_congr_right
    intro hotherViable
    have hkept : ¬ (accepted = true ∧ other.hash = block.hash) := fun hboth =>
      hown.hashes other block hotherViable (hviable hboth.1) hne hboth.2
    rw [if_neg hkept]
  · obtain rfl := List.mem_singleton.mp hnewest
    have hnotOld : ¬ AcceptedIn calls other := by
      intro ⟨call, hcall, hdelivered, _⟩
      exact hnew (hdelivers.mem hcall hdelivered)
    rw [or_iff_right hnotOld]
    constructor
    · intro ⟨_, htrue⟩
      exact ⟨hviable htrue, if_pos ⟨htrue, rfl⟩⟩
    · intro ⟨hotherViable, hstored⟩
      refine ⟨rfl, ?_⟩
      by_contra hrejected
      rw [if_neg fun hboth => hrejected hboth.1, hfollows.fresh hown hnew hotherViable] at hstored
      contradiction

/-- One more block of the set is followed, if it is new. -/
theorem Follows.snoc (hreliable : host.Reliable) (hproposal : OneProposal blocks)
    (hown : OwnHashes crypto genesisBlock blocks) (hblocks : ∀ earlier ∈ order, earlier ∈ blocks)
    (hblock : block ∈ blocks) (hnew : block ∉ order) (hdelivers : Delivers calls order)
    (hfollows : Follows crypto genesisBlock blocks first order calls chain)
    (hroot : chain.RootAgrees crypto block)
    (hnext : addBlock crypto host chain block = some (accepted, chain')) :
    Follows crypto genesisBlock blocks first (order ++ [block])
      (calls ++ [⟨chain, .deliver host block, accepted, chain'⟩]) chain' := by
  have hdelivery := delivery_of_addBlock hnext
  have hlast : block ∈ order ++ [block] := List.mem_append_right _ (List.mem_singleton_self block)
  have hviable : (order.foldl (Replica.take crypto) first).admits crypto block = true →
      Replica.Viable crypto genesisBlock blocks block := hfollows.grown.viable hblock
  obtain ⟨hshows, haccept, hreject⟩ := shows_of_delivery hreliable hfollows.shows
    (hfollows.consistent hproposal hblocks hblock hnew)
    (fun hadmits => hfollows.fresh hown hnew (hviable hadmits)) hroot hdelivery
  have hlookup : ∀ hash, chain'.getBlock hash =
      if accepted = true ∧ hash = block.hash then some block else chain.getBlock hash := by
    intro hash
    unfold getBlock Storage.getBlock
    cases accepted with
    | true =>
      rw [(haccept rfl).2, FiniteMap.lookup_insert_ite]
      simp
    | false =>
      rw [hreject rfl]
      simp
  constructor
  · rw [List.foldl_append]
    exact hshows
  · rw [List.foldl_append]
    exact hfollows.grown.take hblock
  · intro slot pubkey hash hrecord
    rcases onRecord_of_delivery hdelivery hrecord with hold | ⟨hslot, hpubkey, -⟩
    · obtain ⟨earlier, hearlier, hsame⟩ := hfollows.recorded slot pubkey hash hold
      exact ⟨earlier, List.mem_append_left _ hearlier, hsame⟩
    · exact ⟨block, hlast, hslot.symm, hpubkey.symm⟩
  · intro hash stored hstored
    rw [hlookup] at hstored
    split at hstored
    · obtain rfl := Option.some.inj hstored
      exact .inr hlast
    · exact (hfollows.stored hash stored hstored).imp_right (List.mem_append_left _)
  · exact hfollows.accepted_snoc hown hnew hdelivers (fun htrue => hviable (haccept htrue).1) hlookup

/-- A node that stores the genesis block alone and has nothing on record follows its replica through
every run of deliveries of different blocks of a set. -/
theorem follows_of_run (hproposal : OneProposal blocks) (hown : OwnHashes crypto genesisBlock blocks)
    (hshows : start.Shows first) (hgrown : first.Grown crypto genesisBlock blocks)
    (hrecord : ∀ slot pubkey hash, ¬ start.OnRecord slot pubkey hash)
    (hstored : ∀ hash block, start.getBlock hash = some block → block = genesisBlock)
    (hrun : Run (serve crypto) start calls chain) (hdelivers : Delivers calls order)
    (hnodup : order.Nodup) (hblocks : ∀ block ∈ order, block ∈ blocks)
    (hreliable : ∀ call ∈ calls, call.label.host.Reliable)
    (hroots : ∀ call ∈ calls, ∀ block ∈ call.label.delivered, call.pre.RootAgrees crypto block) :
    Follows crypto genesisBlock blocks first order calls chain := by
  induction hrun generalizing order with
  | nil =>
    obtain rfl : order = [] := List.map_eq_nil_iff.mp hdelivers.symm
    exact ⟨hshows, hgrown, fun slot pubkey hash hon => absurd hon (hrecord slot pubkey hash),
      fun hash block hblock => .inl (hstored hash block hblock), fun block hblock => by cases hblock⟩
  | @snoc calls s s' label output hbefore hnext ih =>
    obtain ⟨earlier, block, rfl, hearlier, hdelivered⟩ := hdelivers.snoc
    obtain ⟨hnodupEarlier, -, hdisjoint⟩ := List.nodup_append.mp hnodup
    have hlast : (⟨s, label, output, s'⟩ : Call Chain Request Bool) ∈ calls ++ [⟨s, label, output, s'⟩] :=
      List.mem_append_right _ (List.mem_singleton_self _)
    have hblocksEarlier : ∀ b ∈ earlier, b ∈ blocks :=
      fun b hb => hblocks b (List.mem_append_left _ hb)
    have hfollows := ih hearlier hnodupEarlier hblocksEarlier
      (fun call hcall => hreliable call (List.mem_append_left _ hcall))
      fun call hcall => hroots call (List.mem_append_left _ hcall)
    cases label with
    | deliver host delivered =>
      obtain rfl := Option.some.inj hdelivered
      have hnew : delivered ∉ earlier := fun hmem =>
        hdisjoint delivered hmem delivered (List.mem_singleton_self delivered) rfl
      exact hfollows.snoc (hreliable _ hlast) hproposal hown hblocksEarlier
        (hblocks delivered (List.mem_append_right _ (List.mem_singleton_self delivered))) hnew hearlier
        (hroots _ hlast delivered rfl) hnext
    | vote => contradiction
    | reopen => contradiction

end Chain

end Nocostcoin
