import Nocostcoin.Library.OrderedFold
import Nocostcoin.Chain.Replica

/-!
# Agreement of two nodes

Two nodes that are given the same blocks, parents first, accept the same ones and end with the same
head if blocks on different branches do not meddle with each other through the ledger and the
validator set that all branches share. Blocks that do, split the nodes.
-/

namespace Nocostcoin

open Execution

variable {crypto : Crypto}

namespace Consensus

variable {a b c : Block}

/-- No block is better than one that is better than it. -/
theorem isBetterBlock_asymm (h : isBetterBlock a b = true) : isBetterBlock b a = false := by
  unfold isBetterBlock at h ⊢
  grind

theorem isBetterBlock_trans (h : isBetterBlock a b = true) (h' : isBetterBlock b c = true) :
    isBetterBlock a c = true := by
  unfold isBetterBlock at h h' ⊢
  grind

/-- Of two blocks that differ in slot or VRF output one is better. -/
theorem isBetterBlock_total (h : a.header.slot = b.header.slot →
    a.header.vrfOutput ≠ b.header.vrfOutput) :
    isBetterBlock a b = true ∨ isBetterBlock b a = true := by
  unfold isBetterBlock
  grind

/-- A better block is preferred whether it comes first or second. -/
theorem preferred_better (h : isBetterBlock b a = true) (head : Block) :
    preferred (preferred head a) b = preferred (preferred head b) a := by
  unfold preferred
  cases hb : isBetterBlock b head with
  | true =>
    rw [if_pos rfl, isBetterBlock_asymm h, if_neg Bool.false_ne_true]
    split
    · rfl
    · rfl
  | false =>
    rw [if_neg Bool.false_ne_true]
    cases ha : isBetterBlock a head with
    | true => rw [isBetterBlock_trans h ha] at hb; contradiction
    | false => rw [if_neg Bool.false_ne_true, hb, if_neg Bool.false_ne_true]

/-- The order of two blocks that differ in slot or VRF output does not matter to the fork choice. -/
theorem preferred_comm (h : a.header.slot = b.header.slot →
    a.header.vrfOutput ≠ b.header.vrfOutput) (head : Block) :
    preferred (preferred head a) b = preferred (preferred head b) a := by
  rcases isBetterBlock_total h with hab | hba
  · exact (preferred_better hab head).symm
  · exact preferred_better hba head

end Consensus

/-- The transaction registers or unregisters a validator. -/
def Transaction.ManagesValidators (tx : Transaction) : Prop :=
  (∃ stake, tx.data = .registerValidator stake) ∨ tx.data = .unregisterValidator

/-- Only such transactions change the validator set. -/
theorem ValidatorSet.foldl_managed_of_none {txs : List Transaction}
    (hnone : ∀ tx ∈ txs, ¬ tx.ManagesValidators) (set : ValidatorSet) (epoch : UInt64) :
    txs.foldl (managed · epoch) set = set := by
  induction txs with
  | nil => rfl
  | cons tx rest ih =>
    have hkept : set.managed epoch tx = set := by
      have htx := hnone tx List.mem_cons_self
      rcases set.managed_cases epoch tx with ⟨stake, hdata, -⟩ | ⟨hdata, -⟩ | hkept
      · exact absurd (.inl ⟨stake, hdata⟩) htx
      · exact absurd (.inr hdata) htx
      · exact hkept
    rw [List.foldl_cons, hkept]
    exact ih fun other hother => hnone other (List.mem_cons_of_mem tx hother)

/-- Whatever the ledger, each of two lists of transactions succeeds or fails alike before and after the
other, and either order leaves the same ledger. -/
structure Ledger.Independent (crypto : Crypto) (txs txs' : List Transaction) : Prop where
  first : ∀ ledger : Ledger, ((ledger.settle crypto txs').2.settle crypto txs).1 =
    (ledger.settle crypto txs).1
  second : ∀ ledger : Ledger, ((ledger.settle crypto txs).2.settle crypto txs').1 =
    (ledger.settle crypto txs').1
  after : ∀ ledger : Ledger, ((ledger.settle crypto txs).2.settle crypto txs').2 =
    ((ledger.settle crypto txs').2.settle crypto txs).2

theorem Ledger.Independent.symm {txs txs' : List Transaction}
    (h : Ledger.Independent crypto txs txs') : Ledger.Independent crypto txs' txs :=
  ⟨h.second, h.first, fun ledger => (h.after ledger).symm⟩

/-- No transactions are independent of any. -/
theorem Ledger.independent_nil (txs : List Transaction) : Ledger.Independent crypto txs [] := by
  constructor
  · intro ledger
    rw [settle_nil]
  · intro ledger
    rw [settle_nil, settle_nil]
  · intro ledger
    rw [settle_nil, settle_nil]

/-- Two blocks do not meddle with each other: their transactions are independent, and neither carries
one that changes the validator set. -/
structure Block.Independent (crypto : Crypto) (a b : Block) : Prop where
  ledger : Ledger.Independent crypto a.transactions b.transactions
  first : ∀ tx ∈ a.transactions, ¬ tx.ManagesValidators
  second : ∀ tx ∈ b.transactions, ¬ tx.ManagesValidators

theorem Block.Independent.symm {a b : Block} (h : Block.Independent crypto a b) :
    Block.Independent crypto b a :=
  ⟨h.ledger.symm, h.second, h.first⟩

/-- An empty block meddles with no block that leaves the validator set alone. -/
theorem Block.independent_of_empty {a b : Block} (hempty : b.transactions = [])
    (hnone : ∀ tx ∈ a.transactions, ¬ tx.ManagesValidators) : Block.Independent crypto a b := by
  refine ⟨?_, hnone, ?_⟩
  · rw [hempty]
    exact Ledger.independent_nil a.transactions
  · rw [hempty]
    exact fun tx htx => by cases htx

namespace Replica

variable {a b : Block} {replica : Replica}

theorem take_of_admits (h : replica.admits crypto b = true) :
    replica.take crypto b = replica.settle crypto b := if_pos h

theorem take_of_not_admits (h : replica.admits crypto b = false) :
    replica.take crypto b = replica := by
  rw [take, h, if_neg Bool.false_ne_true]

/-- A block without validator management leaves the validators alone, and of the stored blocks those
of other hashes. -/
theorem take_frame (hnone : ∀ tx ∈ a.transactions, ¬ tx.ManagesValidators) (replica : Replica) :
    (replica.take crypto a).validators = replica.validators ∧
      ∀ hash ≠ a.hash, (replica.take crypto a).blocks.lookup hash = replica.blocks.lookup hash := by
  unfold take settle
  split
  · split
    · refine ⟨ValidatorSet.foldl_managed_of_none hnone _ _, fun hash hother => ?_⟩
      exact (FiniteMap.lookup_insert_ite _ _ _ _).trans (if_neg hother)
    · exact ⟨rfl, fun _ _ => rfl⟩
  · exact ⟨rfl, fun _ _ => rfl⟩

/-- Such a block does not decide on the admission of another that is not its child. -/
theorem admits_take (hnone : ∀ tx ∈ a.transactions, ¬ tx.ManagesValidators)
    (hchild : b.header.parentHash ≠ a.hash) :
    (replica.take crypto a).admits crypto b = replica.admits crypto b := by
  obtain ⟨hvalidators, hblocks⟩ := take_frame hnone replica
  unfold admits
  rw [hvalidators, hblocks _ hchild]

/-- Independent blocks settle in either order. -/
theorem settle_comm (hindependent : Block.Independent crypto a b) (hhash : a.hash ≠ b.hash)
    (htie : a.header.slot = b.header.slot → a.header.vrfOutput ≠ b.header.vrfOutput)
    (replica : Replica) : (replica.settle crypto a).settle crypto b =
      (replica.settle crypto b).settle crypto a := by
  obtain ⟨hfirst, hsecond, hafter⟩ := hindependent.ledger
  have hkeepA := ValidatorSet.foldl_managed_of_none hindependent.first
  have hkeepB := ValidatorSet.foldl_managed_of_none hindependent.second
  have hblocks : (replica.blocks.insert a.hash a).insert b.hash b =
    (replica.blocks.insert b.hash b).insert a.hash a := Finmap.insert_insert_of_ne _ hhash
  have hhead := Consensus.preferred_comm htie replica.head
  rcases ha : replica.ledger.settle crypto a.transactions with ⟨acceptedA, ledgerA⟩
  rcases hb : replica.ledger.settle crypto b.transactions with ⟨acceptedB, ledgerB⟩
  have hresultA := hfirst replica.ledger
  have hresultB := hsecond replica.ledger
  have hledger := hafter replica.ledger
  rw [ha, hb] at hresultA hresultB hledger
  dsimp only at hresultA hresultB hledger
  have hba := Prod.fst_eq_iff.mp hresultA
  have hab := Prod.fst_eq_iff.mp hresultB
  rw [hledger] at hab
  generalize (ledgerB.settle crypto a.transactions).2 = ledger at hab hba
  cases acceptedA with
  | false =>
    cases acceptedB with
    | false => simp only [settle, ha, hb, hab, hba]
    | true => simp only [settle, store, ha, hb, hab, hba]
  | true =>
    cases acceptedB with
    | false => simp only [settle, store, ha, hb, hab, hba]
    | true =>
      simp only [settle, store, ha, hb, hab, hba, hkeepA, hkeepB]
      rw [hblocks, hhead]

/-- The order in which two independent blocks are taken does not matter, if neither is the other's
parent. -/
theorem take_comm (hindependent : Block.Independent crypto a b) (hhash : a.hash ≠ b.hash)
    (htie : a.header.slot = b.header.slot → a.header.vrfOutput ≠ b.header.vrfOutput)
    (hchild : b.header.parentHash ≠ a.hash) (hchild' : a.header.parentHash ≠ b.hash)
    (replica : Replica) : (replica.take crypto a).take crypto b =
      (replica.take crypto b).take crypto a := by
  have hb : (replica.take crypto a).admits crypto b = replica.admits crypto b :=
    admits_take hindependent.first hchild
  have ha : (replica.take crypto b).admits crypto a = replica.admits crypto a :=
    admits_take hindependent.second hchild'
  cases hadmitsA : replica.admits crypto a with
  | true =>
    cases hadmitsB : replica.admits crypto b with
    | true =>
      rw [take_of_admits (hb.trans hadmitsB), take_of_admits (ha.trans hadmitsA),
        take_of_admits hadmitsA, take_of_admits hadmitsB]
      exact settle_comm hindependent hhash htie replica
    | false =>
      rw [take_of_not_admits (hb.trans hadmitsB), take_of_not_admits hadmitsB]
  | false =>
    rw [take_of_not_admits (ha.trans hadmitsA), take_of_not_admits hadmitsA]

/-- On a grown replica, blocks that leave each other alone if both can be accepted are taken in either
order. -/
theorem take_comm_of_grown {genesisBlock : Block} {blocks : Finset Block} (ha : a ∈ blocks)
    (hb : b ∈ blocks)
    (hcomm : Viable crypto genesisBlock blocks a → Viable crypto genesisBlock blocks b →
      (replica.take crypto a).take crypto b = (replica.take crypto b).take crypto a)
    (hgrown : replica.Grown crypto genesisBlock blocks) :
    (replica.take crypto a).take crypto b = (replica.take crypto b).take crypto a := by
  -- a block that cannot be accepted is not admitted
  have hidle : ∀ {c : Block} {replica : Replica}, c ∈ blocks → ¬ Viable crypto genesisBlock blocks c →
      replica.Grown crypto genesisBlock blocks → replica.take crypto c = replica := by
    intro c replica hc hnot hgrown
    exact take_of_not_admits (Bool.not_eq_true _ ▸ fun hadmits => hnot (hgrown.viable hc hadmits))
  by_cases hviableA : Viable crypto genesisBlock blocks a
  · by_cases hviableB : Viable crypto genesisBlock blocks b
    · exact hcomm hviableA hviableB
    · rw [hidle hb hviableB (hgrown.take ha), hidle hb hviableB hgrown]
  · rw [hidle ha hviableA (hgrown.take hb), hidle ha hviableA hgrown]

end Replica

namespace Chain

/-- The first block is the parent of the second. -/
def ParentOf (parent block : Block) : Prop := block.header.parentHash = parent.hash

/-- The first block is an ancestor of the second, by parent links between blocks of the set. -/
def AncestorIn (blocks : Finset Block) : Block → Block → Prop :=
  Relation.TransGen (OrderedFold.LinkAmong (· ∈ blocks) ParentOf)

/-- Two blocks that are on different branches. -/
def Beside (blocks : Finset Block) (a b : Block) : Prop :=
  a ≠ b ∧ ¬ AncestorIn blocks a b ∧ ¬ AncestorIn blocks b a

/-- All blocks of a set, each once and parents before their children. -/
structure ParentsFirst (blocks : Finset Block) (order : List Block) : Prop where
  nodup : order.Nodup
  mem : ∀ block, block ∈ order ↔ block ∈ blocks
  parents : OrderedFold.Keeps ParentOf order

/-- No two blocks of the set have equal slots and equal VRF outputs. -/
def NoTie (blocks : Finset Block) : Prop :=
  ∀ a ∈ blocks, ∀ b ∈ blocks, a ≠ b → a.header.slot = b.header.slot →
    a.header.vrfOutput ≠ b.header.vrfOutput

/-- Any two blocks on different branches that can be accepted do not meddle with each other. -/
def BranchesIndependent (crypto : Crypto) (genesisBlock : Block) (blocks : Finset Block) : Prop :=
  ∀ a b, Replica.Viable crypto genesisBlock blocks a → Replica.Viable crypto genesisBlock blocks b →
    Beside blocks a b → Block.Independent crypto a b

variable {genesisBlock : Block} {blocks : Finset Block} {order order' : List Block}

/-- Blocks of different slots are distinct, of different proposals, and not tied. -/
theorem distinct_of_slots (hslots : order.Pairwise fun a b => a.header.slot ≠ b.header.slot)
    (hmem : ∀ block, block ∈ order ↔ block ∈ blocks) :
    order.Nodup ∧ OneProposal blocks ∧ NoTie blocks := by
  have : Std.Symm fun a b : Block => a.header.slot ≠ b.header.slot := ⟨fun _ _ h => h.symm⟩
  have hdiffer : ∀ a ∈ blocks, ∀ b ∈ blocks, a ≠ b → a.header.slot ≠ b.header.slot :=
    fun a ha b hb => hslots.forall ((hmem a).mpr ha) ((hmem b).mpr hb)
  refine ⟨hslots.imp fun hne heq => hne (congrArg (fun block => block.header.slot) heq),
    fun a ha b hb hne hslot => ?_, fun a ha b hb hne hslot => ?_⟩
  · exact absurd hslot (hdiffer a ha b hb hne)
  · exact absurd hslot (hdiffer a ha b hb hne)

/-- What a replica makes of the blocks does not depend on their order. -/
theorem foldl_take_eq (htie : NoTie blocks) (hown : OwnHashes crypto genesisBlock blocks)
    (hindependent : BranchesIndependent crypto genesisBlock blocks)
    (horder : ParentsFirst blocks order) (horder' : ParentsFirst blocks order') {first : Replica}
    (hgrown : first.Grown crypto genesisBlock blocks) :
    order.foldl (Replica.take crypto) first = order'.foldl (Replica.take crypto) first := by
  have hperm : order.Perm order' := (List.perm_ext_iff_of_nodup horder.nodup horder'.nodup).mpr
    fun block => (horder.mem block).trans (horder'.mem block).symm
  refine OrderedFold.foldl_eq (Replica.Grown crypto genesisBlock blocks) hperm horder.nodup
    (horder.parents.chains (fun block => (horder.mem block).mpr) horder.nodup)
    (horder'.parents.chains (fun block => (horder'.mem block).mpr) horder'.nodup)
    (fun block hblock replica hgrown => hgrown.take ((horder.mem block).mp hblock)) ?_ hgrown
  intro a ha b hb hne hab hba replica
  have ha := (horder.mem a).mp ha
  have hb := (horder.mem b).mp hb
  apply Replica.take_comm_of_grown ha hb
  intro hviableA hviableB
  exact Replica.take_comm (hindependent a b hviableA hviableB ⟨hne, hab, hba⟩)
    (hown.hashes a b hviableA hviableB hne) (htie a ha b hb hne)
    (fun hlink => hab (.single ⟨ha, hb, hlink⟩)) (fun hlink => hba (.single ⟨hb, ha, hlink⟩)) replica

/-- A node set up on a database without blocks and headers follows its fresh replica. -/
theorem follows_of_start {storage : Storage} {balances stakes : List (Bytes × UInt64)} {host : Host}
    {opened chain : Chain} {calls : List (Call Chain Request Bool)}
    (hproposal : OneProposal blocks) (hown : OwnHashes crypto genesisBlock blocks)
    (hblocks : storage.blocks = ∅) (hfresh : storage.head = none) (hheaders : storage.headers = ∅)
    (hhost : host.Reliable)
    (hopened : Chain.start crypto host storage genesisBlock balances stakes = some opened)
    (hrun : Run (serve crypto) opened calls chain) (hdelivers : Delivers calls order)
    (horder : ParentsFirst blocks order)
    (hreliable : ∀ call ∈ calls, call.label.host.Reliable)
    (hroots : ∀ call ∈ calls, ∀ block ∈ call.label.delivered, call.pre.RootAgrees crypto block) :
    Follows crypto genesisBlock blocks (.fresh storage.accounts genesisBlock balances stakes) order calls
      chain := by
  refine follows_of_run hproposal hown (shows_of_start hblocks hfresh hhost hopened)
    (Replica.grown_fresh storage.accounts balances stakes) ?_ ?_ hrun hdelivers horder.nodup
    (fun block => (horder.mem block).mp) hreliable hroots
  · obtain ⟨hseen, hstored, -⟩ := records_of_start hopened
    intro slot pubkey hash hrecord
    unfold OnRecord at hrecord
    rw [hseen, hstored, hheaders] at hrecord
    simp at hrecord
  · intro hash block hblock
    obtain ⟨hgenesis, -⟩ := start_on_fresh hblocks hfresh hopened
    exact (eq_genesis_of_getBlock hgenesis hblock).2

/-- Two runs accept the same blocks and end with the same head. -/
structure Agree (blocks : Finset Block) (calls calls' : List (Call Chain Request Bool))
    (chain chain' : Chain) : Prop where
  accepted : ∀ block ∈ blocks, AcceptedIn calls block ↔ AcceptedIn calls' block
  head : chain.head = chain'.head

/-- Two nodes with the same genesis block, funded accounts and validators are given the same blocks,
parents first: no two of one validator in one slot, no two of equal slot and VRF output. If the blocks
that can be accepted have hashes of their own and do not meddle across branches, if no delivery is
stopped at the state root and all writes succeed, then the nodes agree. -/
theorem agree_of_runs {storage : Storage} {balances stakes : List (Bytes × UInt64)}
    {host host' : Host} {opened opened' chain chain' : Chain}
    {calls calls' : List (Call Chain Request Bool)}
    (hblocks : storage.blocks = ∅) (hfresh : storage.head = none) (hheaders : storage.headers = ∅)
    (hhost : host.Reliable) (hhost' : host'.Reliable)
    (hopened : Chain.start crypto host storage genesisBlock balances stakes = some opened)
    (hopened' : Chain.start crypto host' storage genesisBlock balances stakes = some opened')
    (hproposal : OneProposal blocks) (htie : NoTie blocks)
    (horder : ParentsFirst blocks order) (horder' : ParentsFirst blocks order')
    (hrun : Run (serve crypto) opened calls chain) (hdelivers : Delivers calls order)
    (hrun' : Run (serve crypto) opened' calls' chain') (hdelivers' : Delivers calls' order')
    (hreliable : ∀ call ∈ calls, call.label.host.Reliable)
    (hreliable' : ∀ call ∈ calls', call.label.host.Reliable)
    (hown : OwnHashes crypto genesisBlock blocks)
    (hindependent : BranchesIndependent crypto genesisBlock blocks)
    (hroots : ∀ call ∈ calls, ∀ block ∈ call.label.delivered, call.pre.RootAgrees crypto block)
    (hroots' : ∀ call ∈ calls', ∀ block ∈ call.label.delivered, call.pre.RootAgrees crypto block) :
    Agree blocks calls calls' chain chain' := by
  have hfollows := follows_of_start hproposal hown hblocks hfresh hheaders hhost hopened hrun hdelivers
    horder hreliable hroots
  have hfollows' := follows_of_start hproposal hown hblocks hfresh hheaders hhost' hopened' hrun'
    hdelivers' horder' hreliable' hroots'
  have hsame := foldl_take_eq htie hown hindependent horder horder'
    (Replica.grown_fresh storage.accounts balances stakes)
  constructor
  · intro block hblock
    rw [hfollows.accepted block ((horder.mem block).mpr hblock),
      hfollows'.accepted block ((horder'.mem block).mpr hblock), hfollows.shows.lookup,
      hfollows'.shows.lookup, hsame]
  · rw [hfollows.shows.headHash, hfollows'.shows.headHash, hsame]

/-- A branch of two blocks in which Alice pays Bob, and an empty block beside it. -/
def payment : Block := Sample.block Sample.genesis 1 [Sample.transfer 10 0]

def nextPayment : Block := Sample.block payment 3 [Sample.transfer 5 1]

def emptyBeside : Block := Sample.block Sample.genesis 2 []

/-- Payments leave the validator set alone. -/
theorem not_managesValidators_transfer (amount nonce : UInt64) :
    ¬ (Sample.transfer amount nonce).ManagesValidators := by
  unfold Transaction.ManagesValidators
  rw [Sample.data_transfer]
  simp

/-- The two branches do not meddle with each other. -/
theorem branchesIndependent_payments (crypto : Crypto) (genesisBlock : Block) :
    BranchesIndependent crypto genesisBlock {payment, nextPayment, emptyBeside} := by
  have hpays : ∀ tx ∈ payment.transactions, ¬ tx.ManagesValidators := by
    intro tx htx
    obtain rfl := List.mem_singleton.mp htx
    exact not_managesValidators_transfer 10 0
  have hpaysNext : ∀ tx ∈ nextPayment.transactions, ¬ tx.ManagesValidators := by
    intro tx htx
    obtain rfl := List.mem_singleton.mp htx
    exact not_managesValidators_transfer 5 1
  have hnext : AncestorIn {payment, nextPayment, emptyBeside} payment nextPayment :=
    .single ⟨by simp only [Finset.mem_insert, true_or], by simp only [Finset.mem_insert, true_or, or_true],
      Sample.parentHash_block payment 3 [Sample.transfer 5 1]⟩
  have hempty : emptyBeside.transactions = [] := Sample.transactions_block Sample.genesis 2 []
  have hmem : ∀ a, Replica.Viable crypto genesisBlock {payment, nextPayment, emptyBeside} a →
      a = payment ∨ a = nextPayment ∨ a = emptyBeside := by
    intro a hviable
    simpa only [Finset.mem_insert, Finset.mem_singleton] using hviable.mem
  intro a b ha hb ⟨hne, hab, hba⟩
  rcases hmem b hb with rfl | rfl | rfl
  · rcases hmem a ha with rfl | rfl | rfl
    · exact absurd rfl hne
    · exact absurd hnext hba
    · exact (Block.independent_of_empty hempty hpays).symm
  · rcases hmem a ha with rfl | rfl | rfl
    · exact absurd hnext hab
    · exact absurd rfl hne
    · exact (Block.independent_of_empty hempty hpaysNext).symm
  · rcases hmem a ha with rfl | rfl | rfl
    · exact Block.independent_of_empty hempty hpays
    · exact Block.independent_of_empty hempty hpaysNext
    · exact absurd rfl hne

/-- The blocks of both branches, in the order of the branches and in the order of slots. -/
def branchOrder : List Block := [payment, nextPayment, emptyBeside]

def slotOrder : List Block := [emptyBeside, payment, nextPayment]

/-- Given in two orders, the three blocks are all accepted by both nodes, which end with one head. -/
theorem agree_of_runs_payments :
    ∃ opened calls calls' chain chain', Sample.start = some opened ∧
      Run (serve Crypto.plain) opened calls chain ∧ Delivers calls branchOrder ∧
      Run (serve Crypto.plain) opened calls' chain' ∧ Delivers calls' slotOrder ∧
      calls.map Call.output = [true, true, true] ∧ calls'.map Call.output = [true, true, true] ∧
      Agree {payment, nextPayment, emptyBeside} calls calls' chain chain' := by
  obtain ⟨opened, calls, chain, hstart, hrun, hlabels, hcheck⟩ := Run.exists_of_trace_from
    (serve Crypto.plain) Sample.start (branchOrder.map (.deliver Host.plain))
    (fun _ calls _ => decide (calls.map Call.output = [true, true, true])) (by decide +kernel)
  obtain ⟨opened', calls', chain', hstart', hrun', hlabels', hcheck'⟩ := Run.exists_of_trace_from
    (serve Crypto.plain) Sample.start (slotOrder.map (.deliver Host.plain))
    (fun _ calls _ => decide (calls.map Call.output = [true, true, true])) (by decide +kernel)
  obtain rfl := Option.some.inj (hstart.symm.trans hstart')
  have hreliable := Sample.reliable_of_labels hlabels (by simp [branchOrder, Request.host])
  have hreliable' := Sample.reliable_of_labels hlabels' (by simp [slotOrder, Request.host])
  have hdelivers := delivers_of_labels hlabels
  have hdelivers' := delivers_of_labels hlabels'
  have hmem : ∀ block, block ∈ branchOrder ↔
      block ∈ ({payment, nextPayment, emptyBeside} : Finset Block) := by
    intro block
    simp only [branchOrder, List.mem_cons, List.not_mem_nil, or_false, Finset.mem_insert,
      Finset.mem_singleton]
  have hmem' : ∀ block, block ∈ slotOrder ↔
      block ∈ ({payment, nextPayment, emptyBeside} : Finset Block) := by
    intro block
    simp only [slotOrder, List.mem_cons, List.not_mem_nil, or_false, Finset.mem_insert,
      Finset.mem_singleton]
    exact or_comm.trans or_assoc
  obtain ⟨hnodup, hproposal, htie⟩ := distinct_of_slots (by decide +kernel) hmem
  obtain ⟨hnodup', -, -⟩ := distinct_of_slots (by decide +kernel) hmem'
  have hhashes : branchOrder.Pairwise fun a b => a.hash ≠ b.hash := by decide +kernel
  have hroots : ∀ block ∈ branchOrder, block.header.stateRoot = "" := by decide +kernel
  have hgenesis : ∀ block ∈ branchOrder, block.hash ≠ Sample.genesis.hash := by decide +kernel
  have : Std.Symm fun a b : Block => a.hash ≠ b.hash := ⟨fun _ _ h => h.symm⟩
  refine ⟨opened, calls, calls', chain, chain', hstart, hrun, hdelivers, hrun', hdelivers',
    of_decide_eq_true hcheck, of_decide_eq_true hcheck', agree_of_runs rfl rfl rfl Host.plain_reliable
      Host.plain_reliable hstart hstart' hproposal htie ⟨hnodup, hmem, ?_⟩ ⟨hnodup', hmem', ?_⟩ hrun
      hdelivers hrun' hdelivers' hreliable hreliable' ⟨fun a ha => ?_, fun a b ha hb => ?_⟩
      (branchesIndependent_payments _ _) (fun call hcall block hblock _ _ => .inl ?_)
      (fun call hcall block hblock _ _ => .inl ?_)⟩
  · unfold OrderedFold.Keeps ParentOf
    decide +kernel
  · unfold OrderedFold.Keeps ParentOf
    decide +kernel
  · exact hgenesis a ((hmem a).mpr ha.mem)
  · exact hhashes.forall ((hmem a).mpr ha.mem) ((hmem b).mpr hb.mem)
  · exact hroots block (hdelivers.mem hcall hblock)
  · exact hroots block ((hmem block).mpr ((hmem' block).mp (hdelivers'.mem hcall hblock)))

/-- A block beside the payment in which Alice spends the same nonce. -/
def rivalPayment : Block := Sample.block Sample.genesis 2 [Sample.transfer 20 0]

/-- Whichever comes first is accepted and becomes the head, and the other is rejected. -/
theorem split_by_rivalPayment :
    ∃ blocks opened calls calls' chain chain', Sample.start = some opened ∧
      OneProposal blocks ∧ NoTie blocks ∧ ParentsFirst blocks [payment, rivalPayment] ∧
      ParentsFirst blocks [rivalPayment, payment] ∧
      Run (serve Crypto.plain) opened calls chain ∧ Delivers calls [payment, rivalPayment] ∧
      Run (serve Crypto.plain) opened calls' chain' ∧ Delivers calls' [rivalPayment, payment] ∧
      calls.map Call.output = [true, false] ∧ calls'.map Call.output = [true, false] ∧
      ¬ Agree blocks calls calls' chain chain' := by
  obtain ⟨opened, calls, chain, hstart, hrun, hlabels, hcheck⟩ := Run.exists_of_trace_from
    (serve Crypto.plain) Sample.start ([payment, rivalPayment].map (.deliver Host.plain))
    (fun _ calls chain => decide (calls.map Call.output = [true, false] ∧
      chain.head = payment.hash)) (by decide +kernel)
  obtain ⟨opened', calls', chain', hstart', hrun', hlabels', hcheck'⟩ := Run.exists_of_trace_from
    (serve Crypto.plain) Sample.start ([rivalPayment, payment].map (.deliver Host.plain))
    (fun _ calls chain => decide (calls.map Call.output = [true, false] ∧
      chain.head = rivalPayment.hash)) (by decide +kernel)
  obtain ⟨houtputs, hhead⟩ := of_decide_eq_true hcheck
  obtain ⟨houtputs', hhead'⟩ := of_decide_eq_true hcheck'
  obtain rfl := Option.some.inj (hstart.symm.trans hstart')
  have hmem : ∀ block, block ∈ [payment, rivalPayment] ↔
      block ∈ ({payment, rivalPayment} : Finset Block) := by
    intro block
    rw [List.mem_pair, Finset.mem_insert, Finset.mem_singleton]
  have hmem' : ∀ block, block ∈ [rivalPayment, payment] ↔
      block ∈ ({payment, rivalPayment} : Finset Block) := by
    intro block
    rw [List.mem_pair, Finset.mem_insert, Finset.mem_singleton, or_comm]
  obtain ⟨hnodup, hproposal, htie⟩ := distinct_of_slots (by decide +kernel) hmem
  obtain ⟨hnodup', -, -⟩ := distinct_of_slots (by decide +kernel) hmem'
  refine ⟨{payment, rivalPayment}, opened, calls, calls', chain, chain', hstart, hproposal, htie,
    ⟨hnodup, hmem, ?_⟩, ⟨hnodup', hmem', ?_⟩, hrun, delivers_of_labels hlabels, hrun',
    delivers_of_labels hlabels', houtputs, houtputs', fun hagree => ?_⟩
  · unfold OrderedFold.Keeps ParentOf
    decide +kernel
  · unfold OrderedFold.Keeps ParentOf
    decide +kernel
  · have hne : payment.hash ≠ rivalPayment.hash := by decide +kernel
    exact hne (hhead.symm.trans (hagree.head.trans hhead'))

end Chain

end Nocostcoin
