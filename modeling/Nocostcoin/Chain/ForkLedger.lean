import Nocostcoin.Chain.BlockTree
import Nocostcoin.Chain.Rollback

/-!
# The ledger and the forks

There is one ledger, and every accepted block takes effect on it, whether the block joins the head's
branch or another. The ledger is that of the head's branch as long as blocks beside it are empty.
-/

namespace Nocostcoin

open Execution

variable {crypto : Crypto}

/-- No transactions leave the ledger as it was. -/
theorem Ledger.execute_nil (ledger : Ledger) : ledger.execute crypto [] = (.ok (), ledger) := by
  change (_, ledger.toState.ledger) = _
  rw [ledger_toState]

/-- Execution on a bare ledger goes on after transactions that all succeed. -/
theorem Ledger.execute_append {ledger ledger' : Ledger} {txs : List Transaction}
    (h : ledger.execute crypto txs = (.ok (), ledger')) (rest : List Transaction) :
    ledger.execute crypto (txs ++ rest) = ledger'.execute crypto rest := by
  obtain ⟨hresult, rfl⟩ := Prod.mk.inj h
  have hfirst := Prod.fst_eq_iff.mp hresult
  unfold execute at hfirst ⊢
  rw [Chain.processTransactions_append hfirst]
  exact Chain.ledger_processTransactions crypto _ rest

/-- The transactions of a list of blocks, in order. -/
def transactionsOf (blocks : List Block) : List Transaction := blocks.flatMap Block.transactions

namespace Chain

variable {host : Host} {chain chain' start : Chain} {block parent : Block} {accepted : Bool}
  {genesisHash : String} {initial ledger : Ledger} {path : List Block}

/-- The blocks on the branch of a stored block, from the one after the genesis block to itself. -/
def Branch (genesisHash : String) (chain : Chain) (hash : String) (path : List Block) : Prop :=
  ParentTree.Path genesisHash Block.parentHash chain.getBlock genesisHash hash path

/-- The chain reports the balances, the nonces and the registries of a ledger. -/
structure Reports (chain : Chain) (ledger : Ledger) : Prop where
  balance : ∀ address, chain.state.getBalance address = ledger.toState.getBalance address
  nonce : ∀ address, chain.state.getNonce address = ledger.toState.getNonce address
  assets : chain.state.assets = ledger.assets
  collections : chain.state.collections = ledger.collections
  channels : chain.state.channels = ledger.channels

/-- A chain reports its own ledger. -/
theorem reports_ledger (chain : Chain) : chain.Reports chain.state.ledger := by
  refine ⟨fun address => ?_, fun address => ?_, rfl, rfl, rfl⟩
  · rw [Ledger.toState_ledger, State.getBalance_eq, State.getBalance_eq, State.accountOrNew_flat]
  · rw [Ledger.toState_ledger, State.getNonce_flat]

/-- The chain reports what the transactions on the head's branch make of the initial ledger. -/
def LedgerOfHead (crypto : Crypto) (genesisHash : String) (initial : Ledger) (chain : Chain) : Prop :=
  ∃ path ledger, chain.Branch genesisHash chain.head path ∧
    initial.execute crypto (transactionsOf path) = (.ok (), ledger) ∧ chain.Reports ledger

/-- Between two calls the overlay is empty, and the ledger is that of the head's branch. -/
structure OnHead (crypto : Crypto) (genesisHash : String) (initial : Ledger) (chain : Chain) :
    Prop where
  rooted : chain.Rooted genesisHash
  pending : chain.state.pendingChanges = ∅
  branch : ∃ path, chain.Branch genesisHash chain.head path ∧
    initial.execute crypto (transactionsOf path) = (.ok (), chain.state.ledger)

/-- A delivered block gets as far as its execution. -/
def ReachesExecution (crypto : Crypto) (chain : Chain) (block : Block) : Prop :=
  ∃ parent, chain.getBlock block.header.parentHash = some parent ∧ chain.Consistent block ∧
    Consensus.validateBlock crypto block parent chain.validators = .ok ()

/-- A delivered block does no harm to the ledger of the head's branch: it takes no other stored
block's hash; if it is accepted and becomes the head, its parent's branch has the transactions that
the head's branch has; if it is accepted beside the head, it has no transactions; and if its
execution fails, it leaves nothing in the registries. -/
structure KeepsLedger (crypto : Crypto) (genesisHash : String) (chain : Chain) (block : Block) :
    Prop where
  fresh : ∀ parent, chain.Passes crypto block parent →
    ∀ other, chain.getBlock block.hash = some other → other = block
  ahead : ∀ parent currentHead, chain.Passes crypto block parent → chain.getHead = some currentHead →
    Consensus.isBetterBlock block currentHead = true → ∀ parentPath headPath,
      chain.Branch genesisHash block.parentHash parentPath →
      chain.Branch genesisHash chain.head headPath →
        transactionsOf parentPath = transactionsOf headPath
  beside : ∀ parent currentHead, chain.Passes crypto block parent → chain.getHead = some currentHead →
    Consensus.isBetterBlock block currentHead = false → block.transactions = []
  harmless : ReachesExecution crypto chain block →
    ∀ before failing, ExecutionFails crypto chain block before failing →
      Harmless crypto chain.state.discardChanges before failing

/-- An execution that fails does so at some transaction. -/
theorem exists_failing {s s' : State} {txs : List Transaction} {error : String}
    (h : processTransactions crypto s txs = (.error error, s')) :
    ∃ before tx after s₁, txs = before ++ tx :: after ∧
      processTransactions crypto s before = (.ok (), s₁) ∧
      processTransaction crypto s₁ tx = (.error error, s') := by
  induction txs generalizing s with
  | nil => simp [processTransactions] at h
  | cons tx rest ih =>
    rw [processTransactions] at h
    split at h
    · rename_i hfirst
      exact ⟨[], tx, rest, s, rfl, rfl, hfirst.trans h⟩
    · rename_i next hfirst
      obtain ⟨before, failing, after, s₁, rfl, hbefore, hfailing⟩ := ih h
      refine ⟨tx :: before, failing, after, s₁, rfl, ?_, hfailing⟩
      rw [processTransactions, hfirst]
      exact hbefore

/-- A block that is executed and rolled back without harm leaves the ledger as it was, if the overlay
was empty. -/
theorem ledger_of_rollback {result : Except String Unit} {state : State}
    (hpending : chain.state.pendingChanges = ∅)
    (hexec : processTransactions crypto (chain.recordHeader host block).state.discardChanges
      block.transactions = (result, state))
    (hharmless : chain.state.discardChanges.SameRegistries
      (processTransactions crypto chain.state.discardChanges block.transactions).2) :
    state.discardChanges.ledger = chain.state.ledger := by
  obtain ⟨headers, hstorage⟩ := storage_of_execution_frame hexec
  obtain ⟨-, hassets, hcollections, hchannels⟩ := Ledger.mk.inj (execution_eq hexec).2
  have haccounts : state.discardChanges.accounts = chain.state.accounts := by
    change ∅ ∪ state.storage.accounts = chain.state.pendingChanges ∪ chain.state.storage.accounts
    rw [hstorage, hpending]
  unfold State.ledger
  rw [haccounts]
  congr 1
  · exact hassets.trans hharmless.assets
  · exact hcollections.trans hharmless.collections
  · exact hchannels.trans hharmless.channels

/-- A rejected delivery that does no harm leaves overlay and ledger as they were. -/
theorem ledger_of_rejection (hreliable : host.Reliable) (hpending : chain.state.pendingChanges = ∅)
    (hharmless : ReachesExecution crypto chain block →
      ∀ before failing, ExecutionFails crypto chain block before failing →
        Harmless crypto chain.state.discardChanges before failing)
    (h : Delivery crypto host chain block false chain') :
    chain'.state.pendingChanges = ∅ ∧ chain'.state.ledger = chain.state.ledger := by
  cases h with
  | orphan => exact ⟨hpending, rfl⟩
  | equivocation => exact ⟨hpending, rfl⟩
  | invalid =>
    obtain ⟨seenHeaders, headers, hrecord⟩ := recordHeader_frame host chain block
    rw [hrecord]
    exact ⟨hpending, rfl⟩
  | failed hparent hconsistent hvalid hexec =>
    have hreaches : ReachesExecution crypto chain block := ⟨_, hparent, hconsistent, hvalid⟩
    refine ⟨rfl, ledger_of_rollback hpending hexec ?_⟩
    obtain ⟨before, tx, after, s₁, hblock, hbefore, hfailing⟩ :=
      exists_failing (Prod.fst_eq_iff.mp (execution_eq hexec).1)
    have hfails := ExecutionFails.failed hblock hbefore hfailing
    exact (sameRegistries_of_execution_iff hfails).mpr (hharmless hreaches _ _ hfails)
  | mismatch hparent hconsistent hvalid hexec hroot =>
    have hreaches : ReachesExecution crypto chain block := ⟨_, hparent, hconsistent, hvalid⟩
    refine ⟨rfl, ledger_of_rollback hpending hexec ?_⟩
    have hbefore := Prod.fst_eq_iff.mp (execution_eq hexec).1
    have htrie : (processTransactions crypto chain.state.discardChanges block.transactions).2.trie =
        chain.state.trie :=
      (storage_processTransactions crypto chain.state.discardChanges block.transactions).2
    rw [State.getRootHash, trie_of_execution hexec, ← htrie] at hroot
    have hfails := ExecutionFails.mismatch hbefore hroot
    exact (sameRegistries_of_execution_iff hfails).mpr (hharmless hreaches _ _ hfails)
  | commit _ _ _ hexec _ hcommit =>
    obtain ⟨hfalse, -⟩ := commitBlock_reliable hreliable hcommit
    contradiction

/-- A block that passes the checks does not carry the hash of the genesis block. -/
theorem hash_ne_genesis (hrooted : chain.Rooted genesisHash)
    (hpasses : chain.Passes crypto block parent)
    (hfresh : ∀ other, chain.getBlock block.hash = some other → other = block) :
    block.hash ≠ genesisHash := by
  intro heq
  obtain ⟨genesis, hgenesis⟩ := Option.isSome_iff_exists.mp hrooted.root
  obtain rfl := hfresh genesis (heq ▸ hgenesis)
  have hle := (hrooted.descends hpasses.stored).rank_le hrooted.grounded
  rw [slotOf_eq hgenesis, slotOf_eq hpasses.stored] at hle
  exact absurd (UInt64.lt_iff_toNat_lt.mp (slot_lt_of_valid hpasses.valid)) (Nat.not_lt.mpr hle)

/-- Over an empty overlay an accepted block does to the ledger what its transactions do. -/
theorem execute_of_acceptance (hpending : chain.state.pendingChanges = ∅)
    (hnone : ∀ tx ∈ block.transactions, tx.data ≠ .unregisterValidator)
    (haccept : Acceptance crypto chain block chain') :
    chain.state.ledger.execute crypto block.transactions = (.ok (), chain'.state.ledger) := by
  have hsettled : ∀ {c : Chain}, c.state.pendingChanges = ∅ → c.state.discardChanges = c.state :=
    fun hempty => by rw [State.discardChanges, ← hempty]
  obtain ⟨parent, hpasses⟩ := haccept.passes
  have hexec := ledger_processTransactions crypto chain.state.discardChanges block.transactions
  rw [← hsettled (haccept.pending hnone), haccept.ledger, ← hpasses.executes]
  rw [hsettled hpending] at hexec ⊢
  exact hexec.symm

/-- An accepted block's branch is its parent's branch and the block. -/
theorem branch_of_acceptance (hrooted : chain.Rooted genesisHash)
    (hpasses : chain.Passes crypto block parent)
    (hfresh : ∀ other, chain.getBlock block.hash = some other → other = block)
    (haccept : Acceptance crypto chain block chain') (hgrows : chain.Grows chain')
    (hpath : chain.Branch genesisHash block.parentHash path) :
    chain'.Branch genesisHash block.hash (path ++ [block]) := by
  have hstored : chain'.getBlock block.hash = some block := by
    unfold getBlock Storage.getBlock
    rw [haccept.blocks, FiniteMap.lookup_insert_ite, if_pos rfl]
  exact .child (hash_ne_genesis hrooted hpasses hfresh) hstored (hpath.grow hgrows)

/-- A delivery that keeps the ledger of the head's branch. -/
theorem onHead_of_delivery (hreliable : host.Reliable)
    (hnone : ∀ tx ∈ block.transactions, tx.data ≠ .unregisterValidator)
    (honHead : chain.OnHead crypto genesisHash initial)
    (hkeeps : chain.KeepsLedger crypto genesisHash block)
    (h : addBlock crypto host chain block = some (accepted, chain')) :
    chain'.OnHead crypto genesisHash initial := by
  have hblocks : chain.KeepsBlocks crypto (.deliver host block) := by
    intro host' block' parent hrequest hpasses
    obtain ⟨-, rfl⟩ := Request.deliver.inj hrequest
    exact hkeeps.fresh parent hpasses
  have hrunning : (Request.deliver host block).Running := trivial
  have hserve : serve crypto chain (.deliver host block) = some (accepted, chain') := h
  have hgrows := grows_of_serve hrunning hblocks hserve
  have hrooted := rooted_of_serve honHead.rooted hrunning hblocks hserve
  obtain ⟨path, hpath, hledger⟩ := honHead.branch
  have hdelivery := delivery_of_addBlock h
  rcases acceptance_or_rejection hreliable hdelivery with ⟨-, haccept⟩ | ⟨rfl, -, hreject⟩
  · obtain ⟨parent, hpasses⟩ := haccept.passes
    obtain ⟨currentHead, hcurrent, hhead⟩ := haccept.head
    have hexecute := execute_of_acceptance honHead.pending hnone haccept
    refine ⟨hrooted, haccept.pending hnone, ?_⟩
    cases hbetter : Consensus.isBetterBlock block currentHead with
    | true =>
      -- the new head's branch has the transactions of the old one's, and then its own
      rw [hbetter, if_pos rfl] at hhead
      obtain ⟨parentPath, hparentPath⟩ := honHead.rooted.descends hpasses.stored
      have hsame := hkeeps.ahead parent currentHead hpasses hcurrent hbetter parentPath path
        hparentPath hpath
      have happend : transactionsOf (parentPath ++ [block]) =
          transactionsOf path ++ block.transactions := by
        rw [← hsame]
        simp [transactionsOf]
      refine ⟨parentPath ++ [block], ?_, ?_⟩
      · rw [hhead]
        exact branch_of_acceptance honHead.rooted hpasses (hkeeps.fresh parent hpasses) haccept hgrows
          hparentPath
      · rw [happend, Ledger.execute_append hledger]
        exact hexecute
    | false =>
      rw [hbetter, if_neg Bool.false_ne_true] at hhead
      have hempty := hkeeps.beside parent currentHead hpasses hcurrent hbetter
      refine ⟨path, hhead ▸ hpath.grow hgrows, ?_⟩
      rw [hempty] at hexecute
      rw [hledger, ← hexecute, Ledger.execute_nil]
  · obtain ⟨hpending, hsame⟩ := ledger_of_rejection hreliable honHead.pending hkeeps.harmless hdelivery
    refine ⟨hrooted, hpending, path, ?_, ?_⟩
    · rw [hreject.head]
      exact hpath.grow hgrows
    · rw [hsame]
      exact hledger

/-- A fresh node is on its head: the genesis block, with nothing executed. -/
theorem onHead_of_start {storage : Storage} {genesisBlock : Block}
    {balances stakes : List (Bytes × UInt64)} (hblocks : storage.blocks = ∅)
    (hfresh : storage.head = none) (hhost : host.Reliable)
    (hopened : Chain.start crypto host storage genesisBlock balances stakes = some chain) :
    chain.OnHead crypto genesisBlock.hash chain.state.ledger := by
  obtain ⟨hgenesis, -, hhead, -⟩ := start_on_fresh hblocks hfresh hopened
  refine ⟨rooted_of_genesis hgenesis, ?_, [], ?_, ?_⟩
  · obtain ⟨trie, rfl⟩ := start_eq hhost hopened
    rfl
  · rw [hhead]
    exact .refl
  · exact Ledger.execute_nil chain.state.ledger

/-- In every run of deliveries on a fresh node, over reliable databases and without
`UnregisterValidator`, whose blocks do no harm to the ledger of the head's branch: after every call
the chain reports what the transactions on the head's branch make of the initial accounts. -/
theorem ledgerOfHead_of_run {storage : Storage} {genesisBlock : Block}
    {balances stakes : List (Bytes × UInt64)} {opened : Chain}
    {calls : List (Call Chain Request Bool)} (hblocks : storage.blocks = ∅)
    (hfresh : storage.head = none) (hhost : host.Reliable)
    (hopened : Chain.start crypto host storage genesisBlock balances stakes = some opened)
    (hrun : Run (serve crypto) opened calls chain)
    (hdeliveries : ∀ call ∈ calls, ∃ block, call.label.delivered = some block)
    (hreliable : ∀ call ∈ calls, call.label.host.Reliable)
    (hnone : ∀ call ∈ calls, ∀ block ∈ call.label.delivered, ∀ tx ∈ block.transactions,
      tx.data ≠ .unregisterValidator)
    (hkeeps : ∀ call ∈ calls, ∀ block ∈ call.label.delivered,
      call.pre.KeepsLedger crypto genesisBlock.hash block) :
    ∀ call ∈ calls, call.post.LedgerOfHead crypto genesisBlock.hash opened.state.ledger := by
  intro call hcall
  have honHead := (Run.invariant_of_mem
    (fun s => s.OnHead crypto genesisBlock.hash opened.state.ledger)
    (fun s request => ∃ block, request.delivered = some block ∧ request.host.Reliable ∧
      (∀ tx ∈ block.transactions, tx.data ≠ .unregisterValidator) ∧
      s.KeepsLedger crypto genesisBlock.hash block)
    (onHead_of_start hblocks hfresh hhost hopened) ?_ hrun ?_ hcall).2
  · obtain ⟨path, hpath, hledger⟩ := honHead.branch
    exact ⟨path, _, hpath, hledger, reports_ledger call.post⟩
  · rintro s (⟨host, block⟩ | _ | _) output s' hinv ⟨delivered, hdelivered, hhost, htxs, hkeeps⟩ hnext
    · obtain rfl := Option.some.inj hdelivered
      exact onHead_of_delivery hhost htxs hinv hkeeps hnext
    · simp [Request.delivered] at hdelivered
    · simp [Request.delivered] at hdelivered
  · intro call hcall
    obtain ⟨block, hblock⟩ := hdeliveries call hcall
    exact ⟨block, hblock, hreliable call hcall, hnone call hcall block hblock,
      hkeeps call hcall block hblock⟩

/-- A block on the head that passes the checks and has a hash of its own keeps the ledger. -/
theorem keepsLedger_of_extension (hpasses : chain.Passes crypto block parent)
    (hhead : block.header.parentHash = chain.head) (hfresh : chain.getBlock block.hash = none) :
    chain.KeepsLedger crypto genesisHash block := by
  have hcurrent : chain.getHead = some parent := by
    have hstored := hpasses.stored
    rwa [hhead] at hstored
  have hbetter : Consensus.isBetterBlock block parent = true := by
    unfold Consensus.isBetterBlock
    rw [if_pos (slot_lt_of_valid hpasses.valid)]
  refine ⟨fun _ _ other hother => ?_, fun _ _ _ _ _ parentPath headPath hparentPath hheadPath => ?_,
    fun _ currentHead _ hcurrent' hworse => ?_, fun _ before failing hfails => ?_⟩
  · rw [hfresh] at hother
    contradiction
  · rw [Block.parentHash, hhead] at hparentPath
    rw [hparentPath.unique hheadPath]
  · obtain rfl := Option.some.inj (hcurrent.symm.trans hcurrent')
    rw [hbetter] at hworse
    contradiction
  · exact absurd hpasses hfails.not_passes

/-- An empty block of slot 2, and a block of slot 1 beside it in which Alice pays Bob. -/
def forkRequests : List Request :=
  [.deliver Host.plain (Sample.block Sample.genesis 2 []),
    .deliver Host.plain (Sample.block Sample.genesis 1 [Sample.transfer 10 0])]

/-- Both are accepted; the empty one stays the head, and the payment has been made. -/
theorem payment_beside_head :
    ∃ opened calls chain, Sample.start = some opened ∧ Run (serve Crypto.plain) opened calls chain ∧
      calls.map Call.label = forkRequests ∧ calls.map Call.output = [true, true] ∧
      ¬ chain.LedgerOfHead Crypto.plain Sample.genesis.hash opened.state.ledger := by
  obtain ⟨opened, calls, chain, hstart, hrun, hlabels, hcheck⟩ := Run.exists_of_trace_from
    (serve Crypto.plain) Sample.start forkRequests
    (fun opened calls chain => decide (calls.map Call.output = [true, true] ∧
      chain.head = (Sample.block Sample.genesis 2 []).hash ∧
      chain.getBlock (Sample.block Sample.genesis 2 []).hash =
        some (Sample.block Sample.genesis 2 []) ∧
      (Sample.block Sample.genesis 2 []).hash ≠ Sample.genesis.hash ∧
      chain.state.getNonce Sample.alice ≠ opened.state.getNonce Sample.alice)) (by decide +kernel)
  obtain ⟨houtputs, hhead, hstored, hroot, hnonce⟩ := of_decide_eq_true hcheck
  refine ⟨opened, calls, chain, hstart, hrun, hlabels, houtputs, ?_⟩
  rintro ⟨path, ledger, hpath, hledger, hreports⟩
  have hbranch : chain.Branch Sample.genesis.hash chain.head ([] ++ [Sample.block Sample.genesis 2 []]) := by
    rw [hhead]
    apply ParentTree.Path.child hroot hstored
    rw [Sample.parentHash_block]
    exact .refl
  rw [hpath.unique hbranch] at hledger
  have hempty : transactionsOf ([] ++ [Sample.block Sample.genesis 2 []]) = [] := by
    rw [transactionsOf, List.nil_append, List.flatMap_singleton, Sample.transactions_block]
  rw [hempty, Ledger.execute_nil] at hledger
  obtain rfl := (Prod.mk.inj hledger).2
  exact hnonce ((hreports.nonce Sample.alice).trans
    ((reports_ledger opened).nonce Sample.alice).symm)

/-- Two blocks in a row, each with a payment. -/
def paidRequests : List Request :=
  let first := Sample.block Sample.genesis 1 [Sample.transfer 10 0]
  [.deliver Host.plain first, .deliver Host.plain (Sample.block first 2 [Sample.transfer 5 1])]

/-- After each of them the ledger is that of the head. -/
theorem ledgerOfHead_of_run_in_a_row :
    ∃ opened calls chain, Sample.start = some opened ∧ Run (serve Crypto.plain) opened calls chain ∧
      calls.map Call.label = paidRequests ∧ calls.map Call.output = [true, true] ∧
      ∀ call ∈ calls, call.post.LedgerOfHead Crypto.plain Sample.genesis.hash opened.state.ledger := by
  obtain ⟨opened, calls, chain, hstart, hrun, hlabels, hcheck⟩ := Run.exists_of_trace_from
    (serve Crypto.plain) Sample.start paidRequests
    (fun _ calls _ => decide (calls.map Call.output = [true, true] ∧
      ∀ call ∈ calls, call.output = true ∧ call.label.delivered.isSome ∧
        ∀ block ∈ call.label.delivered.toList, block.header.parentHash = call.pre.head ∧
          call.pre.getBlock block.hash = none ∧
          ∀ tx ∈ block.transactions, tx.data ≠ .unregisterValidator)) (by decide +kernel)
  obtain ⟨houtputs, hcalls⟩ := of_decide_eq_true hcheck
  have hreliable := Sample.reliable_of_labels hlabels (by simp [paidRequests, Request.host])
  refine ⟨opened, calls, chain, hstart, hrun, hlabels, houtputs,
    ledgerOfHead_of_run rfl rfl Host.plain_reliable hstart hrun ?_ hreliable ?_ ?_⟩
  · intro call hcall
    exact Option.isSome_iff_exists.mp (hcalls call hcall).2.1
  · intro call hcall block hblock
    exact ((hcalls call hcall).2.2 block (by simpa using hblock)).2.2
  · intro call hcall block hblock
    obtain ⟨houtput, -, hdelivered⟩ := hcalls call hcall
    obtain ⟨hparent, hfresh, -⟩ := hdelivered block (by simpa using hblock)
    have hnext := hrun.next_of_mem hcall
    have hhost := hreliable call hcall
    rcases hlabel : call.label with ⟨host, delivered⟩ | _ | _
    · rw [hlabel] at hblock hnext hhost
      obtain rfl := Option.some.inj hblock
      rw [houtput] at hnext
      obtain ⟨parent, hpasses⟩ := (accepted_iff_passes hhost (delivery_of_addBlock hnext)).mp rfl
      exact keepsLedger_of_extension hpasses hparent hfresh
    · simp [hlabel, Request.delivered] at hblock
    · simp [hlabel, Request.delivered] at hblock

end Chain

end Nocostcoin
