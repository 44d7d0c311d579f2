import Nocostcoin.Batch
import Nocostcoin.Chain.Acceptance
import Nocostcoin.Node.Step

/-!
# Whether a produced block passes its own transaction check

The mempool admits a transaction by itself, against the state of that moment, and offers whatever it
holds in the order of the nonces. Its transactions are valid in every run; whether the selected ones can
be executed one after another is up to what senders sent.
-/

namespace Nocostcoin

open Execution

variable {crypto : Crypto}

/-- Every transaction of the mempool is valid. -/
def Mempool.Validated (crypto : Crypto) (mempool : Mempool) : Prop :=
  ∀ signature tx, mempool.transactions.lookup signature = some tx → tx.validate crypto = .ok ()

/-- A new mempool holds nothing. -/
theorem Mempool.validated_new (capacity : ℕ) : (Mempool.new capacity).Validated crypto := by
  intro signature tx h
  contradiction

namespace Storage

/-- Pruning leaves the accounts alone. -/
theorem accounts_pruneHeights (eraser : Eraser) (chainHeadHash : String) (remaining : ℕ)
    (height deletedCount : UInt64) (storage : Storage) :
    (pruneHeights eraser chainHeadHash remaining height deletedCount storage).2.accounts =
      storage.accounts := by
  induction remaining generalizing height deletedCount storage with
  | zero => rfl
  | succ remaining ih =>
    rw [pruneHeights]
    split
    · exact ih ..
    · split
      · rfl
      · dsimp only
        split
        · exact ih ..
        · unfold deleteBlock
          split
          · rename_i hdeleted
            split at hdeleted
            · simp at hdeleted
            · rw [← (Prod.mk.inj hdeleted).2]
              rfl
          · rename_i hdeleted
            split at hdeleted
            · rw [ih, ← (Prod.mk.inj hdeleted).2]
              rfl
            · simp at hdeleted

end Storage

namespace Node

variable {node node' opened : Node} {calls : List (Call Node Event (List NetworkCommand))}

/-- Elementary changes keep the mempool valid. -/
theorem Changes.validated (h : Changes crypto node node') (hvalid : node.mempool.Validated crypto) :
    node'.mempool.Validated crypto := by
  induction h with
  | refl => exact hvalid
  | tail _ hchange ih =>
    cases hchange with
    | deliver | vote | prune | record => exact ih
    | remove txs =>
      intro signature tx hlookup
      exact ih signature tx (Mempool.lookup_of_removeTransactions hlookup)
    | enter hadmitted =>
      intro signature found hlookup
      dsimp only at hlookup
      rw [FiniteMap.lookup_insert_ite] at hlookup
      split at hlookup
      · rw [← Option.some.inj hlookup]
        exact Mempool.validate_of_admission hadmitted
      · exact ih signature found hlookup

/-- In every run the mempool is valid. -/
theorem validated_of_run (hrun : Run (handle crypto) opened calls node)
    (hopened : opened.mempool.Validated crypto) : node.mempool.Validated crypto := by
  refine hrun.invariant (fun node => node.mempool.Validated crypto) (fun _ _ => True) hopened
    (fun before event commands after hvalid _ h => ?_) fun _ _ => trivial
  obtain ⟨mid, hchanges, hafter⟩ := changes_of_handle h
  rw [hafter]
  exact hchanges.validated hvalid

/-- Pruning leaves the ledger of the stored accounts alone. -/
theorem ledger_of_prune {tick : Tick} (h : node.prune tick = some node') :
    node'.chain.state.discardChanges.ledger = node.chain.state.discardChanges.ledger := by
  have hkept : ∀ storage : Storage, storage.accounts = node.chain.storage.accounts →
      (node.chain.withStorage storage).state.discardChanges.ledger =
        node.chain.state.discardChanges.ledger := by
    intro storage haccounts
    have hsame : (node.chain.withStorage storage).state.discardChanges.accounts =
        node.chain.state.discardChanges.accounts :=
      congrArg (fun stored => (∅ : FiniteMap Bytes Account) ∪ stored) haccounts
    unfold State.ledger
    rw [hsame]
    rfl
  unfold prune at h
  split at h
  · obtain ⟨height, -, hprune⟩ := Option.bind_eq_some_iff.mp h
    dsimp only at hprune
    split at hprune
    · rw [← Option.some.inj hprune]
      exact hkept _ (Storage.accounts_pruneHeights ..)
    · rw [← Option.some.inj hprune]
  · rw [← Option.some.inj h]

/-- The generated transfer of a slot keeps the mempool valid. -/
theorem validated_simulate (host : Host) (tick : Tick) (hvalid : node.mempool.Validated crypto) :
    (node.simulate crypto host tick).2.mempool.Validated crypto :=
  (local_simulate crypto host node tick).changes.validated hvalid

/-- Selected transactions of a valid mempool can be executed exactly when the state is ready for them. -/
theorem selection_isOk_iff {host : Host} (state : State) (hvalid : node.mempool.Validated crypto) :
    (Chain.processTransactions crypto state (node.mempool.getTransactionsForBlock host 100)).1 = .ok () ↔
      Ready crypto state (node.mempool.getTransactionsForBlock host 100) := by
  refine Chain.processTransactions_isOk_iff fun tx htx => ?_
  obtain ⟨signature, hlookup⟩ := Mempool.lookup_of_selected htx
  exact hvalid signature tx hlookup

/-- A node starts with an empty mempool. -/
theorem validated_of_start {host : Host} {storage : Storage} {genesisBlock : Block}
    {balances stakes : List (Bytes × UInt64)} {claims : FiniteMap Bytes Int64}
    {validatorKey myAddress : Bytes}
    (h : start crypto host storage genesisBlock balances stakes claims validatorKey myAddress =
      some opened) : opened.mempool.Validated crypto := by
  obtain ⟨chain, -, hopened⟩ := Option.bind_eq_some_iff.mp h
  rw [← Option.some.inj hopened]
  exact Mempool.validated_new 1000

/-- The node of a slot when it selects transactions: after the slot was entered and a transfer was
generated, if one was. -/
def selecting (crypto : Crypto) (host : Host) (node : Node) (tick : Tick) : Node :=
  ({ node with lastSlot := tick.currentSlot }.simulate crypto host tick).2

/-- In every run of a node and in any slot: the transactions that are selected can be executed on the
current state exactly when that state is ready for them, and the block made of them passes the
transaction check of `add_block` exactly when the stored accounts and the registries are. -/
theorem selection_executes_iff {host slotHost : Host} {storage : Storage} {genesisBlock : Block}
    {balances stakes : List (Bytes × UInt64)} {claims : FiniteMap Bytes Int64}
    {validatorKey myAddress : Bytes}
    (hopened : start crypto host storage genesisBlock balances stakes claims validatorKey myAddress =
      some opened)
    (hrun : Run (handle crypto) opened calls node) (tick : Tick) :
    let ready := node.selecting crypto slotHost tick
    let selected := ready.mempool.getTransactionsForBlock slotHost 100
    ((Chain.processTransactions crypto ready.chain.state selected).1 = .ok () ↔
        Ready crypto ready.chain.state selected) ∧
      ∀ parent pruned, ready.prune tick = some pruned →
        let block := produceBlock crypto parent tick.currentSlot ready.validatorKey selected
          tick.timestamp
        ((Chain.processTransactions crypto pruned.chain.state.discardChanges
            block.transactions).1 = .ok () ↔
          Ready crypto ready.chain.state.discardChanges selected) := by
  intro ready selected
  have hreached : node.mempool.Validated crypto := validated_of_run hrun (validated_of_start hopened)
  have hentered : ({ node with lastSlot := tick.currentSlot } : Node).mempool.Validated crypto :=
    hreached
  have hvalid : ready.mempool.Validated crypto := validated_simulate slotHost tick hentered
  refine ⟨selection_isOk_iff ready.chain.state hvalid, fun parent pruned hpruned => ?_⟩
  intro block
  have hsame := (Chain.processTransactions_congr crypto (ledger_of_prune hpruned) selected).1
  rw [← selection_isOk_iff ready.chain.state.discardChanges hvalid, ← hsame]
  rfl

/-- A transfer that skips a nonce comes by gossip, and two slots follow. -/
def nonceGap : List Event :=
  [.transaction (Sample.transfer 10 1), .slot Host.plain (Sample.tick 1)]

/-- The transfer is admitted and selected and fails, in the first slot and in the next: no block is
broadcast and the transfer stays. -/
theorem selected_nonce_gap_fails :
    ∃ opened calls call last, Sample.node = some opened ∧
      Run (handle Crypto.plain) opened (calls ++ [call]) last ∧ calls.map Call.label = nonceGap ∧
      call.label = .slot Host.plain (Sample.tick 2) ∧
      let selected := call.pre.mempool.getTransactionsForBlock Host.plain 100
      (Chain.processTransactions Crypto.plain call.pre.chain.state selected).1 ≠ .ok () ∧
        (Chain.processTransactions Crypto.plain call.pre.chain.state.discardChanges selected).1 ≠
          .ok () ∧
        call.output.isEmpty ∧ call.post.mempool.getTransactionsForBlock Host.plain 100 = selected := by
  obtain ⟨opened, calls, call, last, hstart, hrun, hlabels, hlabel, hcheck⟩ :=
    Run.exists_last_of_trace_from (handle Crypto.plain) Sample.node nonceGap
      (.slot Host.plain (Sample.tick 2)) (fun call =>
        let selected := call.pre.mempool.getTransactionsForBlock Host.plain 100
        decide ((Chain.processTransactions Crypto.plain call.pre.chain.state selected).1 ≠ .ok () ∧
          (Chain.processTransactions Crypto.plain call.pre.chain.state.discardChanges selected).1 ≠
            .ok () ∧
          call.output.isEmpty ∧
          call.post.mempool.getTransactionsForBlock Host.plain 100 = selected)) (by decide +kernel)
  exact ⟨opened, calls, call, last, hstart, hrun, hlabels, hlabel, of_decide_eq_true hcheck⟩

/-- Around a transfer with the right nonce the equivalences hold and the selected list is that
transfer. -/
theorem selection_of_next_nonce :
    ∃ opened calls node, Sample.node = some opened ∧ Run (handle Crypto.plain) opened calls node ∧
      calls.map Call.label = [.transaction (Sample.transfer 10 0)] ∧
      let tick := Sample.tick 1
      let ready := node.selecting Crypto.plain Host.plain tick
      let selected := ready.mempool.getTransactionsForBlock Host.plain 100
      selected = [Sample.transfer 10 0] ∧
      ((Chain.processTransactions Crypto.plain ready.chain.state selected).1 = .ok () ↔
          Ready Crypto.plain ready.chain.state selected) ∧
        ∀ parent pruned, ready.prune tick = some pruned →
          let block := produceBlock Crypto.plain parent tick.currentSlot ready.validatorKey selected
            tick.timestamp
          ((Chain.processTransactions Crypto.plain pruned.chain.state.discardChanges
              block.transactions).1 = .ok () ↔
            Ready Crypto.plain ready.chain.state.discardChanges selected) := by
  obtain ⟨opened, calls, node, hopened, hrun, hlabels, hcheck⟩ := Run.exists_of_trace_from
    (handle Crypto.plain) Sample.node [.transaction (Sample.transfer 10 0)]
    (fun _ _ node =>
      let ready := node.selecting Crypto.plain Host.plain (Sample.tick 1)
      decide (ready.mempool.getTransactionsForBlock Host.plain 100 = [Sample.transfer 10 0]))
    (by decide +kernel)
  exact ⟨opened, calls, node, hopened, hrun, hlabels, of_decide_eq_true hcheck,
    selection_executes_iff hopened hrun (Sample.tick 1)⟩

end Node

end Nocostcoin
