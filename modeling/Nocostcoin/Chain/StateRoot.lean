import Nocostcoin.Chain.Acceptance
import Nocostcoin.Node

/-!
# The state root of a header

`add_block` compares the root that a header names with the trie before the block's accounts are
stored. So the check is passed by the root of the state that the block started from, while the root
of the state that it leads to is known only after the commit.
-/

namespace Nocostcoin

namespace State

variable {crypto : Crypto} {host : Host}

/-- The walk of a commit does the same over other records beside the accounts. -/
theorem storeChanges_withRecords (crypto : Crypto) (host : Host) (records : Storage)
    (addresses : List Bytes) (state : State) :
    storeChanges crypto host addresses (state.withRecords records) =
      (storeChanges crypto host addresses state).map (movedOutcome (withRecords records)) := by
  induction addresses generalizing state with
  | nil => rfl
  | cons address rest ih =>
    have hpending : (state.withRecords records).pendingChanges = state.pendingChanges := rfl
    rw [storeChanges, storeChanges, hpending]
    cases state.pendingChanges.lookup address with
    | none => exact ih state
    | some account =>
      dsimp only
      unfold Storage.storeAccount Storage.write
      cases host.disk (.account address account) with
      | some error => rfl
      | none =>
        change (state.trie.insert crypto address (host.encode account)).bind _ =
          ((state.trie.insert crypto address (host.encode account)).bind _).map _
        cases state.trie.insert crypto address (host.encode account) with
        | none => rfl
        | some trie =>
          exact ih { state with storage := state.storage.put (.account address account), trie }

/-- A commit does the same over other records beside the accounts. -/
theorem applyChanges_withRecords (crypto : Crypto) (host : Host) (records : Storage) (state : State) :
    (state.withRecords records).applyChanges crypto host =
      (state.applyChanges crypto host).map (movedOutcome (withRecords records)) := by
  unfold applyChanges
  change (storeChanges crypto host (host.order state.pendingChanges.keys)
    (state.withRecords records)).bind _ = _
  rw [storeChanges_withRecords]
  cases storeChanges crypto host (host.order state.pendingChanges.keys) state with
  | none => rfl
  | some outcome =>
    obtain ⟨result, walked⟩ := outcome
    cases result <;> rfl

end State

namespace Chain

variable {crypto : Crypto} {host : Host} {chain : Chain} {block : Block} {executed committed : State}

/-- The execution inside `add_block` is that on the chain before the call, over the database with the
header recorded. -/
theorem execution_recordHeader (crypto : Crypto) (host : Host) (chain : Chain) (block : Block) :
    processTransactions crypto (chain.recordHeader host block).state.discardChanges
        block.transactions =
      State.movedOutcome (State.withRecords (chain.recordHeader host block).storage)
        (processTransactions crypto chain.state.discardChanges block.transactions) := by
  rw [← (State.unseen_withRecords _).processTransactions]
  obtain ⟨seenHeaders, headers, hrecord⟩ := recordHeader_frame host chain block
  rw [hrecord]
  rfl

/-- A commit whose accounts are all stored accepts the block exactly when there is a head block to compare
it with and the database takes it. -/
theorem commitBlock_accepts_iff (block : Block) {records : Storage}
    (hstate : chain.state = executed.withRecords records)
    (happly : executed.applyChanges crypto host = some (.ok (), committed)) :
    (∃ chain', commitBlock crypto host chain block = some (true, chain')) ↔
      chain.getHead.isSome ∧ host.disk (.block block) = none := by
  unfold commitBlock
  cases hhead : chain.getHead with
  | none => simp
  | some currentHead =>
    obtain ⟨head, stored, hchoose⟩ := chooseHead_frame host chain block currentHead
    have hbind : ∀ {α : Type} (f : Block → Option α), (some currentHead >>= f) = f currentHead :=
      fun _ => rfl
    simp only [hbind, hchoose, Storage.storeBlock, Storage.write]
    cases hdisk : host.disk (.block block) with
    | some error => simp
    | none =>
      let stocked : Storage :=
        { records with head := stored, blocks := records.blocks.insert block.hash block }
      have hblock : chain.withBlock stored block = executed.withRecords stocked := by
        unfold withBlock
        rw [hstate]
        rfl
      have happly' := executed.applyChanges_withRecords crypto host stocked
      rw [happly, ← hblock] at happly'
      change (∃ chain', ((chain.withBlock stored block).applyChanges crypto host).bind _ = _) ↔ _
      rw [happly']
      exact ⟨fun _ => ⟨rfl, rfl⟩, fun _ => ⟨_, rfl⟩⟩

/-- A block whose transactions succeed, and whose accounts the database takes, is accepted exactly when it
names no root or the current one, there is a head block, and the database takes the block. -/
theorem accepts_iff (hexecutes : chain.Executes crypto block)
    (hexec : processTransactions crypto chain.state.discardChanges block.transactions =
      (.ok (), executed))
    (happly : executed.applyChanges crypto host = some (.ok (), committed)) :
    (∃ chain', addBlock crypto host chain block = some (true, chain')) ↔
      (block.header.stateRoot = "" ∨ block.header.stateRoot = chain.state.getRootHash) ∧
        chain.getHead.isSome ∧ host.disk (.block block) = none := by
  obtain ⟨parent, hparent, hconsistent, hvalid⟩ := hexecutes
  have hdetect : chain.detectEquivocation host block = (false, chain.recordHeader host block) := by
    rcases detectEquivocation_cases host chain block with ⟨existing, hexisting, hne, -⟩ | ⟨-, hdetect⟩
    · exact absurd (hconsistent existing hexisting) hne
    · exact hdetect
  have hvalid' : Consensus.validateBlock crypto block parent
      (chain.recordHeader host block).validators = .ok () := by rwa [validators_recordHeader]
  have hexec' := execution_recordHeader crypto host chain block
  rw [hexec] at hexec'
  have htrie : executed.trie = chain.state.trie := by
    have hkept := (storage_processTransactions crypto chain.state.discardChanges block.transactions).2
    rwa [hexec] at hkept
  have hhead : ((chain.recordHeader host block).withState
      (executed.withRecords (chain.recordHeader host block).storage)).getHead = chain.getHead := by
    obtain ⟨seenHeaders, headers, hrecord⟩ := recordHeader_frame host chain block
    rw [hrecord]
    rfl
  have hstate : ((chain.recordHeader host block).withState
      (executed.withRecords (chain.recordHeader host block).storage)).state =
    executed.withRecords (chain.recordHeader host block).storage := rfl
  have hcommit := commitBlock_accepts_iff block hstate happly
  rw [hhead] at hcommit
  unfold addBlock
  rw [hparent]
  dsimp only
  rw [hdetect]
  dsimp only
  rw [hvalid']
  dsimp only
  rw [hexec']
  change (∃ chain', (if block.header.stateRoot ≠ "" ∧ block.header.stateRoot ≠ executed.trie.rootHash
    then _ else _) = some (true, chain')) ↔ _
  rw [htrie]
  by_cases hother : block.header.stateRoot ≠ "" ∧ block.header.stateRoot ≠ chain.state.trie.rootHash
  · rw [if_pos hother]
    have hneither := not_or.mpr hother
    refine ⟨fun ⟨chain', hfalse⟩ => by simp at hfalse, fun hboth => absurd hboth.1 hneither⟩
  · rw [if_neg hother]
    have hnamed : block.header.stateRoot = "" ∨ block.header.stateRoot = chain.state.getRootHash := by
      by_contra hneither
      exact hother (not_or.mp hneither)
    rw [and_iff_right hnamed]
    exact hcommit

/-- For every chain and every block that names a root, passes the parent, equivocation and consensus checks
and executes to a state that the database takes in full: the block is accepted just when it names the root
after its commit, exactly when this root and the one before it are both named or both not named.
Where the head block is not stored, or the block is not taken, nothing is accepted. -/
theorem stateRoot_committed_iff (hroot : block.header.stateRoot ≠ "")
    (hexecutes : chain.Executes crypto block)
    (hexec : processTransactions crypto chain.state.discardChanges block.transactions =
      (.ok (), executed))
    (happly : executed.applyChanges crypto host = some (.ok (), committed)) :
    ((∃ chain', addBlock crypto host chain block = some (true, chain')) ↔
        block.header.stateRoot = committed.getRootHash) ↔
      ((block.header.stateRoot = chain.state.getRootHash ∧ chain.getHead.isSome ∧
          host.disk (.block block) = none) ↔
        block.header.stateRoot = committed.getRootHash) := by
  rw [accepts_iff hexecutes hexec happly]
  simp only [hroot, false_or]

/-- The first block of the validator, with some transactions and a root named in its header. -/
def rootedBlock (stateRoot : String) (transactions : List Transaction) : Block :=
  let block := Sample.block Sample.genesis 1 transactions
  Block.new Crypto.plain { block.header with stateRoot } transactions

/-- What a check of a block's execution and commit on the sample network finds. -/
theorem exists_committed (block : Block) (check : Chain → State → Bool)
    (h : Sample.start.any (fun opened =>
      (opened.existingHash block.header.slot block.header.validatorPubkey).isNone &&
      (opened.getBlock block.header.parentHash).any (fun parent =>
        decide (Consensus.validateBlock Crypto.plain block parent opened.validators = .ok ())) &&
      let (result, executed) :=
        processTransactions Crypto.plain opened.state.discardChanges block.transactions
      decide (result = .ok ()) && (executed.applyChanges Crypto.plain Host.plain).any fun outcome =>
        decide (outcome.1 = .ok ()) && check opened outcome.2) = true) :
    ∃ opened executed committed, Sample.start = some opened ∧
      opened.Executes Crypto.plain block ∧
      processTransactions Crypto.plain opened.state.discardChanges block.transactions =
        (.ok (), executed) ∧
      executed.applyChanges Crypto.plain Host.plain = some (.ok (), committed) ∧
      check opened committed = true := by
  obtain ⟨opened, hstart, hchecks⟩ := (Option.any_eq_true _ _).mp h
  simp only [Bool.and_eq_true, decide_eq_true_eq, Option.isNone_iff_eq_none] at hchecks
  obtain ⟨⟨hfresh, hvalid⟩, hresult, hcommit⟩ := hchecks
  obtain ⟨parent, hparent, hvalid⟩ := (Option.any_eq_true _ _).mp hvalid
  obtain ⟨⟨result, committed⟩, happly, hcheck⟩ := (Option.any_eq_true _ _).mp hcommit
  obtain ⟨hdone, hcheck⟩ := Bool.and_eq_true_iff.mp hcheck
  obtain rfl : result = .ok () := of_decide_eq_true hdone
  refine ⟨opened, _, committed, hstart,
    ⟨parent, hparent, fun existing hexisting => ?_, of_decide_eq_true hvalid⟩,
    Prod.ext hresult rfl, happly, hcheck⟩
  exact absurd (hfresh.symm.trans hexisting) (by simp)

/-- A payment of five coins, with the root of the ledger after it. -/
def rootedPayment : Block :=
  rootedBlock "d6a02f380bd35bfed2eb9915551ffa0e0b9700ece2a775c383ef930a429a09ba" [Sample.transfer 5 0]

/-- It names the root that its commit leads to, and is rejected. -/
theorem root_after_commit_rejected :
    ∃ opened executed committed, Sample.start = some opened ∧
      rootedPayment.header.stateRoot ≠ "" ∧ opened.Executes Crypto.plain rootedPayment ∧
      processTransactions Crypto.plain opened.state.discardChanges rootedPayment.transactions =
        (.ok (), executed) ∧
      executed.applyChanges Crypto.plain Host.plain = some (.ok (), committed) ∧
      rootedPayment.header.stateRoot = committed.getRootHash ∧
      ¬ ∃ chain', addBlock Crypto.plain Host.plain opened rootedPayment = some (true, chain') := by
  obtain ⟨opened, executed, committed, hstart, hexecutes, hexec, happly, hcheck⟩ :=
    exists_committed rootedPayment (fun opened committed =>
      decide (rootedPayment.header.stateRoot = committed.getRootHash ∧
        (addBlock Crypto.plain Host.plain opened rootedPayment).map Prod.fst = some false))
      (by decide +kernel)
  obtain ⟨hroot, hrejected⟩ := of_decide_eq_true hcheck
  refine ⟨opened, executed, committed, hstart, by decide, hexecutes, hexec, happly, hroot, ?_⟩
  rintro ⟨chain', haccepted⟩
  rw [haccepted] at hrejected
  simp at hrejected

/-- An empty block, with the root of the ledger that it leaves alone. -/
def rootedEmpty : Block :=
  rootedBlock "5008b8b219dd6b29c1077662ed541c3a8ef824b12f6b35bb817b75a5bfd831e3" []

/-- The payment again, with a root that is none. -/
def misrootedPayment : Block := rootedBlock "00" [Sample.transfer 5 0]

/-- The empty block names the root before and after its commit, and is accepted; the payment names neither, and
is not. -/
theorem stateRoot_committed_both_or_neither :
    ∃ opened executed committed executed' committed', Sample.start = some opened ∧
      processTransactions Crypto.plain opened.state.discardChanges rootedEmpty.transactions =
        (.ok (), executed) ∧
      executed.applyChanges Crypto.plain Host.plain = some (.ok (), committed) ∧
      rootedEmpty.header.stateRoot = committed.getRootHash ∧
      ((∃ chain', addBlock Crypto.plain Host.plain opened rootedEmpty = some (true, chain')) ↔
        rootedEmpty.header.stateRoot = committed.getRootHash) ∧
      processTransactions Crypto.plain opened.state.discardChanges misrootedPayment.transactions =
        (.ok (), executed') ∧
      executed'.applyChanges Crypto.plain Host.plain = some (.ok (), committed') ∧
      misrootedPayment.header.stateRoot ≠ committed'.getRootHash ∧
      ((∃ chain', addBlock Crypto.plain Host.plain opened misrootedPayment = some (true, chain')) ↔
        misrootedPayment.header.stateRoot = committed'.getRootHash) := by
  obtain ⟨opened, executed, committed, hstart, hexecutes, hexec, happly, hcheck⟩ :=
    exists_committed rootedEmpty (fun opened committed => decide (
      rootedEmpty.header.stateRoot = opened.state.getRootHash ∧
      rootedEmpty.header.stateRoot = committed.getRootHash ∧ opened.getHead.isSome)) (by decide +kernel)
  obtain ⟨hcurrent, hroot, hhead⟩ := of_decide_eq_true hcheck
  obtain ⟨opened', executed', committed', hstart', hexecutes', hexec', happly', hcheck'⟩ :=
    exists_committed misrootedPayment (fun opened committed => decide (
      misrootedPayment.header.stateRoot ≠ opened.state.getRootHash ∧
      misrootedPayment.header.stateRoot ≠ committed.getRootHash)) (by decide +kernel)
  obtain ⟨hother, hnone⟩ := of_decide_eq_true hcheck'
  obtain rfl := Option.some.inj (hstart.symm.trans hstart')
  refine ⟨opened, executed, committed, executed', committed', hstart, hexec, happly, hroot, ?_, hexec', happly',
    hnone, ?_⟩
  · refine (stateRoot_committed_iff (by decide) hexecutes hexec happly).mpr ?_
    exact iff_of_true ⟨hcurrent, hhead, rfl⟩ hroot
  · refine (stateRoot_committed_iff (by decide) hexecutes' hexec' happly').mpr ?_
    exact iff_of_false (fun hnamed => hother hnamed.1) hnone

end Chain

end Nocostcoin
