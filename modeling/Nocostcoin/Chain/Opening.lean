import Nocostcoin.Commit
import Nocostcoin.Chain

/-!
# Opening a node

What `Chain::new` and a node's set-up leave: the stored head taken over, or the genesis block
stored as the head; the accounts of the database with some balances set; empty registries and an
empty overlay.
-/

namespace Nocostcoin

/-- The database after it was opened: a database without a head gets the genesis block. -/
def Storage.opened (storage : Storage) (genesisBlock : Block) : Storage :=
  match storage.head with
  | some _ => storage
  | none => { storage with
      blocks := storage.blocks.insert genesisBlock.hash genesisBlock
      head := some genesisBlock.hash }

/-- Opening leaves the accounts alone. -/
@[simp] theorem Storage.accounts_opened (storage : Storage) (genesisBlock : Block) :
    (storage.opened genesisBlock).accounts = storage.accounts := by
  unfold opened
  split <;> rfl

/-- An account table after some balances were set. -/
def fundedAccounts (accounts : FiniteMap Bytes Account) (balances : List (Bytes × UInt64)) :
    FiniteMap Bytes Account :=
  balances.foldl (fun accounts entry => accounts.insert entry.1
    { (accounts.lookup entry.1).getD (Account.new 0) with balance := entry.2 }) accounts

/-- Setting balances changes no nonce; an account it creates starts at zero. -/
theorem nonce_fundedAccounts (accounts : FiniteMap Bytes Account) (balances : List (Bytes × UInt64))
    (address : Bytes) :
    (((fundedAccounts accounts balances).lookup address).map Account.nonce).getD 0 =
      ((accounts.lookup address).map Account.nonce).getD 0 := by
  induction balances generalizing accounts with
  | nil => rfl
  | cons entry rest ih =>
    apply (ih _).trans
    rw [FiniteMap.lookup_insert_ite]
    split
    · rename_i heq
      rw [heq]
      cases accounts.lookup entry.1 <;> rfl
    · rfl

namespace State

/-- Setting balances rewrites the account table and nothing else but the overlay. -/
theorem foldl_setBalance (balances : List (Bytes × UInt64)) (state : State) :
    ∃ pending, balances.foldl (fun state entry => state.setBalance entry.1 entry.2) state =
        { state with pendingChanges := pending } ∧
      State.accounts { state with pendingChanges := pending } =
        fundedAccounts state.accounts balances := by
  induction balances generalizing state with
  | nil => exact ⟨state.pendingChanges, rfl, rfl⟩
  | cons entry rest ih =>
    obtain ⟨pending, hfold, haccounts⟩ := ih (state.setBalance entry.1 entry.2)
    refine ⟨pending, hfold, haccounts.trans ?_⟩
    unfold fundedAccounts setBalance
    rw [List.foldl_cons, accounts_insertPending, accountOrNew, getAccount_eq_lookup]

end State

namespace Chain

variable {crypto : Crypto} {host : Host} {storage : Storage} {genesisBlock : Block} {chain : Chain}

/-- The head and the database that `Chain::new` starts from, where it does not panic. -/
theorem openHead_eq {head : String} {opened : Storage}
    (h : openHead host storage genesisBlock = some (head, opened)) :
    head = storage.head.getD genesisBlock.hash ∧ opened = storage.opened genesisBlock := by
  unfold openHead at h
  unfold Storage.opened
  cases hhead : storage.head with
  | some stored =>
    rw [hhead] at h
    obtain ⟨rfl, rfl⟩ := Prod.mk.inj (Option.some.inj h)
    exact ⟨rfl, rfl⟩
  | none =>
    rw [hhead] at h
    dsimp only at h
    split at h
    · contradiction
    · rename_i written hblock
      split at h
      · contradiction
      · rename_i hwrite
        obtain ⟨rfl, rfl⟩ := Prod.mk.inj (Option.some.inj h)
        rw [Storage.write_ok hwrite, Storage.write_ok hblock]
        exact ⟨rfl, rfl⟩

/-- `Chain::new`, where it does not panic. -/
theorem new_eq (h : new crypto host storage genesisBlock = some chain) :
    ∃ trie, chain =
      { head := storage.head.getD genesisBlock.hash
        state := { State.empty with storage := storage.opened genesisBlock, trie }
        validators := .new
        seenHeaders := ∅
        votes := ∅
        finalizedHead := storage.head.getD genesisBlock.hash } := by
  obtain ⟨⟨head, opened⟩, hopen, h⟩ := Option.bind_eq_some_iff.mp h
  obtain ⟨state, hstate, h⟩ := Option.bind_eq_some_iff.mp h
  obtain ⟨trie, -, hstate⟩ := Option.bind_eq_some_iff.mp hstate
  obtain ⟨rfl, rfl⟩ := openHead_eq hopen
  obtain rfl := Option.some.inj hstate
  obtain rfl := Option.some.inj h
  exact ⟨trie, rfl⟩

/-- The set-up of a node on any database: some of the balances may be stored and some pending. -/
theorem start_frame {balances stakes : List (Bytes × UInt64)}
    (h : start crypto host storage genesisBlock balances stakes = some chain) :
    ∃ accounts pendingChanges trie, chain =
      { head := storage.head.getD genesisBlock.hash
        state := { State.empty with
          storage := { storage.opened genesisBlock with accounts }
          pendingChanges
          trie }
        validators := stakes.foldl
          (fun set entry => (set.registerValidator entry.1 entry.2 0).2) .new
        seenHeaders := ∅
        votes := ∅
        finalizedHead := storage.head.getD genesisBlock.hash } := by
  obtain ⟨opened, hnew, h⟩ := Option.bind_eq_some_iff.mp h
  obtain ⟨⟨result, state⟩, happly, h⟩ := Option.bind_eq_some_iff.mp h
  obtain rfl := Option.some.inj h
  obtain ⟨trie, rfl⟩ := new_eq hnew
  obtain ⟨pending, hfold, -⟩ := State.foldl_setBalance balances
    { State.empty with storage := storage.opened genesisBlock, trie }
  rw [hfold] at happly
  obtain ⟨accounts, pendingChanges, trie', rfl⟩ := State.applyChanges_frame happly
  exact ⟨accounts, pendingChanges, trie', rfl⟩

/-- The account table after a set-up, on any database: the stored one with the balances set. -/
theorem accounts_of_start {balances stakes : List (Bytes × UInt64)}
    (h : start crypto host storage genesisBlock balances stakes = some chain) :
    chain.state.accounts = fundedAccounts storage.accounts balances := by
  obtain ⟨opened, hnew, h⟩ := Option.bind_eq_some_iff.mp h
  obtain ⟨⟨result, state⟩, happly, h⟩ := Option.bind_eq_some_iff.mp h
  obtain rfl := Option.some.inj h
  obtain ⟨trie, rfl⟩ := new_eq hnew
  obtain ⟨pending, hfold, haccounts⟩ := State.foldl_setBalance balances
    { State.empty with storage := storage.opened genesisBlock, trie }
  rw [hfold] at happly
  have hstored : State.accounts { State.empty with storage := storage.opened genesisBlock, trie } =
      storage.accounts := by
    change ∅ ∪ (storage.opened genesisBlock).accounts = storage.accounts
    rw [Finmap.empty_union, Storage.accounts_opened]
  exact (State.accounts_applyChanges happly).1.trans (haccounts.trans (by rw [hstored]))

/-- The set-up of a node on a reliable database. -/
theorem start_eq (hreliable : host.Reliable) {balances stakes : List (Bytes × UInt64)}
    (h : start crypto host storage genesisBlock balances stakes = some chain) :
    ∃ trie, chain =
      { head := storage.head.getD genesisBlock.hash
        state := { State.empty with
          storage := { storage.opened genesisBlock with
            accounts := fundedAccounts storage.accounts balances }
          trie }
        validators := stakes.foldl
          (fun set entry => (set.registerValidator entry.1 entry.2 0).2) .new
        seenHeaders := ∅
        votes := ∅
        finalizedHead := storage.head.getD genesisBlock.hash } := by
  obtain ⟨opened, hnew, h⟩ := Option.bind_eq_some_iff.mp h
  obtain ⟨⟨result, state⟩, happly, h⟩ := Option.bind_eq_some_iff.mp h
  obtain rfl := Option.some.inj h
  obtain ⟨trie, rfl⟩ := new_eq hnew
  obtain ⟨pending, hfold, haccounts⟩ := State.foldl_setBalance balances
    { State.empty with storage := storage.opened genesisBlock, trie }
  rw [hfold] at happly
  obtain ⟨-, trie', rfl⟩ := State.applyChanges_reliable hreliable happly
  refine ⟨trie', ?_⟩
  rw [haccounts]
  have hstored : State.accounts { State.empty with storage := storage.opened genesisBlock, trie } =
      storage.accounts := by
    change ∅ ∪ (storage.opened genesisBlock).accounts = storage.accounts
    rw [Finmap.empty_union, Storage.accounts_opened]
  rw [hstored]
  rfl

end Chain

end Nocostcoin
