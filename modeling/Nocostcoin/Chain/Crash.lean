import Nocostcoin.Library.Execution
import Nocostcoin.Chain.Journal
import Nocostcoin.Chain.Opening
import Nocostcoin.Node
import Nocostcoin.Trie.Bounds

/-!
# A crash during `add_block`

A crash leaves the database with the first writes of the journal only. The node then reopens what is stored:
the head record must name a stored block, and the accounts must be those before the block or after it.
-/

namespace Nocostcoin

/-- Some writes move the head. -/
def movesHead (writes : List Write) : Bool :=
  writes.any fun | .head _ => true | _ => false

/-- Some writes store a block. -/
def storesBlock (writes : List Write) : Bool :=
  writes.any fun | .block _ => true | _ => false

/-- Some writes store the account of an address. -/
def storesAccount (writes : List Write) (address : Bytes) : Bool :=
  writes.any fun | .account stored _ => decide (stored = address) | _ => false

namespace Storage

variable {block : Block} {overlay : FiniteMap Bytes Account} {writes : List Write}

/-- The head after allowed writes. -/
theorem head_putAll (storage : Storage) (hallowed : ∀ record ∈ writes, Chain.Allows block overlay record) :
    (storage.putAll writes).head = if movesHead writes then some block.hash else storage.head := by
  induction writes generalizing storage with
  | nil => rfl
  | cons record rest ih =>
    have hrest := ih (storage.put record) fun other hother => hallowed other (List.mem_cons_of_mem record hother)
    have hrecord := hallowed record List.mem_cons_self
    apply hrest.trans
    unfold movesHead
    rw [List.any_cons]
    cases record with
    | head hash =>
      rw [show hash = block.hash from hrecord]
      simp [put]
    | _ => rfl

/-- The blocks after allowed writes. -/
theorem getBlock_putAll (storage : Storage)
    (hallowed : ∀ record ∈ writes, Chain.Allows block overlay record) (hash : String) :
    (storage.putAll writes).getBlock hash =
      if storesBlock writes ∧ hash = block.hash then some block else storage.getBlock hash := by
  induction writes generalizing storage with
  | nil => simp [putAll, storesBlock]
  | cons record rest ih =>
    have hrest := ih (storage.put record) fun other hother => hallowed other (List.mem_cons_of_mem record hother)
    have hrecord := hallowed record List.mem_cons_self
    apply hrest.trans
    unfold storesBlock
    rw [List.any_cons]
    cases record with
    | block stored =>
      rw [show stored = block from hrecord]
      unfold getBlock put
      rw [FiniteMap.lookup_insert_ite]
      by_cases hsame : hash = block.hash <;> simp [hsame]
    | _ => rfl

/-- The accounts after allowed writes. -/
theorem lookup_accounts_putAll (storage : Storage)
    (hallowed : ∀ record ∈ writes, Chain.Allows block overlay record) (address : Bytes) :
    (storage.putAll writes).accounts.lookup address =
      if storesAccount writes address then overlay.lookup address else storage.accounts.lookup address := by
  induction writes generalizing storage with
  | nil => rfl
  | cons record rest ih =>
    have hrest := ih (storage.put record) fun other hother => hallowed other (List.mem_cons_of_mem record hother)
    have hrecord := hallowed record List.mem_cons_self
    apply hrest.trans
    unfold storesAccount
    rw [List.any_cons]
    cases record with
    | account stored account =>
      have hpending : overlay.lookup stored = some account := hrecord
      unfold put
      rw [FiniteMap.lookup_insert_ite]
      by_cases hsame : address = stored
      · rw [hsame, hpending]
        simp
      · simp [hsame, Ne.symm hsame]
    | _ => rfl

end Storage

namespace Chain

variable {crypto : Crypto} {host reopening : Host} {chain chain' : Chain} {block genesisBlock : Block}
  {overlay : FiniteMap Bytes Account} {writes : List Write}

/-- The stored accounts after the whole block. -/
def accountsAfter (crypto : Crypto) (host : Host) (chain : Chain) (block : Block) :
    FiniteMap Bytes Account :=
  chain.overlay crypto host block ∪ chain.storage.accounts

/-- An accepted block leaves them stored. -/
theorem accounts_of_accepted (h : addBlock crypto host chain block = some (true, chain')) :
    chain'.storage.accounts = chain.accountsAfter crypto host block := by
  unfold accountsAfter overlay
  cases addBlock_cases h with
  | inl hended => cases hended.2.1
  | inr hready =>
    obtain ⟨ready, hprepared, hstorage, -, hcommit⟩ := hready
    rw [hprepared]
    have hbefore : ready.storage.accounts = chain.storage.accounts := by
      rw [hstorage]
      unfold headerWrites Storage.made
      split
      · split <;> rfl
      · rfl
    cases commitOutcome_of_commitBlock hcommit with
    | finished head heights happly =>
      obtain ⟨trie, hcommitted⟩ := State.applyChanges_ok happly
      rw [hcommitted]
      obtain ⟨pending, storage, hfold, ⟨txIndex, historyCount, history, hindex⟩, -, -⟩ :=
        foldl_indexTransaction_frame crypto host block block.transactions _
      rw [hfold, ← hbefore]
      change storage.accounts = _
      rw [hindex]
      rfl

/-- A reopened database has a head block, and its accounts are those before the block or those after all
of it, the latter when the head is the block. -/
def CrashSafe (crypto : Crypto) (reopening : Host) (genesisBlock : Block) (chain : Chain) (block : Block)
    (accountsAfter : FiniteMap Bytes Account) (crashed : Storage) : Prop :=
  ∃ reopened head, new crypto reopening crashed genesisBlock = some reopened ∧
    reopened.getHead = some head ∧
    (reopened.storage.accounts = chain.storage.accounts ∨ reopened.storage.accounts = accountsAfter) ∧
    (head = block → reopened.storage.accounts = accountsAfter)

/-- The block that the head record names after some writes. -/
def headBlock (chain : Chain) (block : Block) (writes : List Write) : Option Block :=
  (if movesHead writes then some block.hash else chain.storage.head).bind fun hash =>
    if storesBlock writes ∧ hash = block.hash then some block else chain.getBlock hash

/-- What was stored changes nothing. -/
def StoredNothing (chain : Chain) (overlay : FiniteMap Bytes Account) (writes : List Write) : Prop :=
  ∀ address, storesAccount writes address = true →
    chain.storage.accounts.lookup address = overlay.lookup address

/-- What was not stored changes nothing. -/
def StoredAll (chain : Chain) (overlay : FiniteMap Bytes Account) (writes : List Write) : Prop :=
  ∀ address, (overlay.lookup address).isSome → storesAccount writes address = false →
    chain.storage.accounts.lookup address = overlay.lookup address

/-- The entries of which `State::new` rebuilds the trie. -/
def rebuildEntries (host : Host) (storage : Storage) : List (Bytes × Bytes) :=
  storage.getAllAccounts.map fun entry => (entry.1, host.encode entry.2)

/-- The head record names a block in place; of the accounts nothing or everything is changed, and everything
when that block is the new one; and no address stops short when the trie is rebuilt. -/
structure Settled (crypto : Crypto) (reopening : Host) (chain : Chain) (block : Block)
    (overlay : FiniteMap Bytes Account) (writes : List Write) : Prop where
  head : (chain.headBlock block writes).isSome
  accounts : chain.StoredNothing overlay writes ∨ chain.StoredAll overlay writes
  newHead : chain.headBlock block writes = some block → chain.StoredAll overlay writes
  rebuild : ∀ before key value after,
    rebuildEntries reopening (chain.storage.putAll writes) = before ++ (key, value) :: after →
      ∀ reached, MerklePatriciaTrie.insertAll crypto .new before = some reached → ¬ reached.StopsShort key

/-- Opening a database with a head rebuilds the trie and does nothing else. -/
theorem new_of_head {storage : Storage} {head : String} (hhead : storage.head = some head) :
    new crypto host storage genesisBlock =
      (MerklePatriciaTrie.insertAll crypto .new (rebuildEntries host storage)).map fun trie =>
        { head, state := { State.empty with storage, trie }, validators := .new, seenHeaders := ∅,
          votes := ∅, finalizedHead := head } := by
  have hrebuild : MerklePatriciaTrie.insertAll crypto .new (rebuildEntries host storage) =
      storage.getAllAccounts.foldlM
        (fun trie entry => trie.insert crypto entry.1 (host.encode entry.2)) .new := List.foldlM_map
  rw [hrebuild]
  unfold new openHead State.new
  rw [hhead]
  simp only [Option.bind_eq_bind, Option.bind_some]
  cases storage.getAllAccounts.foldlM
    (fun trie entry => trie.insert crypto entry.1 (host.encode entry.2)) MerklePatriciaTrie.new <;> rfl

/-- A stored account is one of the overlay. -/
theorem isSome_of_storesAccount (hallowed : ∀ record ∈ writes, Allows block overlay record) {address : Bytes}
    (h : storesAccount writes address = true) : (overlay.lookup address).isSome := by
  cases List.any_eq_true.mp h with
  | intro record hrecord =>
    have hallow := hallowed record hrecord.1
    have hmatch := hrecord.2
    cases record with
    | account stored account =>
      have hpending : overlay.lookup stored = some account := hallow
      rw [← of_decide_eq_true hmatch, hpending]
      rfl
    | _ => cases hmatch

/-- After allowed writes the accounts are the earlier ones exactly when nothing was changed. -/
theorem accounts_putAll_eq_iff (hallowed : ∀ record ∈ writes, Allows block overlay record) :
    (chain.storage.putAll writes).accounts = chain.storage.accounts ↔ chain.StoredNothing overlay writes := by
  have hlookup := chain.storage.lookup_accounts_putAll hallowed
  constructor
  · intro hsame address hstored
    have hentry := hlookup address
    rw [hsame, if_pos hstored] at hentry
    exact hentry
  · intro hnothing
    apply Finmap.ext_lookup
    intro address
    rw [hlookup]
    split
    · rename_i hstored
      exact (hnothing address hstored).symm
    · rfl

/-- They are the later ones exactly when everything was. -/
theorem accounts_putAll_eq_after_iff (hallowed : ∀ record ∈ writes, Allows block overlay record) :
    (chain.storage.putAll writes).accounts = overlay ∪ chain.storage.accounts ↔
      chain.StoredAll overlay writes := by
  have hlookup := chain.storage.lookup_accounts_putAll hallowed
  constructor
  · intro hsame address hpending hmissing
    have hentry := hlookup address
    rw [hsame, FiniteMap.lookup_union_or, hmissing] at hentry
    cases hoverlay : overlay.lookup address with
    | none => simp [hoverlay] at hpending
    | some account =>
      rw [hoverlay] at hentry
      simpa using hentry.symm
  · intro hall
    apply Finmap.ext_lookup
    intro address
    rw [hlookup, FiniteMap.lookup_union_or]
    cases hoverlay : overlay.lookup address with
    | none =>
      split
      · rename_i hstored
        have hpending := isSome_of_storesAccount hallowed hstored
        rw [hoverlay] at hpending
        cases hpending
      · rw [Option.none_or]
    | some account =>
      split
      · rfl
      · rename_i hmissing
        have hsame := hall address (by simp [hoverlay]) (Bool.eq_false_iff.mpr hmissing)
        rw [hsame, hoverlay, Option.some_or]

/-- After allowed writes, reopening is safe exactly when the writes are settled. -/
theorem crashSafe_iff_settled (hhead : chain.storage.head ≠ none)
    (hallowed : ∀ record ∈ writes, Allows block overlay record) :
    CrashSafe crypto reopening genesisBlock chain block (overlay ∪ chain.storage.accounts)
        (chain.storage.putAll writes) ↔ Settled crypto reopening chain block overlay writes := by
  have hnamed := chain.storage.head_putAll hallowed
  have hstored : ∃ hash, (chain.storage.putAll writes).head = some hash := by
    apply Option.ne_none_iff_exists'.mp
    rw [hnamed]
    split
    · exact Option.some_ne_none _
    · exact hhead
  cases hstored with
  | intro hash hhash =>
    have hblock : chain.headBlock block writes = (chain.storage.putAll writes).getBlock hash := by
      unfold headBlock
      rw [← hnamed, hhash, Option.bind_some, chain.storage.getBlock_putAll hallowed]
      rfl
    have hbefore : (chain.storage.putAll writes).accounts = chain.storage.accounts ↔
        chain.StoredNothing overlay writes := accounts_putAll_eq_iff hallowed
    have hafter : (chain.storage.putAll writes).accounts = overlay ∪ chain.storage.accounts ↔
        chain.StoredAll overlay writes := accounts_putAll_eq_after_iff hallowed
    have hrebuild := MerklePatriciaTrie.insertions_complete_iff crypto
      (rebuildEntries reopening (chain.storage.putAll writes))
    have hnew : new crypto reopening (chain.storage.putAll writes) genesisBlock = _ := new_of_head hhash
    constructor
    · intro hsafe
      obtain ⟨reopened, head, hopen, hget, haccounts, hisnew⟩ := hsafe
      rw [hnew] at hopen
      obtain ⟨trie, htrie, hreopened⟩ := Option.map_eq_some_iff.mp hopen
      rw [← hreopened] at hget haccounts hisnew
      have hgot : (chain.storage.putAll writes).getBlock hash = some head := hget
      constructor
      · rw [hblock, hgot]
        rfl
      · exact haccounts.imp hbefore.mp hafter.mp
      · intro hnewHead
        rw [hblock, hgot] at hnewHead
        exact hafter.mp (hisnew (Option.some.inj hnewHead))
      · apply hrebuild.mp
        rw [htrie]
        rfl
    · intro hsettled
      obtain ⟨head, hget⟩ := Option.isSome_iff_exists.mp hsettled.head
      obtain ⟨trie, htrie⟩ := Option.isSome_iff_exists.mp (hrebuild.mpr hsettled.rebuild)
      rw [htrie] at hnew
      refine ⟨_, head, hnew, ?_, ?_, ?_⟩
      · rw [hblock] at hget
        exact hget
      · exact hsettled.accounts.imp hbefore.mpr hafter.mpr
      · intro hisnew
        rw [hisnew] at hget
        exact hafter.mpr (hsettled.newHead hget)

/-- A started chain has a head on record, whatever the database refused. -/
theorem head_of_start {storage : Storage} {balances stakes : List (Bytes × UInt64)}
    (h : start crypto host storage genesisBlock balances stakes = some chain) :
    chain.storage.head ≠ none := by
  obtain ⟨accounts, pendingChanges, trie, hchain⟩ := start_frame h
  rw [hchain]
  change (storage.opened genesisBlock).head ≠ none
  unfold Storage.opened
  cases hhead : storage.head with
  | none => simp
  | some head => simp [hhead]

/-- So has every chain that requests lead to. -/
theorem head_of_run {opened : Chain} {calls : List (Execution.Call Chain Request Bool)}
    (hopened : opened.storage.head ≠ none) (hrun : Execution.Run (serve crypto) opened calls chain) :
    chain.storage.head ≠ none := by
  induction hrun with
  | nil => exact hopened
  | @snoc calls s s' request output _ hnext ih =>
    cases request with
    | deliver host block =>
      rw [storage_addBlock hnext, s.storage.head_putAll fun _ hrecord => allows_journal hrecord]
      split
      · exact Option.some_ne_none _
      · exact ih
    | vote host vote =>
      obtain ⟨votes, stored, finalizedHead, rfl⟩ := serve_vote_frame hnext
      exact ih
    | reopen host genesisBlock balances stakes =>
      exact head_of_start (start_of_serve hnext)

/-- A reopening that lacks a head block, or whose accounts are neither the earlier nor the later ones, is
not safe. -/
theorem not_crashSafe {accountsAfter : FiniteMap Bytes Account} {crashed : Storage} {reopened : Chain}
    (hnew : new crypto reopening crashed genesisBlock = some reopened)
    (hbad : reopened.getHead = none ∨ reopened.storage.accounts ≠ chain.storage.accounts ∧
      reopened.storage.accounts ≠ accountsAfter) :
    ¬ CrashSafe crypto reopening genesisBlock chain block accountsAfter crashed := by
  intro hsafe
  obtain ⟨other, head, hother, hget, haccounts, -⟩ := hsafe
  rw [hnew] at hother
  rw [← Option.some.inj hother] at hget haccounts
  cases hbad with
  | inl hnone =>
    rw [hnone] at hget
    cases hget
  | inr hneither => exact haccounts.elim hneither.1 hneither.2

end Chain

end Nocostcoin
