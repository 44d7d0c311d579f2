import Nocostcoin.Chain.Crash

/-!
# Safe crash points

Where a crash during `add_block` is harmless, by its position in the journal: before the first write that
changes an account, while the head record still names an older block, or after the last one, once the block
that the head record names is stored.
-/

namespace Nocostcoin

/-- Among the first items of a list there is one of a kind if the first of the kind is one of them. -/
theorem any_take_eq {α : Type*} {list : List α} {p : α → Bool} {n : ℕ} (hn : n ≤ list.length) :
    (list.take n).any p = decide (list.findIdx p < n) := by
  rw [Bool.eq_iff_iff, decide_eq_true_iff, List.any_eq_true, ← List.findIdx_lt_length, List.findIdx_take,
    List.length_take]
  omega

/-- Behind some point there is one of a kind if the last of the kind is. -/
theorem any_drop_eq {α : Type*} {list : List α} {p : α → Bool} {n : ℕ} :
    (list.drop n).any p = decide (n < list.length - list.reverse.findIdx p) := by
  rw [← List.any_reverse, List.reverse_drop, any_take_eq (by rw [List.length_reverse]; omega)]
  apply decide_eq_decide.mpr
  omega

/-- The position of the head record in a journal, its length if there is none. -/
def headAt (journal : List Write) : ℕ :=
  journal.findIdx fun | .head _ => true | _ => false

/-- The position of the block. -/
def blockAt (journal : List Write) : ℕ :=
  journal.findIdx fun | .block _ => true | _ => false

namespace Chain

variable {crypto : Crypto} {host reopening : Host} {chain : Chain} {block genesisBlock : Block}
  {overlay : FiniteMap Bytes Account} {journal writes : List Write} {point : ℕ}

/-- The write gives an account a value that is not the stored one. -/
def changesAccount (chain : Chain) : Write → Bool
  | .account address account => decide (chain.storage.accounts.lookup address ≠ some account)
  | _ => false

/-- The position of the first write that changes an account. -/
def changesFrom (chain : Chain) (journal : List Write) : ℕ := journal.findIdx chain.changesAccount

/-- The position after the last write that changes an account. -/
def changesTo (chain : Chain) (journal : List Write) : ℕ :=
  journal.length - journal.reverse.findIdx chain.changesAccount

/-- The block that the head record names before the call. -/
def recordedHead (chain : Chain) : Option Block := chain.storage.head.bind chain.getBlock

/-- `State::new` can rebuild the trie of the stored accounts: no address stops short at its turn. -/
def Rebuilds (crypto : Crypto) (host : Host) (storage : Storage) : Prop :=
  ∀ before key value after, rebuildEntries host storage = before ++ (key, value) :: after →
    ∀ reached, MerklePatriciaTrie.insertAll crypto .new before = some reached → ¬ reached.StopsShort key

/-- A point before the first change of an account, at which the head record names an older block: the recorded
head, if the record was not moved yet, or a block that was stored under the new hash before. -/
structure BeforeChanges (crypto : Crypto) (reopening : Host) (chain : Chain) (block : Block)
    (journal : List Write) (point : ℕ) : Prop where
  accounts : point ≤ chain.changesFrom journal
  head : ∃ old, old ≠ block ∧
    (point ≤ headAt journal ∧ chain.recordedHead = some old ∧
        (chain.storage.head = some block.hash → point ≤ blockAt journal) ∨
      headAt journal < point ∧ point ≤ blockAt journal ∧ chain.getBlock block.hash = some old)
  rebuild : Rebuilds crypto reopening chain.storage

/-- A point after the last change of an account, none of which was refused, that is not between the head record
and the block: the head record names a stored block. -/
structure AfterChanges (crypto : Crypto) (reopening : Host) (chain : Chain) (block : Block)
    (overlay : FiniteMap Bytes Account) (journal : List Write) (point : ℕ) : Prop where
  accounts : chain.changesTo journal ≤ point
  complete : ∀ address account, overlay.lookup address = some account →
    chain.storage.accounts.lookup address ≠ some account → .account address account ∈ journal
  head : headAt journal < point ∧ (blockAt journal < point ∨ (chain.getBlock block.hash).isSome) ∨
    point ≤ headAt journal ∧
      (chain.recordedHead.isSome ∨ chain.storage.head = some block.hash ∧ blockAt journal < point)
  rebuild : Rebuilds crypto reopening { chain.storage with accounts := overlay ∪ chain.storage.accounts }

/-- The points at which a crash is harmless. -/
def SafePoint (crypto : Crypto) (reopening : Host) (chain : Chain) (block : Block)
    (overlay : FiniteMap Bytes Account) (journal : List Write) (point : ℕ) : Prop :=
  BeforeChanges crypto reopening chain block journal point ∨
    AfterChanges crypto reopening chain block overlay journal point

/-- The block that the head record names after the first writes, by the positions of the records. -/
theorem headBlock_take (hpoint : point ≤ journal.length) :
    chain.headBlock block (journal.take point) =
      (if headAt journal < point then some block.hash else chain.storage.head).bind fun hash =>
        if blockAt journal < point ∧ hash = block.hash then some block else chain.getBlock hash := by
  have hmoves : movesHead (journal.take point) = decide (headAt journal < point) := any_take_eq hpoint
  have hstores : storesBlock (journal.take point) = decide (blockAt journal < point) := any_take_eq hpoint
  unfold headBlock
  rw [hmoves, hstores]
  simp only [decide_eq_true_eq]

/-- It is an older one. -/
theorem exists_old_iff (hpoint : point ≤ journal.length) :
    (∃ old, old ≠ block ∧ chain.headBlock block (journal.take point) = some old) ↔
      ∃ old, old ≠ block ∧
        (point ≤ headAt journal ∧ chain.recordedHead = some old ∧
            (chain.storage.head = some block.hash → point ≤ blockAt journal) ∨
          headAt journal < point ∧ point ≤ blockAt journal ∧ chain.getBlock block.hash = some old) := by
  refine exists_congr fun old => and_congr_right fun hold => ?_
  rw [headBlock_take hpoint]
  unfold recordedHead
  by_cases hmoved : headAt journal < point
  · by_cases hstored : blockAt journal < point
    · simp [hmoved, hstored, Nat.not_le.mpr hmoved, Nat.not_le.mpr hstored, Ne.symm hold]
    · simp [hmoved, hstored, Nat.not_le.mpr hmoved, Nat.not_lt.mp hstored]
  · cases hhead : chain.storage.head with
    | none => simp [hmoved]
    | some hash =>
      by_cases hstored : blockAt journal < point
      · by_cases hsame : hash = block.hash
        · simp [hmoved, hstored, hsame, Nat.not_le.mpr hstored, Ne.symm hold]
        · simp [hmoved, hsame, Nat.not_lt.mp hmoved]
      · simp [hmoved, hstored, Nat.not_lt.mp hmoved, Nat.not_lt.mp hstored]

/-- It is stored. -/
theorem isSome_headBlock_iff (hpoint : point ≤ journal.length) :
    (chain.headBlock block (journal.take point)).isSome ↔
      (headAt journal < point ∧ (blockAt journal < point ∨ (chain.getBlock block.hash).isSome) ∨
        point ≤ headAt journal ∧
          (chain.recordedHead.isSome ∨ chain.storage.head = some block.hash ∧ blockAt journal < point)) := by
  rw [headBlock_take hpoint]
  unfold recordedHead
  by_cases hmoved : headAt journal < point
  · by_cases hstored : blockAt journal < point
    · simp [hmoved, hstored]
    · simp [hmoved, hstored, Nat.not_le.mpr hmoved]
  · cases hhead : chain.storage.head with
    | none => simp [hmoved]
    | some hash =>
      by_cases hstored : blockAt journal < point
      · by_cases hsame : hash = block.hash
        · simp [hmoved, hstored, hsame, Nat.not_lt.mp hmoved]
        · simp [hmoved, hsame, Nat.not_lt.mp hmoved]
      · simp [hmoved, hstored, Nat.not_lt.mp hmoved]

/-- An account that some writes store is in one of them. -/
theorem exists_of_storesAccount {address : Bytes} (h : storesAccount writes address = true) :
    ∃ account, .account address account ∈ writes := by
  obtain ⟨record, hrecord, hmatch⟩ := List.any_eq_true.mp h
  cases record with
  | account stored account =>
    rw [of_decide_eq_true hmatch] at hrecord
    exact ⟨account, hrecord⟩
  | _ => cases hmatch

theorem storesAccount_of_mem {address : Bytes} {account : Account} (h : .account address account ∈ writes) :
    storesAccount writes address = true :=
  List.any_eq_true.mpr ⟨_, h, decide_eq_true rfl⟩

/-- What is stored is the pending account. -/
theorem mem_of_storesAccount {address : Bytes} {account : Account}
    (hallowed : ∀ record ∈ writes, Allows block overlay record)
    (hpending : overlay.lookup address = some account) (h : storesAccount writes address = true) :
    .account address account ∈ writes := by
  obtain ⟨stored, hrecord⟩ := exists_of_storesAccount h
  have hsame : overlay.lookup address = some stored := hallowed _ hrecord
  rw [hpending] at hsame
  rw [Option.some.inj hsame]
  exact hrecord

/-- In a journal that writes each account once, one that is written is not written again. -/
theorem notMem_drop_of_mem_take {address : Bytes} {account : Account}
    (honce : ((insertions host journal).map Prod.fst).Nodup)
    (h : .account address account ∈ journal.take point) : .account address account ∉ journal.drop point := by
  intro hagain
  have hwritten : ∀ {part : List Write}, .account address account ∈ part →
      address ∈ (insertions host part).map Prod.fst := fun hmem =>
    List.mem_map.mpr ⟨(address, host.encode account), List.mem_filterMap.mpr ⟨_, hmem, rfl⟩, rfl⟩
  rw [← List.take_append_drop point journal, insertions_append, List.map_append] at honce
  exact (List.nodup_append.mp honce).2.2 address (hwritten h) address (hwritten hagain) rfl

/-- Nothing is changed exactly up to the first change. -/
theorem storedNothing_take_iff (hpoint : point ≤ journal.length)
    (hallowed : ∀ record ∈ journal, Allows block overlay record) :
    chain.StoredNothing overlay (journal.take point) ↔ point ≤ chain.changesFrom journal := by
  have hnone : point ≤ chain.changesFrom journal ↔
      ∀ record ∈ journal.take point, chain.changesAccount record = false := by
    rw [← Nat.not_lt, changesFrom, ← decide_eq_false_iff_not, ← any_take_eq hpoint, List.any_eq_false]
    simp only [Bool.not_eq_true]
  rw [hnone]
  constructor
  · intro hnothing record hrecord
    cases record with
    | account address account =>
      have hpending : overlay.lookup address = some account := hallowed _ (List.mem_of_mem_take hrecord)
      apply decide_eq_false
      rw [hnothing address (storesAccount_of_mem hrecord), hpending]
      exact fun hne => hne rfl
    | _ => rfl
  · intro hunchanged address hstores
    obtain ⟨account, hrecord⟩ := exists_of_storesAccount hstores
    have hpending : overlay.lookup address = some account := hallowed _ (List.mem_of_mem_take hrecord)
    rw [hpending]
    exact not_not.mp (of_decide_eq_false (hunchanged _ hrecord))

/-- Everything is changed exactly from the last change on, if no change was refused. -/
theorem storedAll_take_iff (hallowed : ∀ record ∈ journal, Allows block overlay record)
    (honce : ((insertions host journal).map Prod.fst).Nodup) :
    chain.StoredAll overlay (journal.take point) ↔
      chain.changesTo journal ≤ point ∧ ∀ address account, overlay.lookup address = some account →
        chain.storage.accounts.lookup address ≠ some account → .account address account ∈ journal := by
  have hnone : chain.changesTo journal ≤ point ↔
      ∀ record ∈ journal.drop point, chain.changesAccount record = false := by
    rw [← Nat.not_lt, changesTo, ← decide_eq_false_iff_not, ← any_drop_eq, List.any_eq_false]
    simp only [Bool.not_eq_true]
  have htaken : ∀ record ∈ journal.take point, Allows block overlay record :=
    fun record hrecord => hallowed record (List.mem_of_mem_take hrecord)
  rw [hnone]
  constructor
  · intro hall
    have hstored : ∀ address account, overlay.lookup address = some account →
        chain.storage.accounts.lookup address ≠ some account →
        .account address account ∈ journal.take point := by
      intro address account hpending hdiffers
      have hstores : storesAccount (journal.take point) address = true := by
        by_contra hmissing
        have hsame := hall address (Option.isSome_of_eq_some hpending) (Bool.not_eq_true _ ▸ hmissing)
        exact hdiffers (hsame.trans hpending)
      exact mem_of_storesAccount htaken hpending hstores
    refine ⟨fun record hrecord => ?_, fun address account hpending hdiffers =>
      List.mem_of_mem_take (hstored address account hpending hdiffers)⟩
    cases record with
    | account address account =>
      have hpending : overlay.lookup address = some account := hallowed _ (List.mem_of_mem_drop hrecord)
      apply decide_eq_false
      intro hdiffers
      -- the account would be written twice
      exact notMem_drop_of_mem_take honce (hstored address account hpending hdiffers) hrecord
    | _ => rfl
  · rintro ⟨hunchanged, hcomplete⟩ address hpending hmissing
    obtain ⟨account, hpending⟩ := Option.isSome_iff_exists.mp hpending
    rw [hpending]
    by_contra hdiffers
    have hrecord := hcomplete address account hpending hdiffers
    rw [← List.take_append_drop point journal] at hrecord
    cases List.mem_append.mp hrecord with
    | inl hwritten =>
      rw [storesAccount_of_mem hwritten] at hmissing
      contradiction
    | inr hleft => exact of_decide_eq_false (hunchanged _ hleft) hdiffers

/-- The rebuild depends on the accounts only. -/
theorem rebuildEntries_congr {storage storage' : Storage} (h : storage.accounts = storage'.accounts) :
    rebuildEntries reopening storage = rebuildEntries reopening storage' := by
  unfold rebuildEntries Storage.getAllAccounts
  rw [h]

/-- The first writes of a journal are settled exactly at a safe point. -/
theorem settled_iff_safePoint (hpoint : point ≤ journal.length)
    (hallowed : ∀ record ∈ journal, Allows block overlay record)
    (honce : ((insertions host journal).map Prod.fst).Nodup) :
    Settled crypto reopening chain block overlay (journal.take point) ↔
      SafePoint crypto reopening chain block overlay journal point := by
  have htaken : ∀ record ∈ journal.take point, Allows block overlay record :=
    fun record hrecord => hallowed record (List.mem_of_mem_take hrecord)
  have hnothing : chain.StoredNothing overlay (journal.take point) ↔ point ≤ chain.changesFrom journal :=
    storedNothing_take_iff hpoint hallowed
  have hall : chain.StoredAll overlay (journal.take point) ↔ chain.changesTo journal ≤ point ∧ _ :=
    storedAll_take_iff hallowed honce
  have hrebuildBefore : chain.StoredNothing overlay (journal.take point) →
      rebuildEntries reopening (chain.storage.putAll (journal.take point)) =
        rebuildEntries reopening chain.storage :=
    fun h => rebuildEntries_congr ((accounts_putAll_eq_iff htaken).mpr h)
  have hrebuildAfter : chain.StoredAll overlay (journal.take point) →
      rebuildEntries reopening (chain.storage.putAll (journal.take point)) =
        rebuildEntries reopening { chain.storage with accounts := overlay ∪ chain.storage.accounts } :=
    fun h => rebuildEntries_congr ((accounts_putAll_eq_after_iff htaken).mpr h)
  constructor
  · intro hsettled
    have hafter : chain.StoredAll overlay (journal.take point) →
        SafePoint crypto reopening chain block overlay journal point := by
      intro hstored
      have hrebuild := hsettled.rebuild
      rw [hrebuildAfter hstored] at hrebuild
      exact .inr ⟨(hall.mp hstored).1, (hall.mp hstored).2, (isSome_headBlock_iff hpoint).mp hsettled.head,
        hrebuild⟩
    obtain ⟨named, hnamed⟩ := Option.isSome_iff_exists.mp hsettled.head
    by_cases hnew : named = block
    · rw [hnew] at hnamed
      exact hafter (hsettled.newHead hnamed)
    · cases hsettled.accounts with
      | inl hstored =>
        have hrebuild := hsettled.rebuild
        rw [hrebuildBefore hstored] at hrebuild
        exact .inl ⟨hnothing.mp hstored, (exists_old_iff hpoint).mp ⟨named, hnew, hnamed⟩, hrebuild⟩
      | inr hstored => exact hafter hstored
  · rintro (hbefore | hafter)
    · have hstored := hnothing.mpr hbefore.accounts
      obtain ⟨old, hold, hnamed⟩ := (exists_old_iff hpoint).mpr hbefore.head
      constructor
      case head => exact Option.isSome_of_eq_some hnamed
      case accounts => exact .inl hstored
      case newHead =>
        intro hnew
        rw [hnew] at hnamed
        exact absurd (Option.some.inj hnamed).symm hold
      case rebuild =>
        rw [hrebuildBefore hstored]
        exact hbefore.rebuild
    · have hstored := hall.mpr ⟨hafter.accounts, hafter.complete⟩
      constructor
      case head => exact (isSome_headBlock_iff hpoint).mpr hafter.head
      case accounts => exact .inr hstored
      case newHead => exact fun _ => hstored
      case rebuild =>
        rw [hrebuildAfter hstored]
        exact hafter.rebuild

/-- For every chain that a node reaches, over any answers of the database, every block and every crash
point: the journal is what a call leaves when it ends, and a crash after its first writes leaves a database
that reopens with a head block and with all accounts old or new, if and only if the point is safe. -/
theorem crash_safe_iff {openingHost : Host} {storage : Storage} {balances stakes : List (Bytes × UInt64)}
    {opened : Chain} {calls : List (Execution.Call Chain Request Bool)}
    (hstart : start crypto openingHost storage genesisBlock balances stakes = some opened)
    (hrun : Execution.Run (serve crypto) opened calls chain) (host reopening : Host) (block : Block)
    (point : ℕ) (hpoint : point ≤ (chain.journal crypto host block).length) :
    (∀ accepted chain', addBlock crypto host chain block = some (accepted, chain') →
        chain'.storage = chain.storage.putAll (chain.journal crypto host block) ∧
          (accepted = true → chain'.storage.accounts = chain.accountsAfter crypto host block)) ∧
      (CrashSafe crypto reopening genesisBlock chain block (chain.accountsAfter crypto host block)
          (chain.storage.putAll ((chain.journal crypto host block).take point)) ↔
        SafePoint crypto reopening chain block (chain.overlay crypto host block)
          (chain.journal crypto host block) point) := by
  have hallowed : ∀ record ∈ chain.journal crypto host block,
      Allows block (chain.overlay crypto host block) record := fun _ hrecord => allows_journal hrecord
  constructor
  · intro accepted chain' hadd
    refine ⟨storage_addBlock hadd, fun haccepted => ?_⟩
    rw [haccepted] at hadd
    exact accounts_of_accepted hadd
  · rw [← settled_iff_safePoint hpoint hallowed nodup_insertions_journal]
    apply crashSafe_iff_settled (head_of_run (head_of_start hstart) hrun)
    intro record hrecord
    exact hallowed record (List.mem_of_mem_take hrecord)

/-- Alice's first transfer in a block on the genesis block. -/
def payingBlock : Block := Sample.block Sample.genesis 1 [Sample.transfer 10 0]

/-- The database after a crash at a point of its delivery. -/
def crashedAt (opened : Chain) (point : ℕ) : Storage :=
  opened.storage.putAll ((opened.journal Crypto.plain Host.plain payingBlock).take point)

/-- A crash between the head record and the block leaves a head without a block; one between the accounts of
Alice and Bob leaves the transfer half done. -/
theorem crash_leaves_half :
    ∃ opened, Sample.start = some opened ∧ ∀ point ∈ [2, 4],
      ¬ CrashSafe Crypto.plain Host.plain Sample.genesis opened payingBlock
        (opened.accountsAfter Crypto.plain Host.plain payingBlock) (crashedAt opened point) := by
  have hcheck : Sample.start.any (fun opened => [2, 4].all fun point =>
      (new Crypto.plain Host.plain (crashedAt opened point) Sample.genesis).any fun reopened =>
        decide (reopened.getHead = none ∨ reopened.storage.accounts ≠ opened.storage.accounts ∧
          reopened.storage.accounts ≠ opened.accountsAfter Crypto.plain Host.plain payingBlock)) = true := by
    decide +kernel
  obtain ⟨opened, hstart, hpoints⟩ := (Option.any_eq_true _ _).mp hcheck
  refine ⟨opened, hstart, fun point hpoint => ?_⟩
  obtain ⟨reopened, hnew, hbad⟩ := (Option.any_eq_true _ _).mp (List.all_eq_true.mp hpoints point hpoint)
  exact not_crashSafe hnew (of_decide_eq_true hbad)

/-- An empty block of the validator, and Alice's transfer in a block on it. -/
def emptyBlock : Block := Sample.block Sample.genesis 1 []

def nextPayingBlock : Block := Sample.block emptyBlock 2 [Sample.transfer 10 0]

/-- If a walk over the overlay meets stored accounts only, then all of the overlay is in the journal. -/
theorem mem_journal_of_walk
    (h : ∀ entry ∈ host.walk (chain.overlay crypto host block),
      storesAccount (chain.journal crypto host block) entry.1 = true) {address : Bytes} {account : Account}
    (hpending : (chain.overlay crypto host block).lookup address = some account) :
    .account address account ∈ chain.journal crypto host block :=
  mem_of_storesAccount (fun _ => allows_journal) hpending (h (address, account) (Host.mem_walk.mpr hpending))

/-- After a first block, a crash during the delivery of Alice's transfer is harmless right after the header
record, and right after both accounts were written. -/
theorem crash_safe_around_accounts :
    ∃ opened calls chain, Sample.start = some opened ∧
      Execution.Run (serve Crypto.plain) opened calls chain ∧
      calls.map Execution.Call.label = [.deliver Host.plain emptyBlock] ∧
      chain.head = emptyBlock.hash ∧
      chain.storage.accounts ≠ chain.accountsAfter Crypto.plain Host.plain nextPayingBlock ∧
      ∀ point ∈ [1, 5], CrashSafe Crypto.plain Host.plain Sample.genesis chain nextPayingBlock
        (chain.accountsAfter Crypto.plain Host.plain nextPayingBlock)
        (chain.storage.putAll ((chain.journal Crypto.plain Host.plain nextPayingBlock).take point)) := by
  obtain ⟨opened, calls, chain, hstart, hrun, hlabels, hcheck⟩ :=
    Execution.Run.exists_of_trace_from (serve Crypto.plain) Sample.start [.deliver Host.plain emptyBlock]
      (fun _ _ chain =>
        let journal := chain.journal Crypto.plain Host.plain nextPayingBlock
        let accountsAfter := chain.accountsAfter Crypto.plain Host.plain nextPayingBlock
        decide (chain.head = emptyBlock.hash ∧ chain.storage.accounts ≠ accountsAfter ∧
          5 ≤ journal.length ∧ headAt journal = 1 ∧ blockAt journal = 2 ∧
          chain.changesFrom journal = 3 ∧ chain.changesTo journal = 5 ∧
          chain.recordedHead = some emptyBlock ∧
          (∀ entry ∈ Host.plain.walk (chain.overlay Crypto.plain Host.plain nextPayingBlock),
            storesAccount journal entry.1 = true) ∧
          (MerklePatriciaTrie.insertAll Crypto.plain .new (rebuildEntries Host.plain chain.storage)).isSome ∧
          (MerklePatriciaTrie.insertAll Crypto.plain .new (rebuildEntries Host.plain
            { chain.storage with accounts := accountsAfter })).isSome)) (by decide +kernel)
  obtain ⟨hhead, hdiffer, hlength, hheadAt, hblockAt, hfrom, hto, hrecorded, hwritten, hbefore, hafter⟩ :=
    of_decide_eq_true hcheck
  refine ⟨opened, calls, chain, hstart, hrun, hlabels, hhead, hdiffer, fun point hpoint => ?_⟩
  have hbound : point ≤ (chain.journal Crypto.plain Host.plain nextPayingBlock).length := by
    simp only [List.mem_cons, List.not_mem_nil, or_false] at hpoint
    omega
  refine ((crash_safe_iff hstart hrun Host.plain Host.plain nextPayingBlock point hbound).2).mpr ?_
  simp only [List.mem_cons, List.not_mem_nil, or_false] at hpoint
  cases hpoint with
  | inl hfirst =>
    subst hfirst
    have hother : emptyBlock ≠ nextPayingBlock := by decide +kernel
    refine .inl ⟨by omega, ⟨emptyBlock, hother, .inl ⟨by omega, hrecorded, fun _ => by omega⟩⟩, ?_⟩
    exact (MerklePatriciaTrie.insertions_complete_iff _ _).mp hbefore
  | inr hlast =>
    subst hlast
    refine .inr ⟨by omega, fun _ _ hpending _ => mem_journal_of_walk hwritten hpending,
      .inl ⟨by omega, .inl (by omega)⟩, ?_⟩
    exact (MerklePatriciaTrie.insertions_complete_iff _ _).mp hafter

end Chain

end Nocostcoin
