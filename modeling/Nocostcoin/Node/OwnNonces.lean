import Nocostcoin.Library.Window
import Nocostcoin.Node.Pool
import Nocostcoin.Selection

/-!
# The nonces of the node's own transactions

The handlers that make transactions of the node's own count its pending ones and take the next nonce.
As long as they do, and accepted blocks drop what they contain from the mempool, the pending transactions
of the wallet are a window of nonces from the one of the state on. The registration of a validator does
not count them, and a batch of blocks drops nothing.
-/

namespace Nocostcoin

open Execution

variable {crypto : Crypto}

/-- The entries of a sender. -/
def Mempool.entriesOf (mempool : Mempool) (sender : Bytes) : Set (Bytes × Transaction) :=
  {entry | mempool.transactions.lookup entry.1 = some entry.2 ∧ entry.2.sender = sender}

/-- The nonce of an entry. -/
def entryNonce (entry : Bytes × Transaction) : UInt64 := entry.2.nonce

/-- A range of nonces is one of counters. -/
theorem mem_nonceRange_iff_countersFrom {first nonce : UInt64} {count : ℕ} :
    nonce ∈ nonceRange first count ↔ nonce ∈ countersFrom first count := by
  unfold nonceRange
  rw [List.mem_map]
  constructor
  · rintro ⟨i, hi, rfl⟩
    exact ⟨i, List.mem_range.mp hi, rfl⟩
  · rintro ⟨i, hi, rfl⟩
    exact ⟨i, List.mem_range.mpr hi, rfl⟩

namespace Mempool

variable {mempool : Mempool} {sender : Bytes} {tx : Transaction} {state : State}

/-- Of a mempool within its limit, the transactions selected of a sender are as many as its entries. -/
theorem length_selectedOf (host : Host) {limit : ℕ} {first : UInt64} {count : ℕ} (hlimit : mempool.len ≤ limit)
    (hwindow : Window entryNonce (mempool.entriesOf sender) first count) :
    ((mempool.getTransactionsForBlock host limit).filter fun tx => tx.sender = sender).length = count := by
  have hlength : ((mempool.getAll host).insertionSort fun tx tx' => tx.nonce ≤ tx'.nonce).length ≤
      limit := by
    rw [List.length_insertionSort, getAll, List.length_map]
    exact (host.length_walk mempool.transactions).trans_le hlimit
  rw [getTransactionsForBlock, List.take_of_length_le hlength,
    ((List.perm_insertionSort _ (mempool.getAll host)).filter _).length_eq, getAll, List.filter_map,
    List.length_map]
  refine hwindow.length_eq ((host.nodup_walk mempool.transactions).of_map.filter _) fun entry => ?_
  rw [List.mem_filter, Host.mem_walk]
  exact and_congr_right fun _ => decide_eq_true_iff

/-- An admitted transaction finds room. -/
theorem len_lt_of_admission (h : mempool.admission crypto tx state = .ok ()) :
    mempool.len < mempool.capacity := by
  by_contra hfull
  unfold admission at h
  rw [if_pos (not_lt.mp hfull)] at h
  contradiction

/-- The mempool with a transaction entered. -/
def entered (mempool : Mempool) (tx : Transaction) : Mempool :=
  { mempool with transactions := mempool.transactions.insert tx.signature tx }

/-- What is found after a transaction was entered. -/
theorem lookup_entered (mempool : Mempool) (tx : Transaction) (signature : Bytes) :
    (mempool.entered tx).transactions.lookup signature =
      if signature = tx.signature then some tx else mempool.transactions.lookup signature :=
  FiniteMap.lookup_insert_ite _ _ _ _

/-- What holds of every entry and of the entered transaction holds of every entry after it. -/
theorem forall_entered {P : Bytes → Transaction → Prop}
    (h : ∀ signature found, mempool.transactions.lookup signature = some found → P signature found)
    (htx : P tx.signature tx) :
    ∀ signature found, (mempool.entered tx).transactions.lookup signature = some found →
      P signature found := by
  intro signature found hlookup
  rw [lookup_entered] at hlookup
  split at hlookup
  · rename_i hkey
    rw [← Option.some.inj hlookup, hkey]
    exact htx
  · exact h signature found hlookup

/-- The entries of the sender of an entered transaction, unless it replaced one of them. -/
theorem entriesOf_entered (mempool : Mempool) (tx : Transaction)
    (hfresh : ∀ old, mempool.transactions.lookup tx.signature = some old → old.sender ≠ tx.sender) :
    (mempool.entered tx).entriesOf tx.sender =
      insert (tx.signature, tx) (mempool.entriesOf tx.sender) := by
  ext ⟨signature, found⟩
  have hmem : ∀ mempool : Mempool, (signature, found) ∈ mempool.entriesOf tx.sender ↔
      mempool.transactions.lookup signature = some found ∧ found.sender = tx.sender := fun _ => Iff.rfl
  rw [hmem, Set.mem_insert_iff, hmem, lookup_entered, Prod.mk.injEq]
  by_cases hkey : signature = tx.signature
  · rw [if_pos hkey, hkey]
    constructor
    · rintro ⟨hfound, -⟩
      exact .inl ⟨rfl, (Option.some.inj hfound).symm⟩
    · rintro (⟨-, rfl⟩ | ⟨hold, hsender⟩)
      · exact ⟨rfl, rfl⟩
      · exact absurd hsender (hfresh found hold)
  · rw [if_neg hkey]
    simp [hkey]

/-- The entries of another sender, unless one was replaced. -/
theorem entriesOf_entered_of_ne (hother : tx.sender ≠ sender)
    (hfresh : ∀ old, mempool.transactions.lookup tx.signature = some old → old.sender ≠ sender) :
    (mempool.entered tx).entriesOf sender = mempool.entriesOf sender := by
  ext ⟨signature, found⟩
  have hmem : ∀ mempool : Mempool, (signature, found) ∈ mempool.entriesOf sender ↔
      mempool.transactions.lookup signature = some found ∧ found.sender = sender := fun _ => Iff.rfl
  rw [hmem, hmem, lookup_entered]
  by_cases hkey : signature = tx.signature
  · rw [if_pos hkey, hkey]
    constructor
    · rintro ⟨hfound, hsender⟩
      exact absurd (Option.some.inj hfound ▸ hsender) hother
    · rintro ⟨hold, hsender⟩
      exact absurd hsender (hfresh found hold)
  · rw [if_neg hkey]

/-- Entering what is there changes nothing. -/
theorem entered_of_lookup (h : mempool.transactions.lookup tx.signature = some tx) :
    mempool.entered tx = mempool := by
  unfold entered
  congr 1
  apply Finmap.ext_lookup
  intro signature
  rw [FiniteMap.lookup_insert_ite]
  split
  · rename_i hkey
    rw [hkey, h]
  · rfl

/-- Entering makes room for one more at most. -/
theorem len_entered_le (mempool : Mempool) (tx : Transaction) :
    (mempool.entered tx).len ≤ mempool.len + 1 := by
  have hsub : (mempool.entered tx).transactions.keys ⊆
      insert tx.signature mempool.transactions.keys := by
    intro signature hkey
    rw [Finset.mem_insert, Finmap.mem_keys]
    rw [Finmap.mem_keys] at hkey
    exact Finmap.mem_insert.mp hkey
  exact (Finset.card_le_card hsub).trans (Finset.card_insert_le _ _)

/-- Removing leaves no more than there were. -/
theorem len_removeTransactions_le (mempool : Mempool) (txs : List Transaction) :
    (mempool.removeTransactions txs).len ≤ mempool.len := by
  apply Finset.card_le_card
  intro signature hkey
  rw [Finmap.mem_keys, ← Finmap.lookup_isSome] at hkey ⊢
  obtain ⟨tx, hlookup⟩ := Option.isSome_iff_exists.mp hkey
  rw [lookup_of_removeTransactions hlookup]
  rfl

end Mempool

/-- Of some transactions, no other carries the signature of one of the sender. -/
def Unmistakable (sender : Bytes) (Known : Transaction → Prop) : Prop :=
  ∀ tx tx', Known tx → Known tx' → tx.sender = sender → tx'.signature = tx.signature → tx' = tx

/-- The mempool beside the chain, for a sender who sent some transactions: they are used up or pending, and
the pending ones are a window of nonces from the next one on. -/
structure WalletPool (sender : Bytes) (Known : Transaction → Prop) (sent : List Transaction)
    (chain : Chain) (mempool : Mempool) : Prop where
  keyed : mempool.Keyed
  known : ∀ signature tx, mempool.transactions.lookup signature = some tx → Known tx
  capacity : mempool.capacity = 1000
  bounded : mempool.len ≤ 1000
  kept : ∀ tx ∈ sent, tx.sender = sender → tx.nonce < chain.state.getNonce sender ∨
    mempool.transactions.lookup tx.signature = some tx
  settled : chain.NoncesSettled
  window : ∃ count, Window entryNonce (mempool.entriesOf sender) (chain.state.getNonce sender) count

namespace WalletPool

variable {sender : Bytes} {Known : Transaction → Prop} {sent : List Transaction} {chain chain' : Chain}
  {mempool : Mempool} {tx : Transaction} {txs : List Transaction} {count : ℕ}

/-- What is found under a signature of the sender is that transaction. -/
theorem eq_of_lookup (h : WalletPool sender Known sent chain mempool)
    (hlaw : Unmistakable sender Known) (hknown : Known tx) {old : Transaction}
    (hold : mempool.transactions.lookup tx.signature = some old)
    (hown : tx.sender = sender ∨ old.sender = sender) : old = tx := by
  have hkey := h.keyed tx.signature old hold
  have hold' := h.known tx.signature old hold
  rcases hown with hsender | hsender
  · exact hlaw tx old hknown hold' hsender hkey
  · exact (hlaw old tx hold' hknown hsender hkey.symm).symm

/-- The window is never full. -/
theorem count_le (h : WalletPool sender Known sent chain mempool) {first : UInt64}
    (hwindow : Window entryNonce (mempool.entriesOf sender) first count) : count ≤ 1000 := by
  have hselected := Mempool.length_selectedOf Host.plain h.bounded hwindow
  have hle : ((mempool.getTransactionsForBlock Host.plain 1000).filter
      fun tx => tx.sender = sender).length ≤ 1000 := by
    refine (List.length_filter_le ..).trans ?_
    rw [Mempool.getTransactionsForBlock]
    exact List.length_take_le ..
  omega

/-- A known transaction enters that is not one of the sender's, or one that the sender sent before. -/
theorem enter_sent (h : WalletPool sender Known sent chain mempool) (hlaw : Unmistakable sender Known)
    (hadmitted : mempool.admission crypto tx chain.state = .ok ()) (hknown : Known tx)
    (hsent : tx.sender = sender → tx ∈ sent) :
    WalletPool sender Known sent chain (mempool.entered tx) := by
  by_cases hown : tx.sender = sender
  · -- an own one is pending still, for the mempool refuses used nonces
    have hpending : mempool.transactions.lookup tx.signature = some tx := by
      rcases h.kept tx (hsent hown) hown with hused | hpending
      · have hnonce := Mempool.nonce_of_admission hadmitted
        rw [hown] at hnonce
        exact absurd hused (UInt64.not_lt.mpr hnonce)
      · exact hpending
    rw [Mempool.entered_of_lookup hpending]
    exact h
  · have hfresh : ∀ old, mempool.transactions.lookup tx.signature = some old → old.sender ≠ sender := by
      intro old hold hsender
      exact hown (h.eq_of_lookup hlaw hknown hold (.inr hsender) ▸ hsender)
    have hroom := Mempool.len_lt_of_admission hadmitted
    rw [h.capacity] at hroom
    refine ⟨Mempool.forall_entered h.keyed rfl, Mempool.forall_entered h.known hknown, h.capacity,
      (Mempool.len_entered_le mempool tx).trans hroom, fun other hother hsender => ?_, h.settled, ?_⟩
    · refine (h.kept other hother hsender).imp_right fun hpending => ?_
      rw [Mempool.lookup_entered, if_neg, hpending]
      intro hkey
      exact hfresh other (hkey ▸ hpending) hsender
    · rw [Mempool.entriesOf_entered_of_ne hown hfresh]
      exact h.window

/-- The transaction with the next nonce enters, and was sent. -/
theorem enter_next (h : WalletPool sender Known sent chain mempool) (hlaw : Unmistakable sender Known)
    (hadmitted : mempool.admission crypto tx chain.state = .ok ()) (hknown : Known tx)
    (hown : tx.sender = sender)
    (hwindow : Window entryNonce (mempool.entriesOf sender) (chain.state.getNonce sender) count)
    (hnonce : tx.nonce = chain.state.getNonce sender + UInt64.ofNat count) :
    WalletPool sender Known (sent ++ [tx]) chain (mempool.entered tx) := by
  have hcount := h.count_le hwindow
  -- the signature is new, for an entry under it would be this transaction with this nonce
  have hnew : ∀ old, mempool.transactions.lookup tx.signature ≠ some old := by
    intro old hold
    obtain rfl := h.eq_of_lookup hlaw hknown hold (.inl hown)
    have hmem : entryNonce (old.signature, old) ∈ countersFrom (chain.state.getNonce sender) count := by
      rw [← hwindow.covers]
      exact Set.mem_image_of_mem entryNonce ⟨hold, hown⟩
    have hfresh := next_notMem_countersFrom (chain.state.getNonce sender) hwindow.few
    rw [← hnonce] at hfresh
    exact hfresh hmem
  have hroom := Mempool.len_lt_of_admission hadmitted
  rw [h.capacity] at hroom
  refine ⟨Mempool.forall_entered h.keyed rfl, Mempool.forall_entered h.known hknown, h.capacity,
    (Mempool.len_entered_le mempool tx).trans hroom, fun other hother hsender => ?_, h.settled,
    count + 1, ?_⟩
  · rw [Mempool.lookup_entered]
    rcases List.mem_append.mp hother with hold | hlast
    · refine (h.kept other hold hsender).imp_right fun hpending => ?_
      rw [if_neg, hpending]
      intro hkey
      exact hnew other (hkey ▸ hpending)
    · rw [List.mem_singleton.mp hlast]
      exact .inr (if_pos rfl)
  · have hentries := Mempool.entriesOf_entered mempool tx fun old hold => absurd hold (hnew old)
    rw [hown] at hentries
    rw [hentries]
    exact hwindow.push (by omega) hnonce

/-- More transactions were sent, which are pending or were sent before. -/
theorem of_sent (h : WalletPool sender Known sent chain mempool) {more : List Transaction}
    (hmore : ∀ tx ∈ more, tx.sender = sender →
      tx ∈ sent ∨ mempool.transactions.lookup tx.signature = some tx) :
    WalletPool sender Known (sent ++ more) chain mempool := by
  refine ⟨h.keyed, h.known, h.capacity, h.bounded, fun tx htx hsender => ?_, h.settled, h.window⟩
  rcases List.mem_append.mp htx with hold | hnew
  · exact h.kept tx hold hsender
  · rcases hmore tx hnew hsender with hold | hpending
    · exact h.kept tx hold hsender
    · exact .inr hpending

/-- Nothing but the chain changed, and not in the sender's nonce. -/
theorem of_chain (h : WalletPool sender Known sent chain mempool)
    (hcounted : Chain.NoncesCounted chain chain' txs) (hnone : ∀ tx ∈ txs, tx.sender ≠ sender) :
    WalletPool sender Known sent chain' mempool := by
  have hsame : chain'.state.getNonce sender = chain.state.getNonce sender := by
    have hzero : sentBy sender txs = 0 := by
      rw [sentBy, noncesOf, List.length_map, List.length_eq_zero_iff, List.filter_eq_nil_iff]
      intro tx htx
      simpa using hnone tx htx
    rw [hcounted.counted, hzero]
    exact UInt64.add_zero _
  refine ⟨h.keyed, h.known, h.capacity, h.bounded, fun tx htx hsender => ?_, hcounted.settled, ?_⟩
  · rw [hsame]
    exact h.kept tx htx hsender
  · rw [hsame]
    exact h.window

/-- The nonces that some counted transactions of the sender take are the next ones, in full. -/
theorem mem_counted_iff (hcounted : Chain.NoncesCounted chain chain' txs) {nonce : UInt64} :
    (∃ tx ∈ txs, tx.sender = sender ∧ tx.nonce = nonce) ↔
      nonce ∈ countersFrom (chain.state.getNonce sender) (sentBy sender txs) := by
  rw [← mem_nonceRange_iff_countersFrom, ← hcounted.consecutive, noncesOf, List.mem_map]
  constructor
  · rintro ⟨tx, htx, hsender, rfl⟩
    exact ⟨tx, List.mem_filter.mpr ⟨htx, decide_eq_true hsender⟩, rfl⟩
  · rintro ⟨tx, hfiltered, rfl⟩
    obtain ⟨htx, hsender⟩ := List.mem_filter.mp hfiltered
    exact ⟨tx, htx, of_decide_eq_true hsender, rfl⟩

/-- Counted transactions that the sender sent are pending before. -/
theorem pending_of_counted (h : WalletPool sender Known sent chain mempool)
    (hcounted : Chain.NoncesCounted chain chain' txs)
    (hfew : (chain.state.getNonce sender).toNat + sentBy sender txs < 2 ^ 64)
    (htx : tx ∈ txs) (hsender : tx.sender = sender) (hsent : tx ∈ sent) :
    mempool.transactions.lookup tx.signature = some tx := by
  refine (h.kept tx hsent hsender).resolve_left fun hused => ?_
  have hmem := (mem_counted_iff hcounted).mp ⟨tx, htx, hsender, rfl⟩
  have hge := (mem_nonceRange_iff hfew).mp (mem_nonceRange_iff_countersFrom.mpr hmem)
  exact absurd (UInt64.lt_iff_toNat_lt.mp hused) (by omega)

/-- The entries of the sender under the signatures of counted transactions. -/
def minedEntries (mempool : Mempool) (sender : Bytes) (txs : List Transaction) :
    Set (Bytes × Transaction) :=
  {entry ∈ mempool.entriesOf sender | ∃ removed ∈ txs, removed.signature = entry.1}

/-- They carry the nonces that are taken. -/
theorem nonces_minedEntries (h : WalletPool sender Known sent chain mempool)
    (hlaw : Unmistakable sender Known) (hcounted : Chain.NoncesCounted chain chain' txs)
    (hknown : ∀ tx ∈ txs, Known tx) (hpending : ∀ tx ∈ txs, tx.sender = sender →
      mempool.transactions.lookup tx.signature = some tx) :
    entryNonce '' minedEntries mempool sender txs =
      countersFrom (chain.state.getNonce sender) (sentBy sender txs) := by
  ext nonce
  rw [← mem_counted_iff hcounted]
  constructor
  · rintro ⟨⟨signature, found⟩, ⟨⟨hlookup, hsender⟩, removed, hremoved, rfl⟩, rfl⟩
    have heq := h.eq_of_lookup hlaw (hknown removed hremoved) hlookup (.inr hsender)
    exact ⟨removed, hremoved, heq ▸ hsender, heq ▸ rfl⟩
  · rintro ⟨tx, htx, hsender, rfl⟩
    exact ⟨(tx.signature, tx), ⟨⟨hpending tx htx hsender, hsender⟩, tx, htx, rfl⟩, rfl⟩

/-- Counted transactions leave the mempool: the window moves on. -/
theorem mine (h : WalletPool sender Known sent chain mempool) (hlaw : Unmistakable sender Known)
    (hcounted : Chain.NoncesCounted chain chain' txs)
    (hfew : (chain.state.getNonce sender).toNat + sentBy sender txs < 2 ^ 64)
    (hknown : ∀ tx ∈ txs, Known tx) (hpending : ∀ tx ∈ txs, tx.sender = sender →
      mempool.transactions.lookup tx.signature = some tx) :
    WalletPool sender Known sent chain' (mempool.removeTransactions txs) := by
  obtain ⟨count, hwindow⟩ := h.window
  have hafter : (chain'.state.getNonce sender).toNat =
      (chain.state.getNonce sender).toNat + sentBy sender txs := by
    rw [hcounted.counted, UInt64.toNat_add, UInt64.toNat_ofNat']
    omega
  refine ⟨fun signature tx hlookup => ?_, fun signature tx hlookup => ?_, h.capacity,
    (Mempool.len_removeTransactions_le mempool txs).trans h.bounded, fun tx htx hsender => ?_,
    hcounted.settled, count - sentBy sender txs, ?_⟩
  · exact h.keyed signature tx (Mempool.lookup_of_removeTransactions hlookup)
  · exact h.known signature tx (Mempool.lookup_of_removeTransactions hlookup)
  · by_cases hmined : ∃ removed ∈ txs, removed.signature = tx.signature
    · left
      rcases h.kept tx htx hsender with hused | hlookup
      · rw [UInt64.lt_iff_toNat_lt] at hused ⊢
        omega
      · obtain ⟨removed, hremoved, hsignature⟩ := hmined
        have heq := h.eq_of_lookup hlaw (hknown removed hremoved) (hsignature ▸ hlookup) (.inr hsender)
        have hmem := (mem_counted_iff hcounted).mp ⟨tx, heq ▸ hremoved, hsender, rfl⟩
        have hlt := (mem_nonceRange_iff hfew).mp (mem_nonceRange_iff_countersFrom.mpr hmem)
        rw [UInt64.lt_iff_toNat_lt]
        omega
    · push Not at hmined
      rcases h.kept tx htx hsender with hused | hlookup
      · left
        rw [UInt64.lt_iff_toNat_lt] at hused ⊢
        omega
      · exact .inr (Mempool.lookup_removeTransactions_iff.mpr ⟨hlookup, hmined⟩)
  · have hentries : (mempool.removeTransactions txs).entriesOf sender =
        mempool.entriesOf sender \ minedEntries mempool sender txs := by
      ext ⟨signature, tx⟩
      constructor
      · rintro ⟨hlookup, hsender⟩
        obtain ⟨hold, hkept⟩ := Mempool.lookup_removeTransactions_iff.mp hlookup
        refine ⟨⟨hold, hsender⟩, ?_⟩
        rintro ⟨-, removed, hremoved, hsignature⟩
        exact hkept removed hremoved hsignature
      · rintro ⟨⟨hold, hsender⟩, hnot⟩
        refine ⟨Mempool.lookup_removeTransactions_iff.mpr ⟨hold, fun removed hremoved hsignature => ?_⟩,
          hsender⟩
        exact hnot ⟨⟨hold, hsender⟩, removed, hremoved, hsignature⟩
    rw [hentries, hcounted.counted]
    exact hwindow.drop (by omega) (fun _ h => h.1)
      (h.nonces_minedEntries hlaw hcounted hknown hpending)

/-- Counted transactions of the sender that stay in the mempool leave no window. -/
theorem not_window_of_left (h : WalletPool sender Known sent chain mempool)
    (hlaw : Unmistakable sender Known) (hcounted : Chain.NoncesCounted chain chain' txs)
    (hfew : (chain.state.getNonce sender).toNat + sentBy sender txs < 2 ^ 64)
    (hknown : ∀ tx ∈ txs, Known tx) (hpending : ∀ tx ∈ txs, tx.sender = sender →
      mempool.transactions.lookup tx.signature = some tx)
    (hsome : ∃ tx ∈ txs, tx.sender = sender) :
    ¬ ∃ count, Window entryNonce (mempool.entriesOf sender) (chain'.state.getNonce sender) count := by
  obtain ⟨count, hwindow⟩ := h.window
  have hnonces := h.nonces_minedEntries hlaw hcounted hknown hpending
  have hle := hwindow.le_of_dropped (by omega) (fun _ h => h.1) hnonces
  have hcount := h.count_le hwindow
  have hpos : 0 < sentBy sender txs := by
    obtain ⟨tx, htx, hsender⟩ := hsome
    rw [sentBy, noncesOf, List.length_map]
    exact List.length_pos_of_mem (List.mem_filter.mpr ⟨htx, decide_eq_true hsender⟩)
  rintro ⟨count', hshifted⟩
  rw [hcounted.counted] at hshifted
  exact hwindow.not_shifted hpos hle (by omega) hshifted

end WalletPool

/-- The transactions that an event brings from outside. -/
def Event.transactions : Event → List Transaction
  | .block _ delivered => delivered.transactions
  | .blocks _ entries => entries.flatMap fun entry => entry.2.transactions
  | .transaction tx | .submitTransaction tx => [tx]
  | _ => []

namespace Node

variable {node node' mid : Node} {commands : List NetworkCommand} {host : Host} {tx : Transaction}
  {sender : Bytes} {Known : Transaction → Prop} {sent : List Transaction}

/-- The node's own pending transactions are a window of nonces from the one of the state on: pairwise
different and contiguous. -/
def OwnNonces (node : Node) : Prop :=
  ∃ count, Window entryNonce (node.mempool.entriesOf node.myAddress)
    (node.chain.state.getNonce node.myAddress) count

/-- Over a window no walk meets a nonce of the wallet twice. -/
theorem OwnNonces.nodup (h : node.OwnNonces) (host : Host) :
    (((host.walk node.mempool.transactions).filter
      fun entry => entry.2.sender = node.myAddress).map entryNonce).Nodup := by
  obtain ⟨count, hwindow⟩ := h
  have hentry : ∀ entry ∈ (host.walk node.mempool.transactions).filter
      fun entry => entry.2.sender = node.myAddress, entry ∈ node.mempool.entriesOf node.myAddress := by
    intro entry hentry
    obtain ⟨hwalk, hsender⟩ := List.mem_filter.mp hentry
    exact ⟨Host.mem_walk.mp hwalk, of_decide_eq_true hsender⟩
  exact List.Nodup.map_on (fun entry h other h' hsame =>
    hwindow.different (hentry entry h) (hentry other h') hsame)
    ((host.nodup_walk node.mempool.transactions).of_map.filter _)

/-- The transactions that are broadcast. -/
def broadcasts (commands : List NetworkCommand) : List Transaction :=
  commands.filterMap fun
    | .broadcastTransaction tx => some tx
    | _ => none

theorem broadcasts_append (first second : List NetworkCommand) :
    broadcasts (first ++ second) = broadcasts first ++ broadcasts second :=
  List.filterMap_append

/-- Something that offers a transaction to the mempool at most, and broadcasts it if it was taken. -/
structure Offers (crypto : Crypto) (node : Node) (tx : Transaction) (commands : List NetworkCommand)
    (node' : Node) : Prop where
  chain : node'.chain = node.chain
  address : node'.myAddress = node.myAddress
  outcome : broadcasts commands = [] ∧ node'.mempool = node.mempool ∨
    node.mempool.admission crypto tx node.chain.state = .ok () ∧ broadcasts commands = [tx] ∧
      node'.mempool = node.mempool.entered tx

/-- Nothing is offered. -/
theorem Offers.nothing (hbroadcasts : broadcasts commands = []) : Offers crypto node tx commands node :=
  ⟨rfl, rfl, .inl ⟨hbroadcasts, rfl⟩⟩

/-- A refused transaction leaves the node as it is, an admitted one is entered. -/
theorem addTransaction_eq (crypto : Crypto) (node : Node) (tx : Transaction) :
    (∃ error, node.addTransaction crypto tx = (.error error, node)) ∨
      node.mempool.admission crypto tx node.chain.state = .ok () ∧
        node.addTransaction crypto tx = (.ok (), { node with mempool := node.mempool.entered tx }) := by
  unfold addTransaction Mempool.addTransaction
  cases hadmission : node.mempool.admission crypto tx node.chain.state with
  | error error => exact .inl ⟨error, rfl⟩
  | ok => exact .inr ⟨rfl, rfl⟩

/-- Publishing offers the transaction. -/
theorem offers_publish (crypto : Crypto) (node : Node) (tx : Transaction) :
    Offers crypto node tx (node.publish crypto tx).1 (node.publish crypto tx).2 := by
  unfold publish
  rcases node.addTransaction_eq crypto tx with ⟨error, hrefused⟩ | ⟨hadmitted, htaken⟩
  · rw [hrefused]
    exact .nothing rfl
  · rw [htaken]
    exact ⟨rfl, rfl, .inr ⟨hadmitted, rfl, rfl⟩⟩

/-- So does submitting. -/
theorem offers_submit (crypto : Crypto) (node : Node) (tx : Transaction) (onError : String → String) :
    Offers crypto node tx (node.submit crypto tx onError).1 (node.submit crypto tx onError).2 := by
  unfold submit
  rcases node.addTransaction_eq crypto tx with ⟨error, hrefused⟩ | ⟨hadmitted, htaken⟩
  · rw [hrefused]
    exact .nothing rfl
  · rw [htaken]
    exact ⟨rfl, rfl, .inr ⟨hadmitted, rfl, rfl⟩⟩

/-- A faucet claim offers a transfer with the next nonce. -/
theorem offers_handleFaucet (crypto : Crypto) (host : Host) (node : Node) (receiver : Option Bytes)
    (currentTime : Int64) (recorded : Option String) :
    ∃ address amount, Offers crypto node (node.newTransfer crypto host address amount)
      (node.handleFaucet crypto host receiver currentTime recorded).1
      (node.handleFaucet crypto host receiver currentTime recorded).2 := by
  unfold handleFaucet
  split
  · exact ⟨[], 0, .nothing rfl⟩
  · rename_i address
    refine ⟨address, 1000, ?_⟩
    split
    · exact .nothing rfl
    · split
      · exact .nothing rfl
      · dsimp only
        split
        · exact .nothing rfl
        · rcases node.addTransaction_eq crypto (node.newTransfer crypto host address 1000) with
            ⟨error, hrefused⟩ | ⟨hadmitted, htaken⟩
          · rw [hrefused]
            exact .nothing rfl
          · rw [htaken]
            exact ⟨rfl, rfl, .inr ⟨hadmitted, rfl, rfl⟩⟩

/-- A slot may generate one. -/
theorem offers_simulate (crypto : Crypto) (host : Host) (node : Node) (tick : Tick) :
    ∃ address amount, Offers crypto node (node.newTransfer crypto host address amount)
      (node.simulate crypto host tick).1 (node.simulate crypto host tick).2 := by
  unfold simulate
  split
  · exact ⟨[], 0, .nothing rfl⟩
  · rename_i receiver _
    split
    · exact ⟨receiver, 10, offers_publish ..⟩
    · exact ⟨[], 0, .nothing rfl⟩

/-- The node holds a sender's wallet, and the mempool keeps track of what the sender sent. -/
structure Tracks (sender : Bytes) (Known : Transaction → Prop) (sent : List Transaction) (node : Node) :
    Prop where
  address : node.myAddress = sender
  pool : WalletPool sender Known sent node.chain node.mempool

/-- Such a node's own nonces are a window. -/
theorem Tracks.ownNonces (h : Tracks sender Known sent node) : node.OwnNonces := by
  unfold OwnNonces
  rw [h.address]
  exact h.pool.window

/-- Nothing is offered that concerns the wallet. -/
theorem Tracks.of_same (h : Tracks sender Known sent node) (hchain : node'.chain = node.chain)
    (haddress : node'.myAddress = node.myAddress) (hmempool : node'.mempool = node.mempool)
    (hbroadcasts : broadcasts commands = []) : Tracks sender Known (sent ++ broadcasts commands) node' := by
  rw [hbroadcasts, List.append_nil]
  refine ⟨haddress.trans h.address, ?_⟩
  rw [hchain, hmempool]
  exact h.pool

/-- The transfer that a handler makes takes the next nonce. -/
theorem Tracks.nonce_newTransfer (h : Tracks sender Known sent node) {count : ℕ}
    (hwindow : Window entryNonce (node.mempool.entriesOf sender) (node.chain.state.getNonce sender) count)
    (receiver : Bytes) (amount : UInt64) :
    (node.newTransfer crypto host receiver amount).nonce =
      node.chain.state.getNonce sender + UInt64.ofNat count := by
  change node.chain.state.getNonce node.myAddress + node.pendingNonceOffset host = _
  rw [pendingNonceOffset, h.address, Mempool.length_selectedOf host h.pool.bounded hwindow]

/-- A handler that counts the pending transactions keeps track. -/
theorem Tracks.transfer (h : Tracks sender Known sent node) (hlaw : Unmistakable sender Known)
    (hknown : ∀ tx ∈ broadcasts commands, Known tx) {receiver : Bytes} {amount : UInt64}
    (hoffers : Offers crypto node (node.newTransfer crypto host receiver amount) commands node') :
    Tracks sender Known (sent ++ broadcasts commands) node' := by
  rcases hoffers.outcome with ⟨hnone, hmempool⟩ | ⟨hadmitted, hone, hmempool⟩
  · exact h.of_same hoffers.chain hoffers.address hmempool hnone
  · obtain ⟨count, hwindow⟩ := h.pool.window
    rw [hone] at hknown ⊢
    refine ⟨hoffers.address.trans h.address, ?_⟩
    rw [hoffers.chain, hmempool]
    exact h.pool.enter_next hlaw hadmitted (hknown _ (List.mem_singleton_self _)) h.address hwindow
      (h.nonce_newTransfer hwindow receiver amount)

/-- A transaction from outside that is not of the wallet, or was sent before, is kept track of. -/
theorem Tracks.offer (h : Tracks sender Known sent node) (hlaw : Unmistakable sender Known)
    (hbrought : tx.validate crypto = .ok () → Known tx ∧ (tx.sender = sender → tx ∈ sent))
    (hoffers : Offers crypto node tx commands node') :
    Tracks sender Known (sent ++ broadcasts commands) node' := by
  rcases hoffers.outcome with ⟨hnone, hmempool⟩ | ⟨hadmitted, hone, hmempool⟩
  · exact h.of_same hoffers.chain hoffers.address hmempool hnone
  · obtain ⟨hknown, hsent⟩ := hbrought (Mempool.validate_of_admission hadmitted)
    refine ⟨hoffers.address.trans h.address, ?_⟩
    rw [hoffers.chain, hmempool, hone]
    refine (h.pool.enter_sent hlaw hadmitted hknown hsent).of_sent fun other hother hsender => ?_
    obtain rfl := List.mem_singleton.mp hother
    exact .inl (hsent hsender)

/-- The registration that the node makes: with the nonce of the state. -/
def registration (crypto : Crypto) (node : Node) (stake : UInt64) : Transaction :=
  .new crypto node.myAddress [] (.registerValidator stake)
    (node.chain.state.getNonce node.myAddress) node.myAddress

/-- A registration stands alone: it is refused, nothing of the wallet is pending, or it is pending itself. -/
def Alone (crypto : Crypto) (node : Node) (stake : UInt64) : Prop :=
  node.chain.state.getBalance node.myAddress < stake ∨
    node.mempool.admission crypto (node.registration crypto stake) node.chain.state ≠ .ok () ∨
    (∀ signature tx, node.mempool.transactions.lookup signature = some tx →
      tx.sender ≠ node.myAddress) ∨
    node.mempool.transactions.lookup (node.registration crypto stake).signature =
      some (node.registration crypto stake)

instance (crypto : Crypto) (node : Node) (stake : UInt64) : Decidable (node.Alone crypto stake) :=
  decidable_of_iff (node.chain.state.getBalance node.myAddress < stake ∨
      node.mempool.admission crypto (node.registration crypto stake) node.chain.state ≠ .ok () ∨
      (∀ entry ∈ Host.plain.walk node.mempool.transactions, entry.2.sender ≠ node.myAddress) ∨
      node.mempool.transactions.lookup (node.registration crypto stake).signature =
        some (node.registration crypto stake))
    (or_congr_right (or_congr_right (or_congr_left
      ⟨fun h signature tx hlookup => h (signature, tx) (Host.mem_walk.mpr hlookup),
        fun h entry hentry => h entry.1 entry.2 (Host.mem_walk.mp hentry)⟩)))

/-- The handler of a registration leaves a window of own nonces exactly if the registration stands alone. -/
theorem Tracks.register (h : Tracks sender Known sent node) (hlaw : Unmistakable sender Known)
    {stake : UInt64} (hhandled : node.handleRegister crypto stake = (commands, node'))
    (hknown : ∀ tx ∈ broadcasts commands, Known tx) :
    (node.Alone crypto stake → Tracks sender Known (sent ++ broadcasts commands) node') ∧
      (node'.OwnNonces → node.Alone crypto stake) := by
  unfold handleRegister at hhandled
  split at hhandled
  · rename_i hpoor
    obtain ⟨rfl, rfl⟩ := Prod.mk.inj hhandled
    exact ⟨fun _ => h.of_same rfl rfl rfl rfl, fun _ => .inl hpoor⟩
  · rename_i hfunded
    change node.submit crypto (node.registration crypto stake) id = (commands, node') at hhandled
    unfold submit at hhandled
    rcases node.addTransaction_eq crypto (node.registration crypto stake) with
      ⟨error, hrefused⟩ | ⟨hadmitted, htaken⟩
    · rw [hrefused] at hhandled
      obtain ⟨rfl, rfl⟩ := Prod.mk.inj hhandled
      refine ⟨fun _ => h.of_same rfl rfl rfl rfl, fun _ => .inr (.inl fun hadmitted => ?_)⟩
      unfold addTransaction Mempool.addTransaction at hrefused
      rw [hadmitted] at hrefused
      simp at hrefused
    · rw [htaken] at hhandled
      obtain ⟨rfl, rfl⟩ := Prod.mk.inj hhandled
      have hreg : Known (node.registration crypto stake) := hknown _ List.mem_cons_self
      have hown : (node.registration crypto stake).sender = sender := h.address
      have hnonce : (node.registration crypto stake).nonce = node.chain.state.getNonce sender := by
        rw [← h.address]
        rfl
      obtain ⟨count, hwindow⟩ := h.pool.window
      refine ⟨fun halone => ⟨h.address, ?_⟩, fun hafter => ?_⟩
      · rcases halone with hpoor | hrefused | hnone | hpending
        · exact absurd hpoor hfunded
        · exact absurd hadmitted hrefused
        · have hempty : node.mempool.entriesOf sender = ∅ := by
            ext ⟨signature, tx⟩
            refine iff_of_false (fun hentry => ?_) (Set.notMem_empty _)
            exact hnone signature tx hentry.1 (hentry.2.trans h.address.symm)
          have hzero : count = 0 := by
            rw [← hwindow.ncard, hempty, Set.ncard_empty]
          refine h.pool.enter_next hlaw hadmitted hreg hown hwindow ?_
          rw [hnonce, hzero]
          exact (UInt64.add_zero _).symm
        · change WalletPool sender Known _ node.chain (node.mempool.entered _)
          rw [Mempool.entered_of_lookup hpending]
          refine h.pool.of_sent fun other hother _ => ?_
          obtain rfl := List.mem_singleton.mp hother
          exact .inr hpending
      · by_contra halone
        unfold Alone at halone
        push Not at halone
        obtain ⟨-, -, ⟨signature, tx, hlookup, hsender⟩, hfresh⟩ := halone
        have hnew : ∀ old, node.mempool.transactions.lookup
            (node.registration crypto stake).signature ≠ some old := by
          intro old hold
          have heq := h.pool.eq_of_lookup hlaw hreg hold (.inl hown)
          exact hfresh (heq ▸ hold)
        have hentries := Mempool.entriesOf_entered node.mempool (node.registration crypto stake)
          fun old hold => absurd hold (hnew old)
        obtain ⟨count', hboth⟩ := hafter
        change Window entryNonce ((node.mempool.entered _).entriesOf node.myAddress) _ count' at hboth
        rw [h.address, ← hown, hentries, hown] at hboth
        have hentry : (signature, tx) ∈ node.mempool.entriesOf sender :=
          ⟨hlookup, hsender.trans h.address⟩
        have hpos : 0 < count := hwindow.pos_of_mem hentry
        refine hwindow.not_insert (fun hentry => hnew _ hentry.1) ?_ hboth
        exact ⟨0, hpos, hnonce.trans (UInt64.add_zero _).symm⟩

/-- An accepted block has valid transactions only. -/
theorem valid_of_accepted {chain chain' : Chain} {block : Block}
    (h : chain.addBlock crypto host block = some (true, chain')) (htx : tx ∈ block.transactions) :
    tx.validate crypto = .ok () := by
  have hall : ∀ {txs : List Transaction} {state state' : State},
      Chain.processTransactions crypto state txs = (.ok (), state') →
        ∀ tx ∈ txs, tx.validate crypto = .ok () := by
    intro txs
    induction txs with
    | nil => simp
    | cons first rest ih =>
      intro state state' hexec
      rw [Chain.processTransactions] at hexec
      split at hexec
      · simp at hexec
      · rename_i hfirst
        refine List.forall_mem_cons.mpr ⟨?_, ih hexec⟩
        unfold Chain.processTransaction at hfirst
        split at hfirst
        · simp at hfirst
        · assumption
  cases Chain.delivery_of_addBlock h with
  | commit _ _ _ hexec => exact hall hexec tx htx

/-- What a batch accepts was in the batch and is valid. -/
theorem mem_acceptedBlocks {chain : Chain} {entries : List (Host × Block)}
    (htx : tx ∈ transactionsIn (acceptedBlocks crypto chain entries)) :
    tx ∈ entries.flatMap (fun entry => entry.2.transactions) ∧ tx.validate crypto = .ok () := by
  induction entries generalizing chain with
  | nil => simp [acceptedBlocks, transactionsIn] at htx
  | cons entry rest ih =>
    obtain ⟨host, block⟩ := entry
    rw [List.flatMap_cons, List.mem_append]
    rw [acceptedBlocks] at htx
    split at htx
    · simp [transactionsIn] at htx
    · rename_i next hadd
      rw [transactionsIn, List.flatMap_cons, List.mem_append] at htx
      rcases htx with hfirst | hrest
      · exact ⟨.inl hfirst, valid_of_accepted hadd hfirst⟩
      · exact (ih hrest).imp_left .inr
    · split at htx
      · exact (ih htx).imp_left .inr
      · simp [transactionsIn] at htx

/-- After a block from the network the mempool lacks what was accepted. -/
theorem frame_handleBlock {block : Block}
    (h : node.handleBlock crypto host block = some (commands, node')) :
    node'.myAddress = node.myAddress ∧ broadcasts commands = [] ∧ node'.mempool =
      node.mempool.removeTransactions (node.acceptedIn crypto (.block host block)) := by
  obtain ⟨⟨accepted, chain⟩, hdelivered, hact⟩ := Option.bind_eq_some_iff.mp h
  have haccepted : node.acceptedIn crypto (.block host block) =
      Chain.committedTransactions block accepted :=
    Chain.transactionsIn_acceptedBlocks_single hdelivered
  rw [haccepted]
  cases accepted with
  | false =>
    obtain ⟨rfl, rfl⟩ := Prod.mk.inj (Option.some.inj hact)
    exact ⟨rfl, rfl, rfl⟩
  | true =>
    obtain ⟨head, -, hvote⟩ := Option.bind_eq_some_iff.mp hact
    split at hvote <;>
      · obtain ⟨rfl, rfl⟩ := Prod.mk.inj (Option.some.inj hvote)
        exact ⟨rfl, rfl, rfl⟩

/-- After a batch of blocks the mempool is what it was. -/
theorem frame_handleBlocks {blocks : List (Host × Block)}
    (h : node.handleBlocks crypto blocks = some (commands, node')) :
    node'.myAddress = node.myAddress ∧ broadcasts commands = [] ∧ node'.mempool = node.mempool := by
  rcases handleBlocks_cases h with ⟨error, chain', -, rfl, rfl⟩ |
    ⟨count, chain', syncManager, -, -, hcontinue⟩
  · exact ⟨rfl, rfl, rfl⟩
  · unfold continueSync at hcontinue
    split at hcontinue
    · obtain ⟨height, -, hact⟩ := Option.bind_eq_some_iff.mp hcontinue
      split at hact
      · split at hact <;>
          · obtain ⟨rfl, rfl⟩ := Prod.mk.inj (Option.some.inj hact)
            exact ⟨rfl, rfl, rfl⟩
      · obtain ⟨rfl, rfl⟩ := Prod.mk.inj (Option.some.inj hact)
        exact ⟨rfl, rfl, rfl⟩
    · obtain ⟨rfl, rfl⟩ := Prod.mk.inj (Option.some.inj hcontinue)
      exact ⟨rfl, rfl, rfl⟩

/-- Pruning leaves wallet and mempool alone. -/
theorem frame_prune {tick : Tick} (h : node.prune tick = some node') :
    node'.myAddress = node.myAddress ∧ node'.mempool = node.mempool := by
  unfold prune at h
  split at h
  · obtain ⟨height, -, hprune⟩ := Option.bind_eq_some_iff.mp h
    dsimp only at hprune
    split at hprune <;>
      · rw [← Option.some.inj hprune]
        exact ⟨rfl, rfl⟩
  · rw [← Option.some.inj h]
    exact ⟨rfl, rfl⟩

/-- What a slot does to mempool and wallet: nothing, or it may generate a transfer and mines some of the
selected transactions. -/
theorem frame_handleSlot {tick : Tick} (h : node.handleSlot crypto host tick = some (commands, node')) :
    (commands = [] ∧ node' = node) ∨
      node'.myAddress = (node.selecting crypto host tick).myAddress ∧
      broadcasts commands =
        broadcasts (simulate crypto host { node with lastSlot := tick.currentSlot } tick).1 ∧
      node'.mempool = (node.selecting crypto host tick).mempool.removeTransactions
        (node.acceptedIn crypto (.slot host tick)) ∧
      ∀ tx ∈ node.acceptedIn crypto (.slot host tick),
        tx ∈ (node.selecting crypto host tick).mempool.getTransactionsForBlock host 100 := by
  have hselecting : node.selecting crypto host tick =
      (simulate crypto host { node with lastSlot := tick.currentSlot } tick).2 := rfl
  unfold handleSlot at h
  split at h
  · rename_i hentered
    right
    rw [hselecting, acceptedIn_slot, ownBlock, if_pos hentered, hselecting]
    generalize simulate crypto host { node with lastSlot := tick.currentSlot } tick = generated at h
    obtain ⟨parent, hparent, hact⟩ := Option.bind_eq_some_iff.mp h
    split at hact
    · rename_i hleader
      obtain ⟨⟨produced, next⟩, hproduce, hlast⟩ := Option.bind_eq_some_iff.mp hact
      obtain ⟨rfl, rfl⟩ := Prod.mk.inj (Option.some.inj hlast)
      obtain ⟨pruned, hprune, hadd⟩ := Option.bind_eq_some_iff.mp hproduce
      obtain ⟨⟨accepted, chain⟩, hdelivered, hdone⟩ := Option.bind_eq_some_iff.mp hadd
      obtain ⟨haddress, hmempool⟩ := frame_prune hprune
      rw [broadcasts_append]
      cases accepted with
      | false =>
        obtain ⟨rfl, rfl⟩ := Prod.mk.inj (Option.some.inj hdone)
        refine ⟨haddress, List.append_nil _, ?_⟩
        simp only [hparent, hleader, hprune, Option.bind_eq_bind, Option.bind_some, if_true]
        rw [Chain.transactionsIn_acceptedBlocks_single hdelivered]
        exact ⟨hmempool, by simp [Chain.committedTransactions]⟩
      | true =>
        obtain ⟨rfl, rfl⟩ := Prod.mk.inj (Option.some.inj hdone)
        refine ⟨haddress, List.append_nil _, ?_⟩
        simp only [hparent, hleader, hprune, Option.bind_eq_bind, Option.bind_some, if_true]
        rw [Chain.transactionsIn_acceptedBlocks_single hdelivered]
        exact ⟨congrArg (fun mempool : Mempool => mempool.removeTransactions _) hmempool,
          fun tx htx => htx⟩
    · rename_i hfollower
      obtain ⟨rfl, rfl⟩ := Prod.mk.inj (Option.some.inj hact)
      refine ⟨rfl, rfl, ?_⟩
      simp only [hparent, hfollower, Option.bind_eq_bind, Option.bind_some, if_false, Bool.false_eq_true]
      exact ⟨rfl, by simp⟩
  · obtain ⟨rfl, rfl⟩ := Prod.mk.inj (Option.some.inj h)
    exact .inl ⟨rfl, rfl⟩

/-- An event is careful with the wallet: a registration stands alone, and a batch of blocks brings none of
the wallet's transactions onto the chain. -/
def Careful (crypto : Crypto) (node : Node) : Event → Prop
  | .registerValidator stake => node.Alone crypto stake
  | .blocks peerId blocks =>
      ∀ tx ∈ node.acceptedIn crypto (.blocks peerId blocks), tx.sender ≠ node.myAddress
  | _ => True

instance (crypto : Crypto) (node : Node) (event : Event) : Decidable (node.Careful crypto event) :=
  match event with
  | .registerValidator stake => inferInstanceAs (Decidable (node.Alone crypto stake))
  | .blocks peerId blocks => inferInstanceAs (Decidable
      (∀ tx ∈ node.acceptedIn crypto (.blocks peerId blocks), tx.sender ≠ node.myAddress))
  | .vote .. | .chainInfo .. | .peerConnected .. | .peerDisconnected .. | .peerIdentified ..
  | .incomingRequest .. | .toggleSim | .send .. | .slot .. | .block .. | .transaction ..
  | .submitTransaction .. | .createTransaction .. | .setWallet .. | .faucet .. =>
      inferInstanceAs (Decidable True)

/-- What an event brings from outside: known transactions, and of the wallet only such as were sent. -/
def Brings (crypto : Crypto) (sender : Bytes) (Known : Transaction → Prop) (sent : List Transaction)
    (event : Event) : Prop :=
  ∀ tx ∈ event.transactions, tx.validate crypto = .ok () → Known tx ∧ (tx.sender = sender → tx ∈ sent)

/-- The transactions that a block from the network brings onto the chain leave the mempool. -/
theorem Tracks.block (h : Tracks sender Known sent node) (hlaw : Unmistakable sender Known)
    {block : Block} (hreliable : host.Reliable)
    (hbrings : Brings crypto sender Known sent (.block host block))
    (hfew : (node.chain.state.getNonce sender).toNat +
      sentBy sender (node.acceptedIn crypto (.block host block)) < 2 ^ 64)
    (hhandled : node.handleBlock crypto host block = some (commands, node')) :
    Tracks sender Known (sent ++ broadcasts commands) node' := by
  obtain ⟨haddress, hquiet, hmempool⟩ := frame_handleBlock hhandled
  have hcounted := (handled_handleBlock hreliable hhandled).counted h.pool.settled
  have hbrought : ∀ tx ∈ node.acceptedIn crypto (.block host block),
      Known tx ∧ (tx.sender = sender → tx ∈ sent) := by
    intro tx htx
    have hbatch : tx ∈ transactionsIn (acceptedBlocks crypto node.chain [(host, block)]) := htx
    obtain ⟨hmem, hvalid⟩ := mem_acceptedBlocks hbatch
    rw [List.flatMap_cons, List.flatMap_nil, List.append_nil] at hmem
    exact hbrings tx hmem hvalid
  rw [hquiet, List.append_nil]
  refine ⟨haddress.trans h.address, ?_⟩
  rw [hmempool]
  exact h.pool.mine hlaw hcounted hfew (fun tx htx => (hbrought tx htx).1) fun tx htx hsender =>
    h.pool.pending_of_counted hcounted hfew htx hsender ((hbrought tx htx).2 hsender)

/-- A batch of blocks leaves a window of own nonces exactly if it is careful. -/
theorem Tracks.blocks (h : Tracks sender Known sent node) (hlaw : Unmistakable sender Known)
    {peerId : Bytes} {blocks : List (Host × Block)} (hreliable : ∀ entry ∈ blocks, entry.1.Reliable)
    (hbrings : Brings crypto sender Known sent (.blocks peerId blocks))
    (hfew : (node.chain.state.getNonce sender).toNat +
      sentBy sender (node.acceptedIn crypto (.blocks peerId blocks)) < 2 ^ 64)
    (hhandled : node.handleBlocks crypto blocks = some (commands, node')) :
    (node.Careful crypto (.blocks peerId blocks) → Tracks sender Known (sent ++ broadcasts commands) node') ∧
      (node'.OwnNonces → node.Careful crypto (.blocks peerId blocks)) := by
  obtain ⟨haddress, hquiet, hmempool⟩ := frame_handleBlocks hhandled
  have hevent : Handled crypto node (.blocks peerId blocks) node' :=
    handled_handleBlocks hreliable hhandled
  have hcounted := hevent.counted h.pool.settled
  have hbrought : ∀ tx ∈ node.acceptedIn crypto (.blocks peerId blocks),
      Known tx ∧ (tx.sender = sender → tx ∈ sent) := by
    intro tx htx
    obtain ⟨hmem, hvalid⟩ := mem_acceptedBlocks htx
    exact hbrings tx hmem hvalid
  constructor
  · intro hcareful
    rw [hquiet, List.append_nil]
    refine ⟨haddress.trans h.address, ?_⟩
    rw [hmempool]
    exact h.pool.of_chain hcounted fun tx htx => h.address ▸ hcareful tx htx
  · intro hafter tx htx hsender
    unfold OwnNonces at hafter
    rw [haddress, h.address, hmempool] at hafter
    refine h.pool.not_window_of_left hlaw hcounted hfew (fun tx htx => (hbrought tx htx).1)
      (fun tx htx hsender =>
        h.pool.pending_of_counted hcounted hfew htx hsender ((hbrought tx htx).2 hsender))
      ⟨tx, htx, hsender.trans h.address⟩ hafter

/-- A slot keeps track: what it mines was selected from the mempool. -/
theorem Tracks.slot (h : Tracks sender Known sent node) (hlaw : Unmistakable sender Known) {tick : Tick}
    (hreliable : host.Reliable) (hknown : ∀ tx ∈ broadcasts commands, Known tx)
    (hfew : (node.chain.state.getNonce sender).toNat +
      sentBy sender (node.acceptedIn crypto (.slot host tick)) < 2 ^ 64)
    (hhandled : node.handleSlot crypto host tick = some (commands, node')) :
    Tracks sender Known (sent ++ broadcasts commands) node' := by
  rcases frame_handleSlot hhandled with ⟨rfl, rfl⟩ | ⟨haddress, hbroadcasts, hmempool, hselected⟩
  · exact h.of_same rfl rfl rfl rfl
  · obtain ⟨receiver, amount, hoffers⟩ :=
      offers_simulate crypto host { node with lastSlot := tick.currentSlot } tick
    have hentered : Tracks sender Known sent { node with lastSlot := tick.currentSlot } :=
      ⟨h.address, h.pool⟩
    rw [hbroadcasts] at hknown ⊢
    have hready : Tracks sender Known _ (node.selecting crypto host tick) :=
      hentered.transfer hlaw hknown hoffers
    have hchain : (node.selecting crypto host tick).chain = node.chain := hoffers.chain
    have hpool := hready.pool
    rw [hchain] at hpool
    refine ⟨haddress.trans hready.address, ?_⟩
    rw [hmempool]
    have hentry : ∀ tx ∈ node.acceptedIn crypto (.slot host tick),
        (node.selecting crypto host tick).mempool.transactions.lookup tx.signature = some tx := by
      intro tx htx
      obtain ⟨signature, hlookup⟩ := Mempool.lookup_of_selected (hselected tx htx)
      rw [hpool.keyed signature tx hlookup]
      exact hlookup
    exact hpool.mine hlaw ((handled_handleSlot hreliable hhandled).counted h.pool.settled) hfew
      (fun tx htx => hpool.known _ tx (hentry tx htx)) fun tx htx _ => hentry tx htx

/-- Of a node that keeps track of its one wallet, a careful event leaves such a node, and only a careful
event leaves a window of own nonces. -/
theorem Tracks.step (h : Tracks sender Known sent node) (hlaw : Unmistakable sender Known) {event : Event}
    (hreliable : event.Reliable) (hwallet : ∀ address, event ≠ .setWallet address)
    (hbrings : Brings crypto sender Known sent event) (hknown : ∀ tx ∈ broadcasts commands, Known tx)
    (hfew : (node.chain.state.getNonce sender).toNat + sentBy sender (node.acceptedIn crypto event) <
      2 ^ 64)
    (hhandled : node.handle crypto event = some (commands, node')) :
    (node.Careful crypto event → Tracks sender Known (sent ++ broadcasts commands) node') ∧
      (node'.OwnNonces → node.Careful crypto event) := by
  have hfree : Tracks sender Known (sent ++ broadcasts commands) node' → node.Careful crypto event →
      (node.Careful crypto event → Tracks sender Known (sent ++ broadcasts commands) node') ∧
        (node'.OwnNonces → node.Careful crypto event) :=
    fun htracks hcareful => ⟨fun _ => htracks, fun _ => hcareful⟩
  cases event with
  | registerValidator stake => exact h.register hlaw (Option.some.inj hhandled) hknown
  | blocks peerId blocks => exact h.blocks hlaw hreliable hbrings hfew hhandled
  | block host block => exact hfree (h.block hlaw hreliable hbrings hfew hhandled) trivial
  | slot host tick => exact hfree (h.slot hlaw hreliable hknown hfew hhandled) trivial
  | setWallet address => exact absurd rfl (hwallet address)
  | vote host vote =>
    obtain ⟨rfl, rfl⟩ := Prod.mk.inj (Option.some.inj hhandled)
    refine hfree ⟨h.address, ?_⟩ trivial
    rw [show broadcasts [] = [] from rfl, List.append_nil]
    exact h.pool.of_chain (Chain.noncesCounted_of_vote host vote h.pool.settled) (by simp)
  | send host receiver amount =>
    obtain ⟨rfl, rfl⟩ := Prod.mk.inj (Option.some.inj hhandled)
    cases receiver with
    | none => exact hfree (h.of_same rfl rfl rfl rfl) trivial
    | some receiver => exact hfree (h.transfer hlaw hknown (offers_publish ..)) trivial
  | createTransaction host receiver amount =>
    obtain ⟨rfl, rfl⟩ := Prod.mk.inj (Option.some.inj hhandled)
    cases receiver with
    | none => exact hfree (h.of_same rfl rfl rfl rfl) trivial
    | some receiver => exact hfree (h.transfer hlaw hknown (offers_submit ..)) trivial
  | faucet host receiver currentTime recorded =>
    obtain ⟨rfl, rfl⟩ := Prod.mk.inj (Option.some.inj hhandled)
    obtain ⟨address, amount, hoffers⟩ :=
      offers_handleFaucet crypto host node receiver currentTime recorded
    exact hfree (h.transfer hlaw hknown hoffers) trivial
  | submitTransaction tx =>
    obtain ⟨rfl, rfl⟩ := Prod.mk.inj (Option.some.inj hhandled)
    exact hfree (h.offer hlaw (hbrings tx (List.mem_singleton_self tx)) (offers_submit ..)) trivial
  | transaction tx =>
    obtain ⟨rfl, rfl⟩ := Prod.mk.inj (Option.some.inj hhandled)
    -- gossip is not broadcast again, so nothing more counts as sent
    refine hfree ?_ trivial
    rw [show broadcasts [] = [] from rfl, List.append_nil]
    rcases node.addTransaction_eq crypto tx with ⟨error, hrefused⟩ | ⟨hadmitted, htaken⟩
    · rw [hrefused]
      exact h
    · obtain ⟨hknown, hsent⟩ :=
        hbrings tx (List.mem_singleton_self tx) (Mempool.validate_of_admission hadmitted)
      rw [htaken]
      exact ⟨h.address, h.pool.enter_sent hlaw hadmitted hknown hsent⟩
  | chainInfo host peerId height headHash =>
    obtain ⟨ourHeight, -, hact⟩ := Option.bind_eq_some_iff.mp hhandled
    split at hact <;>
      · obtain ⟨rfl, rfl⟩ := Prod.mk.inj (Option.some.inj hact)
        exact hfree (h.of_same rfl rfl rfl rfl) trivial
  | incomingRequest peerId request channel =>
    cases request with
    | getChainInfo =>
      obtain ⟨height, -, hact⟩ := Option.bind_eq_some_iff.mp hhandled
      obtain ⟨rfl, rfl⟩ := Prod.mk.inj (Option.some.inj hact)
      exact hfree (h.of_same rfl rfl rfl rfl) trivial
    | getBlocks startHash limit =>
      obtain ⟨rfl, rfl⟩ := Prod.mk.inj (Option.some.inj hhandled)
      exact hfree (h.of_same rfl rfl rfl rfl) trivial
  | peerConnected | peerDisconnected | peerIdentified | toggleSim =>
    obtain ⟨rfl, rfl⟩ := Prod.mk.inj (Option.some.inj hhandled)
    exact hfree (h.of_same rfl rfl rfl rfl) trivial

/-- The transactions that are broadcast in a run. -/
def sentIn (calls : List (Call Node Event (List NetworkCommand))) : List Transaction :=
  calls.flatMap fun call => broadcasts call.output

/-- The transactions of the blocks that are accepted in a run of events. -/
def minedIn (crypto : Crypto) (calls : List (Call Node Event (List NetworkCommand))) : List Transaction :=
  calls.flatMap fun call => call.pre.acceptedIn crypto call.label

/-- The transactions of a run: the valid ones that events bring, and those that are broadcast. -/
def occurringIn (crypto : Crypto) (calls : List (Call Node Event (List NetworkCommand))) :
    List Transaction :=
  calls.flatMap fun call =>
    (call.label.transactions.filter fun tx => tx.validate crypto = .ok ()) ++ broadcasts call.output

/-- The run has one wallet, which nobody else signs with: it is not replaced, and an event brings valid
transactions of the wallet only after they were broadcast. -/
structure OneWallet (crypto : Crypto) (sender : Bytes) (calls : List (Call Node Event (List NetworkCommand))) :
    Prop where
  kept : ∀ call ∈ calls, ∀ address, call.label ≠ .setWallet address
  unforged : ∀ before call after, calls = before ++ call :: after → ∀ tx ∈ call.label.transactions,
    tx.validate crypto = .ok () → tx.sender = sender → tx ∈ sentIn before
  unmistakable : Unmistakable sender (· ∈ occurringIn crypto calls)

/-- Along a run over one wallet: the accepted blocks are counted, the window of own nonces is kept exactly by
careful events, and a careful run is kept track of. -/
theorem tracks_of_run {opened : Node} {calls : List (Call Node Event (List NetworkCommand))}
    (hlaw : Unmistakable sender Known) (hopened : Tracks sender Known [] opened)
    (hrun : Run (handle crypto) opened calls node) (hreliable : ∀ call ∈ calls, call.label.Reliable)
    (hkept : ∀ call ∈ calls, ∀ address, call.label ≠ .setWallet address)
    (hbrings : ∀ before call after, calls = before ++ call :: after →
      Brings crypto sender Known (sentIn before) call.label)
    (hknown : ∀ call ∈ calls, ∀ tx ∈ broadcasts call.output, Known tx)
    (hfew : (opened.chain.state.getNonce sender).toNat + (minedIn crypto calls).length < 2 ^ 64) :
    Chain.NoncesCounted opened.chain node.chain (minedIn crypto calls) ∧
      ((∀ call ∈ calls, call.post.OwnNonces) ↔ ∀ call ∈ calls, call.pre.Careful crypto call.label) ∧
      ((∀ call ∈ calls, call.pre.Careful crypto call.label) → Tracks sender Known (sentIn calls) node) := by
  induction hrun with
  | nil => exact ⟨.of_same hopened.pool.settled fun _ => rfl, by simp, fun _ => hopened⟩
  | @snoc calls s s' event commands _ hnext ih =>
    have hmined : minedIn crypto (calls ++ [⟨s, event, commands, s'⟩]) =
        minedIn crypto calls ++ s.acceptedIn crypto event := by
      simp [minedIn]
    have hsent : sentIn (calls ++ [⟨s, event, commands, s'⟩]) = sentIn calls ++ broadcasts commands := by
      simp [sentIn]
    rw [hmined] at hfew ⊢
    rw [hsent]
    rw [List.length_append] at hfew
    simp only [List.forall_mem_append, List.forall_mem_singleton] at hreliable hkept hknown ⊢
    obtain ⟨hbringsBefore, hbringsLast⟩ := forall_calls_snoc.mp hbrings
    obtain ⟨hcounted, hwindows, htracks⟩ :=
      ih hreliable.1 hkept.1 hbringsBefore hknown.1 (by omega)
    have hnonce : (s.chain.state.getNonce sender).toNat =
        (opened.chain.state.getNonce sender).toNat + sentBy sender (minedIn crypto calls) := by
      have hle := sentBy_le_length sender (minedIn crypto calls)
      rw [hcounted.counted, UInt64.toNat_add, UInt64.toNat_ofNat']
      omega
    have hle := sentBy_le_length sender (minedIn crypto calls)
    have hlast := sentBy_le_length sender (s.acceptedIn crypto event)
    have hstep := fun hbefore => (htracks hbefore).step hlaw hreliable.2 hkept.2 hbringsLast hknown.2
      (by omega) hnext
    refine ⟨hcounted.trans ((handled_of_handle hreliable.2 hnext).counted hcounted.settled), ?_,
      fun hcareful => (hstep hcareful.1).1 hcareful.2⟩
    rw [hwindows]
    exact and_congr_right fun hbefore =>
      ⟨(hstep hbefore).2, fun hcareful => ((hstep hbefore).1 hcareful).ownNonces⟩

/-- In every run of a node that started on a reliable database and meets reliable ones, with one wallet which
nobody else signs with and fewer than `2 ^ 64` nonces of it: the node's own pending transactions are a
window of nonces from the one of the state on in every state if and only if every event is careful. -/
theorem ownNonces_iff_careful {opened : Node} {calls : List (Call Node Event (List NetworkCommand))}
    {storage : Storage} {genesisBlock : Block} {balances stakes : List (Bytes × UInt64)}
    {claims : FiniteMap Bytes Int64} {validatorKey myAddress : Bytes} (hhost : host.Reliable)
    (hopened : start crypto host storage genesisBlock balances stakes claims validatorKey myAddress =
      some opened)
    (hrun : Run (handle crypto) opened calls node)
    (hreliable : ∀ call ∈ calls, call.label.Reliable) (hwallet : OneWallet crypto myAddress calls)
    (hfew : (opened.chain.state.getNonce myAddress).toNat + (minedIn crypto calls).length < 2 ^ 64) :
    (∀ call ∈ calls, call.post.OwnNonces) ↔ ∀ call ∈ calls, call.pre.Careful crypto call.label := by
  obtain ⟨chain, hstart, hnode⟩ := Option.bind_eq_some_iff.mp hopened
  obtain ⟨trie, hchain⟩ := Chain.start_eq hhost hstart
  have htracks : Tracks myAddress (· ∈ occurringIn crypto calls) [] opened := by
    rw [← Option.some.inj hnode]
    refine ⟨rfl, ?_, ?_, rfl, Nat.zero_le 1000, by simp, ?_, 0, ?_⟩
    · intro signature tx hlookup
      contradiction
    · intro signature tx hlookup
      contradiction
    · rw [hchain]
      exact fun _ => rfl
    · have hempty : (Mempool.new 1000).entriesOf myAddress = ∅ := by
        ext ⟨signature, tx⟩
        refine iff_of_false (fun hentry => ?_) (Set.notMem_empty _)
        obtain ⟨hlookup, -⟩ := hentry
        contradiction
      rw [hempty]
      exact Window.empty entryNonce _
  refine (tracks_of_run hwallet.unmistakable htracks hrun hreliable hwallet.kept ?_ ?_ hfew).2.1
  · intro before call after hsplit tx htx hvalid
    have hcall : call ∈ calls := by rw [hsplit]; simp
    exact ⟨List.mem_flatMap.mpr ⟨call, hcall, List.mem_append_left _
      (List.mem_filter.mpr ⟨htx, decide_eq_true hvalid⟩)⟩,
      hwallet.unforged before call after hsplit tx htx hvalid⟩
  · exact fun call hcall tx htx => List.mem_flatMap.mpr ⟨call, hcall, List.mem_append_right _ htx⟩

/-- A transfer, and a registration while it is pending. -/
def crossingCommands : List Event :=
  [.createTransaction Host.plain (some Sample.bob) 10, .registerValidator 5]

/-- Both are pending with nonce zero. -/
theorem ownNonces_collide :
    ∃ opened calls node, Sample.node = some opened ∧ Run (handle Crypto.plain) opened calls node ∧
      calls.map Call.label = crossingCommands ∧ ¬ node.OwnNonces := by
  obtain ⟨opened, calls, node, hopened, hrun, hlabels, hcheck⟩ := Run.exists_of_trace_from
    (handle Crypto.plain) Sample.node crossingCommands
    (fun _ _ node => decide (¬ (((Host.plain.walk node.mempool.transactions).filter
      fun entry => entry.2.sender = node.myAddress).map entryNonce).Nodup)) (by decide +kernel)
  exact ⟨opened, calls, node, hopened, hrun, hlabels,
    fun hwindow => of_decide_eq_true hcheck (hwindow.nodup Host.plain)⟩

/-- Two transfers, a slot that mines them, and a registration. -/
def orderlyCommands : List Event :=
  [.createTransaction Host.plain (some Sample.bob) 10, .send Host.plain (some Sample.bob) 20,
    .slot Host.plain (Sample.tick 1), .registerValidator 5]

/-- After each of them the own nonces are a window. -/
theorem ownNonces_orderly :
    ∃ opened calls node, Sample.node = some opened ∧ Run (handle Crypto.plain) opened calls node ∧
      calls.map Call.label = orderlyCommands ∧ (minedIn Crypto.plain calls).length = 2 ∧
      ∀ call ∈ calls, call.post.OwnNonces := by
  obtain ⟨opened, calls, node, hopened, hrun, hlabels, hcheck⟩ := Run.exists_of_trace_from
    (handle Crypto.plain) Sample.node orderlyCommands
    (fun opened calls _ => decide ((minedIn Crypto.plain calls).length = 2 ∧
      (opened.chain.state.getNonce Sample.alice).toNat + (minedIn Crypto.plain calls).length < 2 ^ 64 ∧
      (∀ call ∈ calls, call.pre.Careful Crypto.plain call.label) ∧
      ∀ tx ∈ occurringIn Crypto.plain calls, ∀ tx' ∈ occurringIn Crypto.plain calls,
        tx.sender = Sample.alice → tx'.signature = tx.signature → tx' = tx)) (by decide +kernel)
  obtain ⟨hmined, hfew, hcareful, hlaw⟩ := of_decide_eq_true hcheck
  have hlabel : ∀ call ∈ calls, call.label ∈ orderlyCommands := fun call hcall =>
    hlabels ▸ List.mem_map_of_mem hcall
  have hevents : ∀ event ∈ orderlyCommands, event.Reliable ∧
      (∀ address, event ≠ .setWallet address) ∧ event.transactions = [] := by
    simp [orderlyCommands, Event.Reliable, Event.transactions, Host.plain_reliable]
  have hwallet : OneWallet Crypto.plain Sample.alice calls := by
    refine ⟨fun call hcall => (hevents _ (hlabel call hcall)).2.1, ?_,
      fun tx tx' htx htx' hsender hsignature => hlaw tx htx tx' htx' hsender hsignature⟩
    intro before call after hsplit tx htx
    rw [(hevents _ (hlabel call (by simp [hsplit]))).2.2] at htx
    simp at htx
  exact ⟨opened, calls, node, hopened, hrun, hlabels, hmined,
    (ownNonces_iff_careful Host.plain_reliable hopened hrun
      (fun call hcall => (hevents _ (hlabel call hcall)).1) hwallet hfew).mpr hcareful⟩

end Node

end Nocostcoin
