import Nocostcoin.Mempool

/-!
# What the mempool selects for a block

`get_transactions_for_block` sorts the transactions of all senders together and takes the first ones, so
the selection is a prefix of a list that is ordered by nonce. Whatever the order in which the map is
walked, it leaves out no transaction with a lower nonce than one that it takes.
-/

namespace Nocostcoin

/-- A prefix of an ordered list has, in front of each of its entries, everything that comes before it. -/
theorem mem_before_of_take {α : Type} {r : α → α → Prop} {list : List α} (hordered : list.Pairwise r)
    {limit : ℕ} {before after : List α} {a b : α} (htake : list.take limit = before ++ a :: after)
    (hb : b ∈ list) (hne : a ≠ b) (hbefore : ¬ r a b) : b ∈ before := by
  rw [← List.take_append_drop limit list, htake, List.append_assoc, List.cons_append] at hordered hb
  rcases List.mem_append.mp hb with hmem | hmem
  · exact hmem
  · rcases List.mem_cons.mp hmem with hsame | hafter
    · exact absurd hsame.symm hne
    · have htail := (List.pairwise_append.mp hordered).2.1
      exact absurd ((List.pairwise_cons.mp htail).1 b hafter) hbefore

namespace Mempool

variable {mempool : Mempool} {crypto : Crypto}

/-- Every entry stands under its signature. -/
def Keyed (mempool : Mempool) : Prop :=
  ∀ signature tx, mempool.transactions.lookup signature = some tx → tx.signature = signature

/-- A selection of transactions by nonce. -/
structure Selects (mempool : Mempool) (limit : ℕ) (selected : List Transaction) : Prop where
  /-- As many as asked for, or all. -/
  length : selected.length = min limit mempool.len
  /-- They are entries of the pool, and no entry is selected twice. -/
  entries : ∃ signatures : List Bytes, signatures.Nodup ∧
    signatures.map mempool.transactions.lookup = selected.map some
  /-- The nonces do not fall. -/
  ordered : selected.Pairwise fun tx tx' => tx.nonce ≤ tx'.nonce
  /-- In front of a transaction stand all of its sender with a lower nonce. -/
  closed : ∀ before tx after, selected = before ++ tx :: after →
    ∀ signature earlier, mempool.transactions.lookup signature = some earlier →
      earlier.sender = tx.sender → earlier.nonce < tx.nonce → earlier ∈ before

/-- The transactions by nonce, before the first ones are taken. -/
def byNonce (host : Host) (mempool : Mempool) : List Transaction :=
  (mempool.getAll host).insertionSort fun tx tx' => tx.nonce ≤ tx'.nonce

/-- The sort puts every transaction before those with a higher nonce. -/
theorem pairwise_byNonce (host : Host) (mempool : Mempool) :
    (mempool.byNonce host).Pairwise fun tx tx' => tx.nonce ≤ tx'.nonce := by
  have htotal : Std.Total fun tx tx' : Transaction => tx.nonce ≤ tx'.nonce :=
    ⟨fun tx tx' => UInt64.le_total tx.nonce tx'.nonce⟩
  have htrans : IsTrans Transaction fun tx tx' => tx.nonce ≤ tx'.nonce :=
    ⟨fun _ _ _ => UInt64.le_trans⟩
  exact List.pairwise_insertionSort _ _

/-- The sort reorders the entries of the walk. -/
theorem exists_entries_byNonce (host : Host) (mempool : Mempool) :
    ∃ entries : List (Bytes × Transaction), entries.Perm (host.walk mempool.transactions) ∧
      mempool.byNonce host = entries.map Prod.snd := by
  refine ⟨(host.walk mempool.transactions).insertionSort fun entry entry' =>
    entry.2.nonce ≤ entry'.2.nonce, List.perm_insertionSort _ _, ?_⟩
  exact (List.map_insertionSort _ _ Prod.snd _ fun _ _ _ _ => Iff.rfl).symm

/-- A transaction of the pool is sorted with the others. -/
theorem mem_byNonce (host : Host) {signature : Bytes} {tx : Transaction}
    (h : mempool.transactions.lookup signature = some tx) : tx ∈ mempool.byNonce host := by
  rw [byNonce, List.mem_insertionSort]
  exact List.mem_map.mpr ⟨(signature, tx), Host.mem_walk.mpr h, rfl⟩

/-- The entries under different signatures are different transactions where each stands under its own. -/
theorem Keyed.nodup {signatures : List Bytes} {selected : List Transaction} (hkeyed : mempool.Keyed)
    (hnodup : signatures.Nodup)
    (hentries : signatures.map mempool.transactions.lookup = selected.map some) : selected.Nodup := by
  have hsignatures : signatures = selected.map Transaction.signature := by
    induction signatures generalizing selected with
    | nil =>
      rw [List.map_eq_nil_iff.mp hentries.symm]
      rfl
    | cons signature rest ih =>
      obtain ⟨tx, others, rfl, hlookup, hrest⟩ := List.map_eq_cons_iff.mp hentries.symm
      rw [List.map_cons, hkeyed signature tx hlookup.symm, ← ih (List.nodup_cons.mp hnodup).2 hrest.symm]
  rw [hsignatures] at hnodup
  exact hnodup.of_map

/-- A mempool is keyed before its first transaction. -/
theorem keyed_new (capacity : ℕ) : (Mempool.new capacity).Keyed := fun _ _ h => by
  rw [Mempool.new, Finmap.lookup_empty] at h
  contradiction

/-- `add_transaction` enters a transaction under its signature. -/
theorem Keyed.addTransaction (hkeyed : mempool.Keyed) (tx : Transaction) (state : State) :
    (mempool.addTransaction crypto tx state).2.Keyed := by
  rcases addTransaction_cases crypto mempool tx state with hsame | ⟨-, hentered⟩
  · rw [hsame]
    exact hkeyed
  · rw [hentered]
    intro signature found hlookup
    rw [FiniteMap.lookup_insert_ite] at hlookup
    split at hlookup
    · rename_i hown
      rw [hown, Option.some.inj hlookup]
    · exact hkeyed signature found hlookup

/-- `remove_transactions` leaves the others where they are. -/
theorem Keyed.removeTransactions (hkeyed : mempool.Keyed) (txs : List Transaction) :
    (mempool.removeTransactions txs).Keyed :=
  fun signature tx hlookup => hkeyed signature tx (lookup_of_removeTransactions hlookup)

/-- For every mempool, every limit and every order in which its map is walked, the selection respects the
nonces; where each transaction stands under its signature, as the mempool keeps them, none is selected
twice. -/
theorem selection_respects_nonces (host : Host) (mempool : Mempool) (limit : ℕ) :
    mempool.Selects limit (mempool.getTransactionsForBlock host limit) ∧
      (mempool.Keyed → (mempool.getTransactionsForBlock host limit).Nodup) := by
  have hselected : mempool.getTransactionsForBlock host limit = (mempool.byNonce host).take limit := rfl
  obtain ⟨entries, hperm, hbyNonce⟩ := exists_entries_byNonce host mempool
  have hentries : ∃ signatures : List Bytes, signatures.Nodup ∧
      signatures.map mempool.transactions.lookup =
        (mempool.getTransactionsForBlock host limit).map some := by
    refine ⟨(entries.take limit).map Prod.fst, ?_, ?_⟩
    · have hnodup := (hperm.map Prod.fst).nodup_iff.mpr (host.nodup_walk mempool.transactions)
      exact ((List.take_sublist limit entries).map Prod.fst).nodup hnodup
    · rw [hselected, hbyNonce, ← List.map_take, List.map_map, List.map_map]
      apply List.map_congr_left
      rintro ⟨signature, tx⟩ hentry
      exact Host.mem_walk.mp (hperm.mem_iff.mp (List.mem_of_mem_take hentry))
  refine ⟨⟨?_, hentries, ?_, ?_⟩, fun hkeyed => ?_⟩
  · rw [hselected, List.length_take, hbyNonce, List.length_map, hperm.length_eq, host.length_walk]
    rfl
  · exact (pairwise_byNonce host mempool).sublist (List.take_sublist _ _)
  · intro before tx after hsplit signature earlier hlookup _ hlower
    refine mem_before_of_take (pairwise_byNonce host mempool) hsplit (mem_byNonce host hlookup) ?_
      (UInt64.not_le.mpr hlower)
    rintro rfl
    exact UInt64.lt_irrefl _ hlower
  · obtain ⟨signatures, hnodup, hlookups⟩ := hentries
    exact hkeyed.nodup hnodup hlookups

end Mempool

end Nocostcoin
