import Nocostcoin.Ledger

/-!
# Committing the pending changes

`apply_changes` moves the overlay into the database one account at a time. Whether it ends or
stops at a refused write, `getAccount` answers as before; on a reliable database it leaves the
whole account table stored and an empty overlay.
-/

namespace Nocostcoin

namespace State

variable {crypto : Crypto} {host : Host} {s s' : State} {result : Except String Unit}

/-- Each stored account is the one stored before or the pending one, and every pending account
that a finished walk met is stored. -/
theorem storeChanges_stored {addresses : List Bytes}
    (h : storeChanges crypto host addresses s = some (result, s')) :
    ∃ stored trie, s' = { s with storage := { s.storage with accounts := stored }, trie } ∧
      (∀ address, stored.lookup address = s.storage.accounts.lookup address ∨
        stored.lookup address = s.pendingChanges.lookup address ∧
          (s.pendingChanges.lookup address).isSome) ∧
      (result = .ok () → ∀ address ∈ addresses, (s.pendingChanges.lookup address).isSome →
        stored.lookup address = s.pendingChanges.lookup address) := by
  induction addresses generalizing s with
  | nil =>
    obtain ⟨rfl, rfl⟩ := Prod.mk.inj (Option.some.inj h)
    exact ⟨s.storage.accounts, s.trie, rfl, fun _ => .inl rfl, by simp⟩
  | cons address rest ih =>
    rw [storeChanges] at h
    split at h
    · rename_i hnone
      obtain ⟨stored, trie, hs', hstored, hmet⟩ := ih h
      refine ⟨stored, trie, hs', hstored, fun hok other hother hsome => ?_⟩
      rcases List.mem_cons.mp hother with rfl | hrest
      · simp [hnone] at hsome
      · exact hmet hok other hrest hsome
    · rename_i account haccount
      split at h
      · rename_i error storage hstore
        obtain ⟨rfl, rfl⟩ := Prod.mk.inj (Option.some.inj h)
        have hstorage : storage = s.storage := Storage.write_error hstore
        exact ⟨s.storage.accounts, s.trie, by rw [hstorage], fun _ => .inl rfl, by simp⟩
      · rename_i storage hstore
        have hstorage : storage =
            { s.storage with accounts := s.storage.accounts.insert address account } :=
          Storage.write_ok hstore
        obtain ⟨trie', -, h⟩ := Option.bind_eq_some_iff.mp h
        obtain ⟨stored, trie, hs', hstored, hmet⟩ := ih h
        rw [hstorage] at hs' hstored
        have hwritten : stored.lookup address = some account := by
          rcases hstored address with hsame | ⟨hpending, -⟩
          · rw [hsame]
            exact Finmap.lookup_insert _
          · rw [hpending]
            exact haccount
        refine ⟨stored, trie, hs', fun other => ?_, fun hok other hother hsome => ?_⟩
        · by_cases hne : other = address
          · subst hne
            exact .inr ⟨by rw [hwritten, haccount], by rw [haccount]; rfl⟩
          · have hother := hstored other
            rwa [Finmap.lookup_insert_of_ne _ hne] at hother
        · rcases List.mem_cons.mp hother with rfl | hrest
          · rw [hwritten, haccount]
          · exact hmet hok other hrest hsome

/-- The account table after some of its pending accounts were also stored. -/
theorem accounts_of_stored {stored : FiniteMap Bytes Account}
    (hstored : ∀ address, stored.lookup address = s.storage.accounts.lookup address ∨
      stored.lookup address = s.pendingChanges.lookup address ∧
        (s.pendingChanges.lookup address).isSome) :
    s.pendingChanges ∪ stored = s.accounts := by
  apply Finmap.ext_lookup
  intro address
  rw [accounts, FiniteMap.lookup_union_or, FiniteMap.lookup_union_or]
  rcases hstored address with hsame | ⟨hpending, hsome⟩
  · rw [hsame]
  · obtain ⟨account, haccount⟩ := Option.isSome_iff_exists.mp hsome
    rw [haccount, Option.some_or, Option.some_or]

/-- The stored accounts once every pending account was stored. -/
theorem stored_eq_accounts {stored : FiniteMap Bytes Account}
    (hstored : ∀ address, stored.lookup address = s.storage.accounts.lookup address ∨
      stored.lookup address = s.pendingChanges.lookup address ∧
        (s.pendingChanges.lookup address).isSome)
    (hall : ∀ address, (s.pendingChanges.lookup address).isSome →
      stored.lookup address = s.pendingChanges.lookup address) : stored = s.accounts := by
  apply Finmap.ext_lookup
  intro address
  rw [accounts, FiniteMap.lookup_union_or]
  cases hpending : s.pendingChanges.lookup address with
  | none =>
    rcases hstored address with hsame | ⟨-, hsome⟩
    · rw [hsame, Option.none_or]
    · simp [hpending] at hsome
  | some account => rw [hall address (by simp [hpending]), hpending, Option.some_or]

/-- The walk meets every pending account. -/
theorem mem_order_of_pending (host : Host) {address : Bytes}
    (h : (s.pendingChanges.lookup address).isSome) : address ∈ host.order s.pendingChanges.keys := by
  rw [host.mem_order, Finmap.mem_keys]
  exact Finmap.lookup_isSome.mp h

/-- A commit, finished or stopped by a refused write, changes no account and no registry. -/
theorem accounts_applyChanges (h : s.applyChanges crypto host = some (result, s')) :
    s'.accounts = s.accounts ∧ s'.assets = s.assets ∧ s'.collections = s.collections ∧
      s'.channels = s.channels := by
  obtain ⟨⟨outcome, walked⟩, hwalk, h⟩ := Option.bind_eq_some_iff.mp h
  obtain ⟨stored, trie, rfl, hstored, hmet⟩ := storeChanges_stored hwalk
  cases outcome with
  | error error =>
    obtain ⟨-, rfl⟩ := Prod.mk.inj (Option.some.inj h)
    exact ⟨accounts_of_stored hstored, rfl, rfl, rfl⟩
  | ok =>
    obtain ⟨-, rfl⟩ := Prod.mk.inj (Option.some.inj h)
    refine ⟨?_, rfl, rfl, rfl⟩
    have hall := stored_eq_accounts hstored fun address hsome =>
      hmet rfl address (mem_order_of_pending host hsome) hsome
    change ∅ ∪ stored = s.accounts
    rw [Finmap.empty_union, hall]

/-- A commit, finished or stopped, writes to the stored accounts, the overlay and the trie only. -/
theorem applyChanges_frame (h : s.applyChanges crypto host = some (result, s')) :
    ∃ stored pending trie, s' =
      { s with storage := { s.storage with accounts := stored }, pendingChanges := pending, trie } := by
  obtain ⟨⟨outcome, walked⟩, hwalk, h⟩ := Option.bind_eq_some_iff.mp h
  obtain ⟨stored, trie, rfl, -, -⟩ := storeChanges_stored hwalk
  cases outcome with
  | error error =>
    obtain ⟨-, rfl⟩ := Prod.mk.inj (Option.some.inj h)
    exact ⟨stored, s.pendingChanges, trie, rfl⟩
  | ok =>
    obtain ⟨-, rfl⟩ := Prod.mk.inj (Option.some.inj h)
    exact ⟨stored, ∅, trie, rfl⟩

/-- On a reliable database the walk is not refused. -/
theorem storeChanges_reliable (hreliable : host.Reliable) {addresses : List Bytes}
    (h : storeChanges crypto host addresses s = some (result, s')) : result = .ok () := by
  induction addresses generalizing s with
  | nil => exact (Prod.mk.inj (Option.some.inj h)).1.symm
  | cons address rest ih =>
    rw [storeChanges] at h
    split at h
    · exact ih h
    · rw [Storage.storeAccount, hreliable.write] at h
      obtain ⟨trie, -, h⟩ := Option.bind_eq_some_iff.mp h
      exact ih h

/-- A commit that succeeds stores the whole account table and empties the overlay. -/
theorem applyChanges_ok (h : s.applyChanges crypto host = some (.ok (), s')) :
    ∃ trie, s' =
      { s with storage := { s.storage with accounts := s.accounts }, pendingChanges := ∅, trie } := by
  obtain ⟨⟨outcome, walked⟩, hwalk, h⟩ := Option.bind_eq_some_iff.mp h
  obtain ⟨stored, trie, rfl, hstored, hmet⟩ := storeChanges_stored hwalk
  cases outcome with
  | error error => simp at h
  | ok =>
    have hall := stored_eq_accounts hstored fun address hsome =>
      hmet rfl address (mem_order_of_pending host hsome) hsome
    obtain ⟨-, rfl⟩ := Prod.mk.inj (Option.some.inj h)
    exact ⟨trie, by rw [hall]⟩

/-- After a commit, finished or stopped, a stored account is the one stored before or the current
one. -/
theorem stored_of_applyChanges (h : s.applyChanges crypto host = some (result, s')) (address : Bytes) :
    s'.storage.accounts.lookup address = s.storage.accounts.lookup address ∨
      s'.storage.accounts.lookup address = s.accounts.lookup address := by
  obtain ⟨⟨outcome, walked⟩, hwalk, h⟩ := Option.bind_eq_some_iff.mp h
  obtain ⟨stored, trie, rfl, hstored, -⟩ := storeChanges_stored hwalk
  have hafter : s'.storage.accounts = stored := by
    cases outcome with
    | error error => rw [← (Prod.mk.inj (Option.some.inj h)).2]
    | ok => rw [← (Prod.mk.inj (Option.some.inj h)).2]
  rw [hafter]
  rcases hstored address with hsame | ⟨hpending, hsome⟩
  · exact .inl hsame
  · obtain ⟨account, haccount⟩ := Option.isSome_iff_exists.mp hsome
    rw [hpending, accounts, FiniteMap.lookup_union_or, haccount, Option.some_or]
    exact .inr rfl

/-- On a reliable database a commit stores the whole account table and empties the overlay. -/
theorem applyChanges_reliable (hreliable : host.Reliable)
    (h : s.applyChanges crypto host = some (result, s')) :
    result = .ok () ∧ ∃ trie, s' =
      { s with storage := { s.storage with accounts := s.accounts }, pendingChanges := ∅, trie } := by
  obtain ⟨⟨outcome, walked⟩, hwalk, hfinish⟩ := Option.bind_eq_some_iff.mp h
  obtain rfl := storeChanges_reliable hreliable hwalk
  obtain ⟨rfl, -⟩ := Prod.mk.inj (Option.some.inj hfinish)
  exact ⟨rfl, applyChanges_ok h⟩

end State

end Nocostcoin
