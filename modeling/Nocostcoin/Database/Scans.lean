import Nocostcoin.Database.Families
import Nocostcoin.Library.PrefixScan

/-!
# What the prefix scans return

The records with a common text in front of their keys stand together in key order. For the accounts that
text ends in the colon that closes the family, so the scan meets the accounts and nothing else. For the votes
for a block it ends in the block hash without the colon behind it, so the scan also meets the votes for the
hashes that continue this one.
-/

namespace Nocostcoin

variable {codec : Codec} {db db' : Database} {call : StoreCall} {calls : List StoreCall} {place : Place}

namespace Database

/-- The records in order are the records. -/
theorem mem_inOrder {key value : Bytes} : (key, value) ∈ db.inOrder ↔ db.lookup key = some value := by
  unfold inOrder
  rw [List.mem_filterMap]
  constructor
  · rintro ⟨found, -, hfound⟩
    obtain ⟨stored, hstored, heq⟩ := Option.map_eq_some_iff.mp hfound
    obtain ⟨rfl, rfl⟩ := Prod.mk.inj heq
    exact hstored
  · intro hlookup
    have hkey : key ∈ db.keys := Finmap.mem_keys.mpr (Finmap.mem_of_lookup_eq_some hlookup)
    exact ⟨key, (FiniteSet.mem_sorted _ _ _).mpr hkey, by rw [hlookup]; rfl⟩

/-- They are ordered by their keys. -/
theorem pairwise_inOrder (db : Database) : db.inOrder.Pairwise fun a b => a.1 ≤ b.1 := by
  have hkeys : (keysInOrder db.keys).Pairwise (· ≤ ·) := FiniteSet.pairwise_sorted _ _
  refine hkeys.filterMap _ ?_
  intro key key' hle entry hentry entry' hentry'
  obtain ⟨value, -, rfl⟩ := Option.map_eq_some_iff.mp hentry
  obtain ⟨value', -, rfl⟩ := Option.map_eq_some_iff.mp hentry'
  exact hle

/-- No key stands there twice. -/
theorem nodup_inOrder (db : Database) : (db.inOrder.map Prod.fst).Nodup := by
  have hkeys : (keysInOrder db.keys).Nodup := FiniteSet.nodup_sorted _ _
  unfold inOrder
  rw [List.map_filterMap]
  apply List.Nodup.filterMap _ hkeys
  intro a b key ha hb
  obtain ⟨value, -, hfirst⟩ := Option.map_eq_some_iff.mp ((Option.map_map _ _ _).symm.trans ha)
  obtain ⟨value', -, hsecond⟩ := Option.map_eq_some_iff.mp ((Option.map_map _ _ _).symm.trans hb)
  exact hfirst.trans hsecond.symm

/-- A scan whose records can be read returns what it meets up to the first key without the text. -/
theorem scan_eq_ok {α : Type} {front : Bytes} {read : Bytes → Bytes → Except String α}
    {entries : List (Bytes × Bytes)}
    (hread : ∀ entry ∈ entries, front.isPrefixOf entry.1 → ∃ item, read entry.1 entry.2 = .ok item) :
    scan front read entries = .ok ((entries.takeWhile fun entry => front.isPrefixOf entry.1).filterMap
      fun entry => (read entry.1 entry.2).toOption) := by
  induction entries with
  | nil => rfl
  | cons entry rest ih =>
    obtain ⟨key, value⟩ := entry
    rw [scan, List.takeWhile_cons]
    split
    · rename_i hfront
      obtain ⟨item, hitem⟩ := hread _ List.mem_cons_self hfront
      dsimp only at hitem ⊢
      have hrest := ih fun other hother => hread other (List.mem_cons_of_mem _ hother)
      simp only [List.filterMap_cons, hitem, hrest]
      rfl
    · rfl

/-- A scan from a text on, over records that tell their places, returns each record once that has the text
in front of its key. -/
theorem scan_iteratorFrom {α : Type} {front : Bytes} {read : Bytes → Bytes → Except String α}
    (placeOf : α → Place)
    (hread : ∀ key value, db.lookup key = some value → front <+: key →
      ∃ item, read key value = .ok item ∧ key = (placeOf item).key) :
    ∃ items, scan front read (db.iteratorFrom front) = .ok items ∧ (items.map placeOf).Nodup ∧
      ∀ item, item ∈ items ↔ front <+: (placeOf item).key ∧
        ∃ value, db.lookup (placeOf item).key = some value ∧ read (placeOf item).key value = .ok item := by
  have hmet : ∀ entry ∈ db.inOrder.filter fun entry => front.isPrefixOf entry.1,
      ∃ item, read entry.1 entry.2 = .ok item ∧ entry.1 = (placeOf item).key := by
    intro entry hentry
    obtain ⟨hmem, hfront⟩ := List.mem_filter.mp hentry
    exact hread _ _ (mem_inOrder.mp hmem) (List.isPrefixOf_iff_prefix.mp hfront)
  refine ⟨_, scan_eq_ok fun entry hentry hfront => ?_, ?_, fun item => ?_⟩
  · obtain ⟨item, hitem, -⟩ := hread _ _ (mem_inOrder.mp ((List.dropWhile_sublist _).mem hentry))
      (List.isPrefixOf_iff_prefix.mp hfront)
    exact ⟨item, hitem⟩
  all_goals
    unfold iteratorFrom
    rw [PrefixScan.scan_eq_filter Prod.fst db.pairwise_inOrder front]
  · -- two records read from different keys are of different places
    have hdifferent : (db.inOrder.filter fun entry => front.isPrefixOf entry.1).Pairwise
        fun a b => a.1 ≠ b.1 := List.Pairwise.filter _ (List.pairwise_map.mp db.nodup_inOrder)
    refine List.pairwise_map.mpr (List.pairwise_filterMap.mpr (hdifferent.imp_of_mem ?_))
    intro a b ha hb hne item hitem item' hitem' hsame
    obtain ⟨found, hfound, hkey⟩ := hmet a ha
    obtain ⟨found', hfound', hkey'⟩ := hmet b hb
    rw [hfound] at hitem
    rw [hfound'] at hitem'
    obtain rfl := Option.some.inj hitem
    obtain rfl := Option.some.inj hitem'
    rw [hkey, hkey', hsame] at hne
    exact hne rfl
  · rw [List.mem_filterMap]
    constructor
    · rintro ⟨entry, hentry, hitem⟩
      obtain ⟨found, hfound, hkey⟩ := hmet entry hentry
      rw [hfound] at hitem
      obtain rfl := Option.some.inj hitem
      obtain ⟨hmem, hfront⟩ := List.mem_filter.mp hentry
      rw [← hkey]
      exact ⟨List.isPrefixOf_iff_prefix.mp hfront, entry.2, mem_inOrder.mp hmem, hfound⟩
    · rintro ⟨hfront, value, hlookup, hfound⟩
      refine ⟨((placeOf item).key, value), List.mem_filter.mpr ⟨mem_inOrder.mpr hlookup, ?_⟩, ?_⟩
      · exact List.isPrefixOf_iff_prefix.mpr hfront
      · rw [hfound]
        rfl

/-- Every key is the key of a record. -/
def Keyed (db : Database) : Prop := ∀ key value, db.lookup key = some value → ∃ place : Place, key = place.key

/-- A write keeps it so. -/
theorem Keyed.put (hkeyed : db.Keyed) (place : Place) (value : Bytes) : (db.put place value).Keyed := by
  intro key found hlookup
  unfold Database.put at hlookup
  rw [FiniteMap.lookup_insert_ite] at hlookup
  split at hlookup
  · exact ⟨place, by assumption⟩
  · exact hkeyed key found hlookup

/-- So does a call. -/
theorem Keyed.perform (hkeyed : db.Keyed) (h : db.perform codec call = some db') : db'.Keyed := by
  cases hrecord : call.record codec with
  | some written =>
    rw [perform_of_record hrecord] at h
    rw [← Option.some.inj h]
    exact hkeyed.put _ _
  | none =>
    cases call with
    | transactionToAddress =>
      obtain ⟨count, -, rfl⟩ := addTransactionToAddress_eq h
      exact (hkeyed.put _ _).put _ _
    | _ => contradiction

/-- So does a sequence of calls. -/
theorem Keyed.performAll (hkeyed : db.Keyed) (h : db.performAll codec calls = some db') : db'.Keyed := by
  induction calls generalizing db with
  | nil =>
    rw [← Option.some.inj h]
    exact hkeyed
  | cons call rest ih =>
    rw [Database.performAll, List.foldlM_cons] at h
    obtain ⟨mid, hcall, hrest⟩ := Option.bind_eq_some_iff.mp h
    exact ih (hkeyed.perform hcall) hrest

end Database

namespace Place

/-- A text with a colon behind a family is in front of a key exactly if the family is the key's own, and
what follows it is in front of the rest. -/
theorem isPrefix_key_iff {text : String} {tail : Bytes} (hcolon : (asBytes text).takeWhile (· ≠ 58) = asBytes text) :
    asBytes text ++ (asBytes ":" ++ tail) <+: place.key ↔
      place.family = text ∧ asBytes ":" ++ tail <+: place.rest := by
  have hbytes : asBytes ":" = [58] := by decide +kernel
  constructor
  · rintro ⟨more, hkey⟩
    have hfamily : asBytes text = asBytes place.family := by
      rw [← takeWhile_key, ← hkey, List.append_assoc, List.takeWhile_append, hcolon, if_pos rfl, hbytes]
      simp
    rw [key_eq, ← hfamily, List.append_assoc] at hkey
    exact ⟨asBytes_injective hfamily.symm, more, List.append_cancel_left hkey⟩
  · rintro ⟨rfl, more, hrest⟩
    exact ⟨more, by rw [key_eq, List.append_assoc, hrest]⟩

/-- The scan for a block's votes meets the votes for the hashes that, with their colon and key behind them,
begin with the block's hash. -/
theorem isPrefix_vote {blockHash : String} :
    asBytes ("vote:" ++ blockHash) <+: place.key ↔ ∃ hash pubkey, place = .vote hash pubkey ∧
      asBytes blockHash <+: asBytes (hash ++ ":" ++ hexEncode pubkey) := by
  have hfront : asBytes ("vote:" ++ blockHash) = asBytes "vote" ++ (asBytes ":" ++ asBytes blockHash) := by
    rw [← List.append_assoc, ← asBytes_append, ← asBytes_append]
    rfl
  rw [hfront, isPrefix_key_iff (by decide +kernel)]
  constructor
  · rintro ⟨hfamily, hrest⟩
    cases place with
    | vote hash pubkey => exact ⟨hash, pubkey, rfl, (List.prefix_append_right_inj _).mp hrest⟩
    | _ => simp [family] at hfamily
  · rintro ⟨hash, pubkey, rfl, hrest⟩
    exact ⟨rfl, (List.prefix_append_right_inj _).mpr hrest⟩

/-- The scan for the accounts meets the accounts. -/
theorem isPrefix_account : asBytes "account:" <+: place.key ↔ ∃ address, place = .account address := by
  have hfront : asBytes "account:" = asBytes "account" ++ (asBytes ":" ++ []) := by decide +kernel
  rw [hfront, isPrefix_key_iff (by decide +kernel)]
  constructor
  · rintro ⟨hfamily, -⟩
    cases place with
    | account address => exact ⟨address, rfl⟩
    | _ => simp [family] at hfamily
  · rintro ⟨address, rfl⟩
    exact ⟨rfl, by simp [rest]⟩

end Place

/-- What calls vote last for a block hash and a key is such a vote of theirs. -/
theorem voteAt_of_lastWritten {blockHash : String} {pubkey : Bytes} {vote : Vote}
    (h : lastWritten (StoreCall.voteAt blockHash pubkey) calls = some vote) :
    .vote vote ∈ calls ∧ vote.blockHash = blockHash ∧ vote.validatorPubkey = pubkey := by
  obtain ⟨call, hcall, hvote⟩ := exists_of_lastWritten h
  cases call with
  | vote stored =>
    unfold StoreCall.voteAt at hvote
    dsimp only at hvote
    split at hvote
    · rename_i hsame
      obtain rfl := Option.some.inj hvote
      exact ⟨hcall, Prod.mk.inj hsame⟩
    · contradiction
  | _ => contradiction

/-- Whoever calls vote for a hash has a last vote for it. -/
theorem exists_lastWritten_vote {vote : Vote} (h : .vote vote ∈ calls) :
    ∃ last, lastWritten (StoreCall.voteAt vote.blockHash vote.validatorPubkey) calls = some last := by
  apply Option.isSome_iff_exists.mp
  unfold lastWritten
  rw [List.isSome_findSome?]
  refine List.any_eq_true.mpr ⟨.vote vote, List.mem_reverse.mpr h, ?_⟩
  simp [StoreCall.voteAt]

namespace Database

/-- From the empty database, what stands at a place is what was written there last. -/
theorem lookup_of_empty {α : Type} {decode : Bytes → Except String α} {written : StoreCall → Option α}
    (hplace : ¬ place.InHistory)
    (hwritten : ∀ call ∈ calls, (call.valueAt codec place).map decode = (written call).map .ok)
    (h : performAll codec ∅ calls = some db) :
    (db.lookup place.key).map decode = (lastWritten written calls).map .ok := by
  rw [lookup_performAll hplace h, Finmap.lookup_empty, Option.or_none]
  exact map_lastWritten hwritten

/-- What is decoded from a place is what was written there last. -/
theorem decoded_iff_lastWritten {α : Type} {decode : Bytes → Except String α} {written : StoreCall → Option α}
    (hplace : ¬ place.InHistory)
    (hwritten : ∀ call ∈ calls, (call.valueAt codec place).map decode = (written call).map .ok)
    (h : performAll codec ∅ calls = some db) (item : α) :
    (∃ value, db.lookup place.key = some value ∧ decode value = .ok item) ↔
      lastWritten written calls = some item := by
  rw [← Option.map_eq_some_iff, lookup_of_empty hplace hwritten h, Option.map_eq_some_iff]
  constructor
  · rintro ⟨last, hlast, hsame⟩
    rw [hlast, Except.ok.inj hsame]
  · exact fun hlast => ⟨item, hlast, rfl⟩

/-- A scan for votes returns exactly the last votes for each key. -/
def VotesExact (codec : Codec) (calls : List StoreCall) (db : Database) (blockHash : String) : Prop :=
  ∃ votes, db.getVotes codec blockHash = .ok votes ∧ (votes.map Vote.validatorPubkey).Nodup ∧
    ∀ vote, vote ∈ votes ↔
      lastWritten (StoreCall.voteAt blockHash vote.validatorPubkey) calls = some vote

/-- A scan for accounts returns exactly the last one for each address. -/
def AccountsExact (codec : Codec) (calls : List StoreCall) (db : Database) : Prop :=
  ∃ accounts, db.getAllAccounts codec = .ok accounts ∧ (accounts.map Prod.fst).Nodup ∧
    ∀ address account, (address, account) ∈ accounts ↔
      lastWritten (StoreCall.accountAt address) calls = some account

/-- No vote for another hash begins, with the colon and the key behind its hash, with this hash. -/
def Separate (calls : List StoreCall) (blockHash : String) : Prop :=
  ∀ vote : Vote, .vote vote ∈ calls →
    asBytes blockHash <+: asBytes (vote.blockHash ++ ":" ++ hexEncode vote.validatorPubkey) →
      vote.blockHash = blockHash

/-- What a scan for votes returns: each last vote whose hash, colon and key begin with the hash, once. -/
theorem getVotes_spec (hreads : ∀ call ∈ calls, call.ReadsBack codec)
    (h : performAll codec ∅ calls = some db) (blockHash : String) :
    ∃ votes, db.getVotes codec blockHash = .ok votes ∧
      (votes.map fun vote => Place.vote vote.blockHash vote.validatorPubkey).Nodup ∧
      ∀ vote, vote ∈ votes ↔
        asBytes blockHash <+: asBytes (vote.blockHash ++ ":" ++ hexEncode vote.validatorPubkey) ∧
          lastWritten (StoreCall.voteAt vote.blockHash vote.validatorPubkey) calls = some vote := by
  have hlookup : ∀ hash pubkey, (db.lookup (Place.vote hash pubkey).key).map (decodeVote codec) =
      (lastWritten (StoreCall.voteAt hash pubkey) calls).map .ok := fun hash pubkey =>
    lookup_of_empty id (fun call hcall => map_valueAt_vote (hreads call hcall) hash pubkey) h
  have hkeyed : db.Keyed := Keyed.performAll (fun _ _ hnone => by contradiction) h
  have hread : ∀ key value, db.lookup key = some value → asBytes ("vote:" ++ blockHash) <+: key →
      ∃ vote : Vote, decodeVote codec value = .ok vote ∧
        key = (Place.vote vote.blockHash vote.validatorPubkey).key := by
    intro key value hvalue hfront
    obtain ⟨place, rfl⟩ := hkeyed key value hvalue
    obtain ⟨hash, pubkey, rfl, -⟩ := Place.isPrefix_vote.mp hfront
    have hstored := hlookup hash pubkey
    rw [hvalue, Option.map_some, eq_comm] at hstored
    obtain ⟨vote, hlast, hdecode⟩ := Option.map_eq_some_iff.mp hstored
    obtain ⟨-, rfl, rfl⟩ := voteAt_of_lastWritten hlast
    exact ⟨vote, hdecode.symm, rfl⟩
  obtain ⟨votes, hscan, hnodup, hmem⟩ := scan_iteratorFrom
    (fun vote : Vote => Place.vote vote.blockHash vote.validatorPubkey) hread
  refine ⟨votes, hscan, hnodup, fun vote => (hmem vote).trans ?_⟩
  have hfront : asBytes ("vote:" ++ blockHash) <+: (Place.vote vote.blockHash vote.validatorPubkey).key ↔
      asBytes blockHash <+: asBytes (vote.blockHash ++ ":" ++ hexEncode vote.validatorPubkey) := by
    rw [Place.isPrefix_vote]
    constructor
    · rintro ⟨hash, pubkey, hplace, hbegins⟩
      obtain ⟨rfl, rfl⟩ := Place.vote.inj hplace
      exact hbegins
    · exact fun hbegins => ⟨_, _, rfl, hbegins⟩
  rw [hfront, decoded_iff_lastWritten id
    (fun call hcall => map_valueAt_vote (hreads call hcall) vote.blockHash vote.validatorPubkey) h]

/-- The scan for the accounts is always exact. -/
theorem accountsExact (hreads : ∀ call ∈ calls, call.ReadsBack codec)
    (h : performAll codec ∅ calls = some db) : AccountsExact codec calls db := by
  have hlookup : ∀ address, (db.lookup (Place.account address).key).map (decodeAccount codec) =
      (lastWritten (StoreCall.accountAt address) calls).map .ok := fun address =>
    lookup_of_empty id (fun call hcall => map_valueAt_account (hreads call hcall) address) h
  have hkeyed : db.Keyed := Keyed.performAll (fun _ _ hnone => by contradiction) h
  have haddress : ∀ address, (Place.account address).key.drop (asBytes "account:").length = address :=
    fun address => List.drop_left
  have hread : ∀ key value, db.lookup key = some value → asBytes "account:" <+: key →
      ∃ item : Bytes × Account, (decodeAccount codec value).map
        (fun account => (key.drop (asBytes "account:").length, account)) = .ok item ∧
          key = (Place.account item.1).key := by
    intro key value hvalue hfront
    obtain ⟨place, rfl⟩ := hkeyed key value hvalue
    obtain ⟨address, rfl⟩ := Place.isPrefix_account.mp hfront
    have hstored := hlookup address
    rw [hvalue, Option.map_some, eq_comm] at hstored
    obtain ⟨account, -, hdecode⟩ := Option.map_eq_some_iff.mp hstored
    rw [← hdecode, haddress]
    exact ⟨(address, account), rfl, rfl⟩
  obtain ⟨accounts, hscan, hnodup, hmem⟩ := scan_iteratorFrom
    (fun item : Bytes × Account => Place.account item.1) hread
  refine ⟨accounts, hscan, ?_, fun address account => (hmem (address, account)).trans ?_⟩
  · rw [show (fun item : Bytes × Account => Place.account item.1) = Place.account ∘ Prod.fst from rfl,
      ← List.map_map] at hnodup
    exact hnodup.of_map
  · rw [and_iff_right (Place.isPrefix_account.mpr ⟨address, rfl⟩), ← decoded_iff_lastWritten id
      (fun call hcall => map_valueAt_account (hreads call hcall) address) h]
    refine exists_congr fun value => and_congr_right fun _ => ?_
    rw [haddress]
    cases decodeAccount codec value with
    | error error => simp [Except.map]
    | ok found => simp [Except.map]

/-- The scan for the votes for a block is exact if and only if the votes for other blocks are separate. -/
theorem votesExact_iff (hreads : ∀ call ∈ calls, call.ReadsBack codec)
    (h : performAll codec ∅ calls = some db) (blockHash : String) :
    VotesExact codec calls db blockHash ↔ Separate calls blockHash := by
  obtain ⟨votes, hvotes, hnodup, hmem⟩ := getVotes_spec hreads h blockHash
  constructor
  · rintro ⟨votes', hvotes', -, hexact⟩ vote hcast hbegins
    obtain rfl := Except.ok.inj (hvotes.symm.trans hvotes')
    obtain ⟨last, hlast⟩ := exists_lastWritten_vote hcast
    obtain ⟨-, hhash, hpubkey⟩ := voteAt_of_lastWritten hlast
    have hreturned : last ∈ votes := (hmem last).mpr (by rw [hhash, hpubkey]; exact ⟨hbegins, hlast⟩)
    obtain ⟨-, hown, -⟩ := voteAt_of_lastWritten ((hexact last).mp hreturned)
    rw [← hhash, hown]
  · intro hseparate
    have hown : ∀ vote ∈ votes, vote.blockHash = blockHash := by
      intro vote hvote
      obtain ⟨hbegins, hlast⟩ := (hmem vote).mp hvote
      exact hseparate vote (voteAt_of_lastWritten hlast).1 hbegins
    refine ⟨votes, hvotes, ?_, fun vote => ⟨fun hvote => ?_, fun hlast => ?_⟩⟩
    · rw [List.Nodup, List.pairwise_map] at hnodup ⊢
      refine hnodup.imp_of_mem fun ha hb hne hsame => hne ?_
      rw [hown _ ha, hown _ hb, hsame]
    · have hlast := ((hmem vote).mp hvote).2
      rwa [hown vote hvote] at hlast
    · obtain ⟨-, hhash, -⟩ := voteAt_of_lastWritten hlast
      refine (hmem vote).mpr ⟨?_, by rw [hhash]; exact hlast⟩
      rw [hhash, String.append_assoc, asBytes_append]
      exact List.prefix_append _ _

/-- After every sequence of calls on the empty database, where `bincode` reads back what it wrote: the scan
for the accounts is exact, and both scans are if and only if no vote for another hash begins with the
hash that is asked for. -/
theorem scansExact_iff (hreads : ∀ call ∈ calls, call.ReadsBack codec)
    (h : performAll codec ∅ calls = some db) (blockHash : String) :
    AccountsExact codec calls db ∧
      (VotesExact codec calls db blockHash ∧ AccountsExact codec calls db ↔ Separate calls blockHash) := by
  have haccounts := accountsExact hreads h
  exact ⟨haccounts, by rw [and_iff_left haccounts, votesExact_iff hreads h]⟩

/-- The vote for "abc" is returned as one for "ab". -/
theorem not_votesExact_of_continued :
    ∃ db, performAll Sample.recordCodec ∅ [.vote (Sample.storedVote "abc")] = some db ∧
      ¬ VotesExact Sample.recordCodec [.vote (Sample.storedVote "abc")] db "ab" := by
  obtain ⟨-, -, hvote⟩ := Sample.readsBack_recordCodec
  refine ⟨_, rfl, ?_⟩
  rintro ⟨votes, hvotes, -, hexact⟩
  have hreads : ∀ call ∈ [StoreCall.vote (Sample.storedVote "abc")], call.ReadsBack Sample.recordCodec := by
    simp [StoreCall.ReadsBack, hvote]
  obtain ⟨found, hfound, -, hmem⟩ := getVotes_spec hreads rfl "ab"
  obtain rfl := Except.ok.inj (hvotes.symm.trans hfound)
  have hreturned : Sample.storedVote "abc" ∈ votes := (hmem _).mpr ⟨by decide +kernel, rfl⟩
  have hlast := (hexact _).mp hreturned
  obtain ⟨-, hhash, -⟩ := voteAt_of_lastWritten hlast
  exact absurd hhash (by decide)

/-- With a record in every family and votes for "ab" and "abc", the votes for "abc" are exact and those for
"ab" are not. -/
theorem scansExact_iff_sample :
    ∃ db, performAll Sample.recordCodec ∅ Sample.storeCalls = some db ∧
      (AccountsExact Sample.recordCodec Sample.storeCalls db ∧
        (VotesExact Sample.recordCodec Sample.storeCalls db "abc" ∧
          AccountsExact Sample.recordCodec Sample.storeCalls db ↔ Separate Sample.storeCalls "abc")) ∧
      Separate Sample.storeCalls "abc" ∧ ¬ Separate Sample.storeCalls "ab" := by
  obtain ⟨db, hperform, -⟩ := counted_empty.performAll Sample.recordCodec Sample.storeCalls
  refine ⟨db, hperform, scansExact_iff Sample.readsBack_storeCalls hperform "abc", ?_, ?_⟩
  · intro vote hvote hbegins
    simp only [Sample.storeCalls, List.mem_cons, StoreCall.vote.injEq, reduceCtorEq, false_or, or_false,
      List.not_mem_nil] at hvote
    rcases hvote with rfl | rfl
    · exact absurd hbegins (by decide +kernel)
    · rfl
  · intro hseparate
    have hmem : StoreCall.vote (Sample.storedVote "abc") ∈ Sample.storeCalls := by simp [Sample.storeCalls]
    exact absurd (hseparate _ hmem (by decide +kernel)) (by decide)

end Database

end Nocostcoin
