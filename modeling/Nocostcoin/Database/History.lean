import Nocostcoin.Database.Families
import Nocostcoin.Library.NumberedLog

/-!
# The history of an address

Each address has a log of its own: a count and items numbered from zero. The history is read from the last
item down.
-/

namespace Nocostcoin

open NumberedLog

variable {codec : Codec} {db db' : Database} {call : StoreCall} {calls : List StoreCall} {address : String}

/-- The transaction hash that a call adds for an address. -/
def StoreCall.addedTo (address : String) : StoreCall → Option String
  | .transactionToAddress address' txHash => if address' = address then some txHash else none
  | _ => none

namespace Database

/-- The item of an address under an index. -/
def historyItem (db : Database) (address : String) (index : UInt64) : Option Bytes :=
  db.lookup (Place.historyItem address index).key

/-- The records of an address are a log of the hashes. -/
def Logs (db : Database) (address : String) (hashes : List String) : Prop :=
  ∃ count, db.historyCount address = some count ∧
    Holds (count.getD 0) (db.historyItem address) (hashes.map asBytes)

/-- Writing elsewhere keeps the log. -/
theorem Logs.put {hashes : List String} {place : Place} {value : Bytes} (hlogs : db.Logs address hashes)
    (hcount : place ≠ .historyCount address) (hitem : ∀ index, place ≠ .historyItem address index) :
    (db.put place value).Logs address hashes := by
  obtain ⟨count, hread, hholds⟩ := hlogs
  refine ⟨count, ?_, hholds.congr fun index => ?_⟩
  · unfold historyCount at hread ⊢
    rwa [lookup_put, if_neg hcount.symm]
  · unfold historyItem
    rw [lookup_put, if_neg (hitem index).symm]

/-- Adding a hash for the address appends it, while there is room. -/
theorem Logs.append {hashes : List String} {txHash : String} (hlogs : db.Logs address hashes)
    (hroom : hashes.length + 1 < 2 ^ 64) (h : db.addTransactionToAddress address txHash = some db') :
    db'.Logs address (hashes ++ [txHash]) := by
  obtain ⟨count, hread, hholds⟩ := hlogs
  obtain ⟨found, hfound, rfl⟩ := addTransactionToAddress_eq h
  obtain rfl := Option.some.inj (hread.symm.trans hfound)
  refine ⟨some (count.getD 0 + 1), ?_, ?_⟩
  · unfold historyCount
    rw [lookup_put, if_pos rfl]
    dsimp only
    rw [if_pos (length_u64ToLeBytes _), leValue_u64ToLeBytes, UInt64.ofNat_toNat]
  · rw [List.map_append, List.map_singleton]
    refine hholds.append ?_ (fun index hne => ?_) (by rwa [List.length_map])
    · unfold historyItem
      rw [lookup_put, if_neg (by simp), lookup_put, if_pos rfl]
    · unfold historyItem
      rw [lookup_put, if_neg (by simp), lookup_put, if_neg (by simpa using hne)]

/-- A call that takes one key adds to no history. -/
theorem addedTo_of_record {written : Place × Bytes} (hrecord : call.record codec = some written) :
    call.addedTo address = none := by
  cases call with
  | transactionToAddress => contradiction
  | _ => rfl

/-- A call adds a hash to the log of the address or leaves the log alone. -/
theorem Logs.perform {hashes : List String} (hlogs : db.Logs address hashes)
    (hroom : (hashes ++ (call.addedTo address).toList).length < 2 ^ 64)
    (h : db.perform codec call = some db') : db'.Logs address (hashes ++ (call.addedTo address).toList) := by
  cases hrecord : call.record codec with
  | some written =>
    obtain ⟨place, value⟩ := written
    have hplace := not_inHistory_of_record hrecord
    rw [perform_of_record hrecord] at h
    rw [addedTo_of_record hrecord, Option.toList_none, List.append_nil, ← Option.some.inj h]
    refine hlogs.put ?_ fun index => ?_
    · rintro rfl
      exact hplace trivial
    · rintro rfl
      exact hplace trivial
  | none =>
    cases call with
    | transactionToAddress other txHash =>
      by_cases hother : other = address
      · have hadded : (StoreCall.transactionToAddress other txHash).addedTo address = some txHash :=
          if_pos hother
        rw [hadded, Option.toList_some] at hroom ⊢
        rw [List.length_append, List.length_singleton] at hroom
        rw [hother] at h
        exact hlogs.append hroom h
      · have hadded : (StoreCall.transactionToAddress other txHash).addedTo address = none := if_neg hother
        obtain ⟨count, -, rfl⟩ := addTransactionToAddress_eq h
        rw [hadded, Option.toList_none, List.append_nil]
        have hitem : (db.put (.historyItem other (count.getD 0)) (asBytes txHash)).Logs address hashes :=
          hlogs.put (by simp) (by simp [hother])
        exact hitem.put (by simpa using hother) (by simp)
    | _ => contradiction

/-- The hashes that calls add for an address, in their order. -/
def added (address : String) (calls : List StoreCall) : List String := calls.filterMap (StoreCall.addedTo address)

/-- From the empty database, the log of an address has what was added for it. -/
theorem logs_performAll (h : performAll codec ∅ calls = some db) (hfew : (added address calls).length < 2 ^ 64) :
    db.Logs address (added address calls) := by
  induction calls using List.reverseRecOn generalizing db with
  | nil =>
    rw [← Option.some.inj h]
    exact ⟨none, rfl, holds_nil _⟩
  | append_singleton calls call ih =>
    rw [performAll, List.foldlM_append] at h
    obtain ⟨mid, hbefore, hlast⟩ := Option.bind_eq_some_iff.mp h
    have hcall : mid.perform codec call = some db := by simpa using hlast
    have hsnoc : added address (calls ++ [call]) = added address calls ++ (call.addedTo address).toList := by
      unfold added
      rw [List.filterMap_append]
      cases hadded : call.addedTo address <;> simp [hadded]
    rw [hsnoc] at hfew ⊢
    refine (ih hbefore ?_).perform hfew hcall
    rw [List.length_append] at hfew
    omega

/-- The loop reads a log backwards from an index. -/
theorem historyDown_eq {count : UInt64} {hashes : List String}
    (hholds : Holds count (db.historyItem address) (hashes.map asBytes)) (remaining : ℕ) {index : UInt64}
    (hindex : index.toNat < hashes.length) (hremaining : remaining ≤ index.toNat + 1) :
    db.historyDown address remaining index = .ok ((hashes.take (index.toNat + 1)).reverse.take remaining) := by
  induction remaining generalizing index with
  | zero => rfl
  | succ remaining ih =>
    have hbound : index.toNat < (hashes.map asBytes).length := by rwa [List.length_map]
    have hitem := hholds.item_of_lt hbound
    unfold historyItem at hitem
    rw [historyDown, hitem, reverse_take_succ hindex]
    simp only [List.getElem_map, fromUtf8_asBytes]
    cases remaining with
    | zero => rfl
    | succ remaining =>
      have hbelow : (index - 1).toNat = index.toNat - 1 := by
        have hone : (1 : UInt64) ≤ index := by
          rw [UInt64.le_iff_toNat_le, UInt64.toNat_one]
          omega
        rw [UInt64.toNat_sub_of_le _ _ hone, UInt64.toNat_one]
      rw [ih (by omega) (by omega), hbelow, Nat.sub_add_cancel (by omega)]
      rfl

/-- Reading a log: the last hashes, as many as the limit allows, the last one first. -/
theorem getAddressHistory_of_logs {hashes : List String} (hlogs : db.Logs address hashes) (limit : UInt64) :
    db.getAddressHistory address limit = some (.ok (hashes.reverse.take limit.toNat)) := by
  obtain ⟨count, hread, hholds⟩ := hlogs
  have hlength := hholds.count
  rw [List.length_map] at hlength
  unfold getAddressHistory
  rw [hread, Option.bind_eq_bind, Option.bind_some]
  cases count with
  | none =>
    have hnone : hashes = [] := List.length_eq_zero_iff.mp hlength.symm
    rw [hnone]
    simp
  | some count =>
    dsimp only [Option.getD_some] at hlength hholds ⊢
    by_cases hpositive : 0 < count
    · rw [if_pos hpositive]
      have hone : (1 : UInt64) ≤ count := by
        rw [UInt64.lt_iff_toNat_lt] at hpositive
        rw [UInt64.le_iff_toNat_le, UInt64.toNat_one]
        exact hpositive
      have hstart : (count - 1).toNat = count.toNat - 1 := by
        rw [UInt64.toNat_sub_of_le _ _ hone, UInt64.toNat_one]
      have hend : (if limit < count then count - limit else 0).toNat = count.toNat - limit.toNat := by
        split
        · rename_i hless
          rw [UInt64.toNat_sub_of_le _ _ (UInt64.le_of_lt hless)]
        · rename_i hless
          rw [UInt64.lt_iff_toNat_lt] at hless
          rw [UInt64.toNat_zero]
          omega
      have hnat : 0 < count.toNat := UInt64.lt_iff_toNat_lt.mp hpositive
      have hall : hashes.take count.toNat = hashes := List.take_of_length_le (by omega)
      have htake : hashes.reverse.take (count.toNat - (count.toNat - limit.toNat)) =
          hashes.reverse.take limit.toNat := by
        rcases Nat.le_total limit.toNat count.toNat with hle | hle
        · rw [Nat.sub_sub_self hle]
        · rw [Nat.sub_eq_zero_of_le hle, Nat.sub_zero, List.take_of_length_le, List.take_of_length_le] <;>
            rw [List.length_reverse] <;> omega
      rw [hend, hstart, historyDown_eq hholds _ (by omega) (by omega), hstart, Nat.sub_add_cancel hnat, hall,
        htake]
    · have hzero : hashes = [] := by
        rw [UInt64.lt_iff_toNat_lt, UInt64.toNat_zero, hlength] at hpositive
        exact List.length_eq_zero_iff.mp (by omega)
      rw [if_neg hpositive, hzero]
      simp

/-- After every sequence of calls on the empty database, none of which panics, the history of an address for
which fewer than `2 ^ 64` hashes were added is, for every limit, the last of them up to the limit, the most
recent one first. -/
theorem addressHistory_recent (codec : Codec) (calls : List StoreCall) :
    ∃ db, performAll codec ∅ calls = some db ∧
      ∀ address, (added address calls).length < 2 ^ 64 → ∀ limit,
        db.getAddressHistory address limit = some (.ok ((added address calls).reverse.take limit.toNat)) := by
  obtain ⟨db, hperform, -⟩ := counted_empty.performAll codec calls
  exact ⟨db, hperform, fun address hfew limit =>
    getAddressHistory_of_logs (logs_performAll hperform hfew) limit⟩

/-- Three hashes for one address, one of them twice, between those for others. -/
def historyCalls : List StoreCall :=
  [.transactionToAddress "01" "t", .transactionToAddress "0" "u", .transactionToAddress "01" "v",
    .transactionToAddress "01:0" "w", .transactionToAddress "01" "t", .transactionToAddress "" "t"]

/-- Read without a limit that matters, with a limit, and with the limit zero. -/
theorem addressHistory_recent_interleaved :
    ∃ db, performAll Sample.recordCodec ∅ historyCalls = some db ∧
      db.getAddressHistory "01" 20 = some (.ok ["t", "v", "t"]) ∧
      db.getAddressHistory "01" 2 = some (.ok ["t", "v"]) ∧ db.getAddressHistory "01" 0 = some (.ok []) ∧
      db.getAddressHistory "01:0" 20 = some (.ok ["w"]) := by
  obtain ⟨db, hperform, hhistory⟩ := addressHistory_recent Sample.recordCodec historyCalls
  have hfirst : added "01" historyCalls = ["t", "v", "t"] := by decide
  have hsecond : added "01:0" historyCalls = ["w"] := by decide
  have hread := hhistory "01" (by rw [hfirst]; decide)
  have hother := hhistory "01:0" (by rw [hsecond]; decide) 20
  rw [hsecond] at hother
  rw [hfirst] at hread
  exact ⟨db, hperform, hread 20, hread 2, hread 0, hother⟩

end Database

end Nocostcoin
