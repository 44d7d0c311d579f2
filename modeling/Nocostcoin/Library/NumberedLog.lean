import Mathlib.Algebra.Group.Nat.Defs
import Mathlib.Data.List.Basic

/-!
# Logs kept as a count and numbered items

A list can be kept in a store as the number of its entries and one item for each, numbered from zero.
Appending writes an item under the count and then the next count. The count is a machine integer, so the log
holds as many entries as there are numbers below its largest value.
-/

namespace NumberedLog

variable {β : Type} {count : UInt64} {item item' : UInt64 → Option β} {entries : List β}

/-- The count is the length of the list, and each entry is the item of its number. -/
structure Holds (count : UInt64) (item : UInt64 → Option β) (entries : List β) : Prop where
  count : count.toNat = entries.length
  items : ∀ (i : ℕ) (h : i < entries.length), item (UInt64.ofNat i) = some entries[i]

/-- Without entries the count is zero. -/
theorem holds_nil (item : UInt64 → Option β) : Holds 0 item [] where
  count := rfl
  items i h := absurd h (Nat.not_lt_zero i)

/-- An item under the count and the next count append an entry, while there is room for one. -/
theorem Holds.append {entry : β} (h : Holds count item entries) (hitem : item' count = some entry)
    (hothers : ∀ i, i ≠ count → item' i = item i) (hroom : entries.length + 1 < 2 ^ 64) :
    Holds (count + 1) item' (entries ++ [entry]) := by
  have hcount := h.count
  constructor
  · rw [UInt64.toNat_add, UInt64.toNat_one, List.length_append, List.length_singleton, hcount]
    omega
  · intro i hi
    rw [List.length_append, List.length_singleton] at hi
    by_cases hlast : i = entries.length
    · have hsame : UInt64.ofNat i = count := by rw [hlast, ← hcount, UInt64.ofNat_toNat]
      rw [hsame, hitem, List.getElem_concat_length hlast]
    · have hbefore : i < entries.length := by omega
      have hne : UInt64.ofNat i ≠ count := by
        intro heq
        have hsmall : i < 2 ^ 64 := by omega
        have hnat := congrArg UInt64.toNat heq
        rw [UInt64.toNat_ofNat_of_lt' hsmall, hcount] at hnat
        exact hlast hnat
      rw [hothers _ hne, h.items i hbefore, List.getElem_append_left hbefore]

/-- Other items of the log do not matter. -/
theorem Holds.congr (h : Holds count item entries) (hitems : ∀ i, item' i = item i) :
    Holds count item' entries where
  count := h.count
  items i hi := (hitems _).trans (h.items i hi)

/-- The item of a number below the count. -/
theorem Holds.item_of_lt (h : Holds count item entries) {index : UInt64}
    (hindex : index.toNat < entries.length) : item index = some (entries[index.toNat]) := by
  have hitem := h.items index.toNat hindex
  rwa [UInt64.ofNat_toNat] at hitem

/-- Read backwards from an index, a list gives the entry there first. -/
theorem reverse_take_succ {index remaining : ℕ} (hindex : index < entries.length) :
    (entries.take (index + 1)).reverse.take (remaining + 1) =
      entries[index] :: (entries.take index).reverse.take remaining := by
  rw [List.take_succ_eq_append_getElem hindex, List.reverse_append, List.reverse_singleton,
    List.singleton_append, List.take_succ_cons]

/-- The items below a count. -/
def listing (count : UInt64) (item : UInt64 → Option β) : List β :=
  (List.range count.toNat).filterMap fun i => item (UInt64.ofNat i)

/-- They are the entries. -/
theorem Holds.listing_eq (h : Holds count item entries) : listing count item = entries := by
  unfold listing
  rw [h.count]
  have hall : ∀ n, n ≤ entries.length →
      (List.range n).filterMap (fun i => item (UInt64.ofNat i)) = entries.take n := by
    intro n
    induction n with
    | zero => intro _; rfl
    | succ n ih =>
      intro hn
      rw [List.range_succ, List.filterMap_append, ih (by omega),
        List.take_succ_eq_append_getElem (by omega)]
      simp [h.items n (by omega)]
  rw [hall _ (Nat.le_refl _), List.take_length]

/-- Where no item below the count is missing, there are as many as it says. -/
theorem length_listing (hall : ∀ i < count.toNat, (item (UInt64.ofNat i)).isSome) :
    (listing count item).length = count.toNat := by
  unfold listing
  rw [List.length_filterMap_eq_countP, List.countP_eq_length.mpr, List.length_range]
  intro i hi
  exact hall i (List.mem_range.mp hi)

end NumberedLog
