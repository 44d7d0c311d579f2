import Mathlib.Data.Set.Card
import Mathlib.Data.List.Dedup

/-!
# Windows of consecutive counters

Items that carry 64-bit counters form a window when the counters are pairwise different and are the
consecutive ones from a first counter on, around the end of the range if need be. A window grows by the
next counter, and shrinks by its first ones.
-/

/-- So many consecutive counters from a first one on. -/
def countersFrom (first : UInt64) (count : ℕ) : Set UInt64 :=
  {counter | ∃ i < count, counter = first + UInt64.ofNat i}

/-- Steps of less than a full round from one counter lead to different counters. -/
theorem step_inj {first : UInt64} {i j : ℕ} (hi : i < 2 ^ 64) (hj : j < 2 ^ 64)
    (h : first + UInt64.ofNat i = first + UInt64.ofNat j) : i = j := by
  have hword : UInt64.ofNat i = UInt64.ofNat j := by
    have hcancel := congrArg (fun x => x - first) h
    simpa [UInt64.add_sub_cancel, UInt64.add_comm first] using hcancel
  have hnat := congrArg UInt64.toNat hword
  rw [UInt64.toNat_ofNat', UInt64.toNat_ofNat'] at hnat
  omega

/-- The counters of a window and the one after them. -/
theorem countersFrom_succ (first : UInt64) (count : ℕ) :
    countersFrom first (count + 1) = insert (first + UInt64.ofNat count) (countersFrom first count) := by
  ext counter
  constructor
  · rintro ⟨i, hi, rfl⟩
    rcases Nat.lt_succ_iff_lt_or_eq.mp hi with hlt | rfl
    · exact .inr ⟨i, hlt, rfl⟩
    · exact .inl rfl
  · rintro (rfl | ⟨i, hi, rfl⟩)
    · exact ⟨count, Nat.lt_succ_self count, rfl⟩
    · exact ⟨i, Nat.lt_succ_of_lt hi, rfl⟩

/-- The counter after so many is not among them. -/
theorem next_notMem_countersFrom (first : UInt64) {count : ℕ} (hfew : count < 2 ^ 64) :
    first + UInt64.ofNat count ∉ countersFrom first count := by
  rintro ⟨i, hi, hsame⟩
  have hcount := step_inj hfew (hi.trans hfew) hsame
  omega

/-- Less than a full round of counters are as many as they are. -/
theorem ncard_countersFrom (first : UInt64) {count : ℕ} (hfew : count < 2 ^ 64) :
    (countersFrom first count).ncard = count := by
  have himage : countersFrom first count =
      (fun i => first + UInt64.ofNat i) '' (Finset.range count : Set ℕ) := by
    ext counter
    constructor
    · rintro ⟨i, hi, rfl⟩
      exact ⟨i, Finset.mem_coe.mpr (Finset.mem_range.mpr hi), rfl⟩
    · rintro ⟨i, hi, rfl⟩
      exact ⟨i, Finset.mem_range.mp (Finset.mem_coe.mp hi), rfl⟩
  have hinj : Set.InjOn (fun i => first + UInt64.ofNat i) (Finset.range count : Set ℕ) := by
    intro i hi j hj hsame
    have hi' : i < count := Finset.mem_range.mp hi
    have hj' : j < count := Finset.mem_range.mp hj
    exact step_inj (hi'.trans hfew) (hj'.trans hfew) hsame
  rw [himage, hinj.ncard_image, Set.ncard_coe_finset, Finset.card_range]

/-- Counters from one on are finitely many. -/
theorem finite_countersFrom (first : UInt64) (count : ℕ) : (countersFrom first count).Finite := by
  induction count with
  | zero =>
    have hempty : countersFrom first 0 = ∅ := by
      ext counter
      simp [countersFrom]
    rw [hempty]
    exact Set.finite_empty
  | succ count ih =>
    rw [countersFrom_succ]
    exact ih.insert _

variable {α : Type*}

/-- Items whose counters are pairwise different and exactly so many consecutive ones from a first. -/
structure Window (counter : α → UInt64) (items : Set α) (first : UInt64) (count : ℕ) : Prop where
  few : count < 2 ^ 64
  different : Set.InjOn counter items
  covers : counter '' items = countersFrom first count

namespace Window

variable {counter : α → UInt64} {items dropped : Set α} {first : UInt64} {count m : ℕ} {item : α}

/-- No items, from any counter on. -/
theorem empty (counter : α → UInt64) (first : UInt64) : Window counter ∅ first 0 := by
  refine ⟨by decide, Set.injOn_empty counter, ?_⟩
  ext value
  simp [countersFrom]

/-- There are as many items as counters. -/
theorem ncard (h : Window counter items first count) : items.ncard = count := by
  rw [← ncard_countersFrom first h.few, ← h.covers, h.different.ncard_image]

/-- A window with an item has counters. -/
theorem pos_of_mem (h : Window counter items first count) (hitem : item ∈ items) : 0 < count := by
  have hcounter := Set.mem_image_of_mem counter hitem
  rw [h.covers] at hcounter
  obtain ⟨i, hi, -⟩ := hcounter
  omega

/-- A list of the items, each once, has that length. -/
theorem length_eq (h : Window counter items first count) {list : List α} (hnodup : list.Nodup)
    (hmem : ∀ item, item ∈ list ↔ item ∈ items) : list.length = count := by
  classical
  have hitems : items = (list.toFinset : Set α) := by
    ext item
    rw [Finset.mem_coe, List.mem_toFinset, hmem]
  rw [← h.ncard, hitems, Set.ncard_coe_finset, List.toFinset_card_of_nodup hnodup]

/-- An item with the next counter makes a longer window. -/
theorem push (h : Window counter items first count) (hfew : count + 1 < 2 ^ 64)
    (hnext : counter item = first + UInt64.ofNat count) :
    Window counter (insert item items) first (count + 1) := by
  have hfresh : counter item ∉ counter '' items := by
    rw [h.covers, hnext]
    exact next_notMem_countersFrom first h.few
  refine ⟨hfew, ?_, ?_⟩
  · rw [Set.injOn_insert fun hitem => hfresh (Set.mem_image_of_mem counter hitem)]
    exact ⟨h.different, hfresh⟩
  · rw [Set.image_insert_eq, h.covers, hnext, countersFrom_succ]

/-- Another item with a counter of the window does not fit into any window. -/
theorem not_insert (h : Window counter items first count) (hfresh : item ∉ items)
    (htaken : counter item ∈ countersFrom first count) {first' : UInt64} {count' : ℕ} :
    ¬ Window counter (insert item items) first' count' := by
  intro hwindow
  rw [← h.covers] at htaken
  obtain ⟨other, hother, hsame⟩ := htaken
  have heq := hwindow.different (Set.mem_insert_of_mem item hother) (Set.mem_insert item items) hsame
  exact hfresh (heq ▸ hother)

/-- Items with the first counters of a window are not more than all of them. -/
theorem le_of_dropped (h : Window counter items first count) (hm : m < 2 ^ 64) (hsub : dropped ⊆ items)
    (hfirst : counter '' dropped = countersFrom first m) : m ≤ count := by
  have hfinite : (counter '' items).Finite := by
    rw [h.covers]
    exact finite_countersFrom first count
  rw [← ncard_countersFrom first hm, ← ncard_countersFrom first h.few, ← hfirst, ← h.covers]
  exact Set.ncard_le_ncard (Set.image_mono hsub) hfinite

/-- Without the items of its first counters it is a window from the next counter on. -/
theorem drop (h : Window counter items first count) (hm : m < 2 ^ 64) (hsub : dropped ⊆ items)
    (hfirst : counter '' dropped = countersFrom first m) :
    Window counter (items \ dropped) (first + UInt64.ofNat m) (count - m) := by
  have hle := h.le_of_dropped hm hsub hfirst
  have hfew := h.few
  refine ⟨by omega, h.different.mono Set.sdiff_subset, ?_⟩
  rw [h.different.image_sdiff_subset hsub, h.covers, hfirst]
  ext value
  constructor
  · rintro ⟨⟨i, hi, rfl⟩, hnot⟩
    have hge : m ≤ i := by
      by_contra hlt
      exact hnot ⟨i, by omega, rfl⟩
    refine ⟨i - m, by omega, ?_⟩
    rw [UInt64.add_assoc, ← UInt64.ofNat_add]
    congr 2
    omega
  · rintro ⟨i, hi, rfl⟩
    rw [UInt64.add_assoc, ← UInt64.ofNat_add]
    refine ⟨⟨m + i, by omega, rfl⟩, ?_⟩
    rintro ⟨j, hj, hsame⟩
    have heq := step_inj (by omega) (by omega) hsame
    omega

/-- The items of a window are none from a later first counter on, while the round is not full. -/
theorem not_shifted (h : Window counter items first count) (hpos : 0 < m) (hle : m ≤ count)
    (hfew : m + count < 2 ^ 64) {count' : ℕ} :
    ¬ Window counter items (first + UInt64.ofNat m) count' := by
  intro hshifted
  have hsame : count' = count := hshifted.ncard.symm.trans h.ncard
  have hmem : first ∈ countersFrom (first + UInt64.ofNat m) count' := by
    rw [← hshifted.covers, h.covers]
    exact ⟨0, by omega, (UInt64.add_zero first).symm⟩
  obtain ⟨i, hi, hround⟩ := hmem
  rw [UInt64.add_assoc, ← UInt64.ofNat_add] at hround
  have hzero : first + UInt64.ofNat 0 = first + UInt64.ofNat (m + i) :=
    (UInt64.add_zero first).trans hround
  have heq := step_inj (by omega) (by omega) hzero
  omega

end Window
