import Mathlib.Logic.Function.Basic
import Nocostcoin.Library.FiniteMap

/-!
# Records laid out in an untyped store

A store of plain values under plain keys can hold records of several kinds: every place of a record has a key
of its own, and the value there is read in the way of the place. Entering and erasing at a place is then the
same for the records and for the store.
-/

/-- The keys of places, and how the value at a place is read. -/
structure Layout (π κ β ρ : Type) where
  key : π → κ
  read : π → β → Option ρ
  key_injective : Function.Injective key

namespace Layout

variable {π κ β ρ : Type} [DecidableEq κ] (layout : Layout π κ β ρ)

/-- A store holds some records: at each place the one there, if any, and no value elsewhere. -/
structure Holds (content : π → Option ρ) (store : FiniteMap κ β) : Prop where
  lookup : ∀ place, (store.lookup (layout.key place)).map (layout.read place) = (content place).map some
  keyed : ∀ key value, store.lookup key = some value → ∃ place, key = layout.key place

/-- An empty store holds no records. -/
theorem holds_empty : layout.Holds (fun _ => none) ∅ :=
  ⟨fun _ => rfl, fun _ _ hvalue => by contradiction⟩

variable {layout} {content : π → Option ρ} {store : FiniteMap κ β} {place : π} {record : ρ}

/-- Where no record is there is no value. -/
theorem Holds.lookup_none (h : layout.Holds content store) (hnone : content place = none) :
    store.lookup (layout.key place) = none := by
  have hplace := h.lookup place
  rw [hnone] at hplace
  exact Option.map_eq_none_iff.mp hplace

/-- Where a record is there is a value that is read as it. -/
theorem Holds.exists_value (h : layout.Holds content store) (hrecord : content place = some record) :
    ∃ value, store.lookup (layout.key place) = some value ∧ layout.read place value = some record := by
  have hplace := h.lookup place
  rw [hrecord] at hplace
  exact Option.map_eq_some_iff.mp hplace

/-- Each value is read as the record of its place. -/
theorem Holds.exists_record {value : β} (h : layout.Holds content store)
    (hvalue : store.lookup (layout.key place) = some value) :
    ∃ record, content place = some record ∧ layout.read place value = some record := by
  have hplace := h.lookup place
  rw [hvalue, Option.map_some] at hplace
  obtain ⟨record, hrecord, hread⟩ := Option.map_eq_some_iff.mp hplace.symm
  exact ⟨record, hrecord, hread.symm⟩

variable [DecidableEq π]

/-- Entering a value that is read as a record enters the record. -/
theorem Holds.put (h : layout.Holds content store) {value : β} (hread : layout.read place value = some record) :
    layout.Holds (Function.update content place (some record)) (store.insert (layout.key place) value) := by
  constructor
  · intro other
    rw [FiniteMap.lookup_insert_ite, Function.update_apply]
    simp only [layout.key_injective.eq_iff]
    split
    · rename_i hother
      rw [hother, Option.map_some, hread, Option.map_some]
    · exact h.lookup other
  · intro key found hfound
    rw [FiniteMap.lookup_insert_ite] at hfound
    split at hfound
    · exact ⟨place, by assumption⟩
    · exact h.keyed key found hfound

/-- Erasing the value at a place erases the record. -/
theorem Holds.erase (h : layout.Holds content store) (place : π) :
    layout.Holds (Function.update content place none) (store.erase (layout.key place)) := by
  constructor
  · intro other
    rw [Function.update_apply]
    split
    · rename_i hother
      rw [hother, Finmap.lookup_erase]
      rfl
    · rename_i hother
      rw [Finmap.lookup_erase_ne fun hsame => hother (layout.key_injective hsame)]
      exact h.lookup other
  · intro key found hfound
    by_cases hkey : key = layout.key place
    · exact ⟨place, hkey⟩
    · rw [Finmap.lookup_erase_ne hkey] at hfound
      exact h.keyed key found hfound

end Layout
