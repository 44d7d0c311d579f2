import Mathlib.Data.List.Basic
import Mathlib.Data.List.TakeWhile

/-!
# Scanning an ordered list of strings from a prefix on

In lexicographic order the strings with a common prefix are an interval, and the prefix is its least
element. So a scan that seeks the prefix and stops at the first string without it meets exactly the strings
that have it, whatever stands before and behind them.
-/

namespace PrefixScan

section Interval

variable {β : Type} {r : β → β → Prop} {P start : β → Bool} {list : List β}

/-- Where whatever stands before a wanted entry is wanted too, taking as long as wanted is filtering. -/
theorem takeWhile_eq_filter (hdown : list.Pairwise fun a b => P b → P a) :
    list.takeWhile P = list.filter P := by
  induction list with
  | nil => rfl
  | cons first rest ih =>
    obtain ⟨hfirst, hrest⟩ := List.pairwise_cons.mp hdown
    by_cases hwanted : P first
    · rw [List.takeWhile_cons_of_pos hwanted, List.filter_cons_of_pos hwanted, ih hrest]
    · have hnone : ∀ b ∈ rest, ¬ P b := fun b hb hPb => hwanted (hfirst b hb hPb)
      rw [List.takeWhile_cons_of_neg hwanted, List.filter_cons_of_neg hwanted,
        List.filter_eq_nil_iff.mpr hnone]

/-- In an ordered list a scan meets exactly what is wanted, if nothing is wanted before the start and, from
there on, whatever stands before a wanted entry is wanted too. -/
theorem takeWhile_dropWhile_eq_filter (hordered : list.Pairwise r) (hstart : ∀ b, P b → ¬ start b)
    (hafter : ∀ a b, ¬ start a → r a b → ¬ start b) (hdown : ∀ a b, ¬ start a → r a b → P b → P a) :
    (list.dropWhile start).takeWhile P = list.filter P := by
  induction list with
  | nil => rfl
  | cons first rest ih =>
    obtain ⟨hfirst, hrest⟩ := List.pairwise_cons.mp hordered
    by_cases hbefore : start first
    · have hunwanted : ¬ P first := fun hwanted => hstart first hwanted hbefore
      rw [List.dropWhile_cons_of_pos hbefore, ih hrest, List.filter_cons_of_neg hunwanted]
    · have hreached : ∀ b ∈ rest, ¬ start b := fun b hb => hafter first b hbefore (hfirst b hb)
      rw [List.dropWhile_cons_of_neg hbefore]
      apply takeWhile_eq_filter
      refine List.pairwise_cons.mpr ⟨fun b hb => hdown first b hbefore (hfirst b hb), ?_⟩
      exact hrest.imp_of_mem fun ha _ hab => hdown _ _ (hreached _ ha) hab

end Interval

section Lexicographic

variable {α : Type} [DecidableEq α] [LT α] [LE α] [Std.IsLinearOrder α] [Std.LawfulOrderLT α]
  [DecidableRel fun a b : α => a < b]

omit [DecidableEq α] [DecidableRel fun a b : α => a < b] in
/-- What lies between a prefix and a string that has it, has it. -/
theorem isPrefix_of_le_of_le {p a b : List α} (hpa : p ≤ a) (hab : a ≤ b) (hb : p <+: b) : p <+: a := by
  induction p generalizing a b with
  | nil => exact List.nil_prefix
  | cons x p ih =>
    obtain ⟨tail, rfl⟩ := hb
    cases a with
    | nil => exact absurd hpa (by simp)
    | cons y a =>
      rw [List.cons_append, List.cons_le_cons_iff] at hab
      rw [List.cons_le_cons_iff] at hpa
      rcases hpa with hlt | ⟨rfl, hpa⟩
      · rcases hab with hgt | ⟨rfl, -⟩
        · exact absurd hlt (Std.not_gt_of_lt hgt)
        · exact absurd hlt (Std.lt_irrefl)
      · rcases hab with hgt | ⟨-, hab⟩
        · exact absurd hgt (Std.lt_irrefl)
        · exact List.cons_prefix_cons.mpr ⟨rfl, ih hpa hab (List.prefix_append p tail)⟩

/-- A scan of entries ordered by their keys, from a prefix on and as long as the keys have it, meets exactly
the entries whose keys have it. -/
theorem scan_eq_filter {β : Type} (key : β → List α) {list : List β}
    (hordered : list.Pairwise fun a b => key a ≤ key b) (p : List α) :
    (list.dropWhile fun b => decide (key b < p)).takeWhile (fun b => p.isPrefixOf (key b)) =
      list.filter fun b => p.isPrefixOf (key b) := by
  apply takeWhile_dropWhile_eq_filter hordered
  · intro b hb
    have hle : p ≤ key b := (List.isPrefixOf_iff_prefix.mp hb).le
    simpa using hle
  · intro a b ha hab
    have hle : p ≤ key a := by simpa using ha
    simpa using List.le_trans hle hab
  · intro a b ha hab hb
    have hle : p ≤ key a := by simpa using ha
    exact List.isPrefixOf_iff_prefix.mpr (isPrefix_of_le_of_le hle hab (List.isPrefixOf_iff_prefix.mp hb))

end Lexicographic

end PrefixScan
