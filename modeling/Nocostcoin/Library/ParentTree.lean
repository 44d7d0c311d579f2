import Mathlib.Data.List.Basic
import Mathlib.Order.Basic
import Mathlib.Tactic.Common

/-!
# Trees given by parent links

A table of nodes, each with a link to its parent, and a root whose link is not followed. Nodes are
entered after their parents, so paths survive the growth of the table, and a node that was there
before has no path that was not.
-/

namespace ParentTree

variable {ι β : Type}

section Paths

variable (root : ι) (parentOf : β → ι) (node : ι → Option β)

/-- The nodes after `a` on the way up to `i`, in this order. -/
inductive Path (a : ι) : ι → List β → Prop
  | refl : Path a a []
  | child {i : ι} {b : β} {bs : List β} :
      i ≠ root → node i = some b → Path a (parentOf b) bs → Path a i (bs ++ [b])

/-- `i` is `a` or a descendant of it. -/
def Descends (a i : ι) : Prop := ∃ bs, Path root parentOf node a i bs

/-- `i` is the root or in the table. -/
def Known (i : ι) : Prop := i = root ∨ (node i).isSome

/-- Every node but the root has a known parent of lower rank. -/
def Grounded (rank : ι → ℕ) : Prop :=
  ∀ i b, i ≠ root → node i = some b → Known root node (parentOf b) ∧ rank (parentOf b) < rank i

end Paths

variable {root a i j : ι} {parentOf : β → ι} {node node' : ι → Option β} {rank : ι → ℕ}
  {bs bs' : List β}

theorem Descends.refl (a : ι) : Descends root parentOf node a a := ⟨[], .refl⟩

/-- Ranks grow along a path. -/
theorem Path.rank_lt (hgrounded : Grounded root parentOf node rank)
    (h : Path root parentOf node a i bs) : a = i ∨ rank a < rank i := by
  induction h with
  | refl => exact .inl rfl
  | child hroot hnode _ ih =>
    right
    have hstep := (hgrounded _ _ hroot hnode).2
    rcases ih with rfl | hlt
    · exact hstep
    · exact Nat.lt_trans hlt hstep

/-- Along a path the ranks rise, from above the first node's to the last node's. -/
theorem Path.ranks (hgrounded : Grounded root parentOf node rank) {rankOf : β → ℕ}
    (hrank : ∀ i b, node i = some b → rankOf b = rank i) (h : Path root parentOf node a i bs) :
    (∀ b ∈ bs, rank a < rankOf b ∧ rankOf b ≤ rank i) ∧ (bs.map rankOf).Pairwise (· < ·) := by
  induction h with
  | refl => exact ⟨fun _ hb => absurd hb List.not_mem_nil, List.Pairwise.nil⟩
  | @child i b bs hroot hnode hpath ih =>
    obtain ⟨hbounds, hrise⟩ := ih
    have hstep := (hgrounded i b hroot hnode).2
    have hlast : rankOf b = rank i := hrank i b hnode
    have hfirst : rank a < rank i := by
      rcases hpath.rank_lt hgrounded with rfl | hlt
      · exact hstep
      · exact Nat.lt_trans hlt hstep
    constructor
    · intro c hc
      rcases List.mem_append.mp hc with hold | hnew
      · exact ⟨(hbounds c hold).1, Nat.le_of_lt (Nat.lt_of_le_of_lt (hbounds c hold).2 hstep)⟩
      · rw [List.mem_singleton.mp hnew, hlast]
        exact ⟨hfirst, Nat.le_refl _⟩
    · rw [List.map_append, List.pairwise_append]
      refine ⟨hrise, List.pairwise_singleton _ _, fun r hr r' hr' => ?_⟩
      obtain ⟨c, hc, rfl⟩ := List.mem_map.mp hr
      obtain rfl := List.mem_singleton.mp hr'
      rw [hlast]
      exact Nat.lt_of_le_of_lt (hbounds c hc).2 hstep

/-- The nodes of a path are in the table. -/
theorem Path.mem (h : Path root parentOf node a i bs) : ∀ b ∈ bs, ∃ j, node j = some b := by
  induction h with
  | refl => exact fun _ hb => absurd hb List.not_mem_nil
  | @child i b bs _ hnode _ ih =>
    intro c hc
    rcases List.mem_append.mp hc with hold | hnew
    · exact ih c hold
    · rw [List.mem_singleton.mp hnew]
      exact ⟨i, hnode⟩

/-- A path leads to its last node. -/
theorem Path.last {b : β} (h : Path root parentOf node a i bs) (ha : node a = some b) :
    node i = some ((b :: bs).getLast (List.cons_ne_nil b bs)) := by
  cases h with
  | refl => exact ha
  | child _ hnode _ =>
    rw [hnode, List.getLast_cons (by simp), List.getLast_append_singleton]

theorem Descends.rank_le (hgrounded : Grounded root parentOf node rank)
    (h : Descends root parentOf node a i) : rank a ≤ rank i := by
  obtain ⟨bs, hpath⟩ := h
  rcases hpath.rank_lt hgrounded with rfl | hlt
  · exact Nat.le_refl _
  · exact Nat.le_of_lt hlt

/-- Two nodes that descend from each other are one. -/
theorem Descends.antisymm (hgrounded : Grounded root parentOf node rank)
    (h : Descends root parentOf node a i) (h' : Descends root parentOf node i a) : a = i := by
  obtain ⟨bs, hpath⟩ := h
  rcases hpath.rank_lt hgrounded with heq | hlt
  · exact heq
  · exact absurd (h'.rank_le hgrounded) (Nat.not_le.mpr hlt)

/-- The path from the root to a node is unique. -/
theorem Path.unique (h : Path root parentOf node root i bs)
    (h' : Path root parentOf node root i bs') : bs = bs' := by
  induction h generalizing bs' with
  | refl =>
    cases h' with
    | refl => rfl
    | child hroot => exact absurd rfl hroot
  | child hroot hnode _ ih =>
    cases h' with
    | refl => exact absurd rfl hroot
    | child _ hnode' hrest =>
      obtain rfl := Option.some.inj (hnode.symm.trans hnode')
      rw [ih hrest]

/-- Paths stay when the table grows. -/
theorem Path.grow (hgrow : ∀ i b, node i = some b → node' i = some b)
    (h : Path root parentOf node a i bs) : Path root parentOf node' a i bs := by
  induction h with
  | refl => exact .refl
  | child hroot hnode _ ih => exact .child hroot (hgrow _ _ hnode) ih

/-- What is known stays known when the table grows. -/
theorem Known.grow (hgrow : ∀ i b, node i = some b → node' i = some b) (h : Known root node i) :
    Known root node' i := by
  rcases h with hroot | hsome
  · exact .inl hroot
  · obtain ⟨b, hnode⟩ := Option.isSome_iff_exists.mp hsome
    exact .inr (Option.isSome_iff_exists.mpr ⟨b, hgrow i b hnode⟩)

/-- The growth of the table gives a known node no new paths. -/
theorem Path.shrink (hgrounded : Grounded root parentOf node rank)
    (hgrow : ∀ i b, node i = some b → node' i = some b) (hknown : Known root node i)
    (h : Path root parentOf node' a i bs) : Path root parentOf node a i bs := by
  induction h with
  | refl => exact .refl
  | @child i b bs hroot hnode _ ih =>
    obtain ⟨b', hnode'⟩ := Option.isSome_iff_exists.mp (hknown.resolve_left hroot)
    obtain rfl := Option.some.inj (hnode.symm.trans (hgrow _ _ hnode'))
    exact .child hroot hnode' (ih (hgrounded _ _ hroot hnode').1)

/-- Every known node has a path from the root. -/
theorem exists_path (hgrounded : Grounded root parentOf node rank) (hknown : Known root node i) :
    ∃ bs, Path root parentOf node root i bs := by
  induction hrank : rank i using Nat.strongRecOn generalizing i with
  | _ n ih =>
    rcases hknown with rfl | hsome
    · exact ⟨[], .refl⟩
    · by_cases hroot : i = root
      · exact ⟨[], hroot ▸ .refl⟩
      · obtain ⟨b, hnode⟩ := Option.isSome_iff_exists.mp hsome
        obtain ⟨hparent, hlt⟩ := hgrounded i b hroot hnode
        obtain ⟨bs, hpath⟩ := ih _ (hrank ▸ hlt) hparent rfl
        exact ⟨bs ++ [b], .child hroot hnode hpath⟩

end ParentTree
