import Mathlib.Algebra.Group.Nat.Defs
import Mathlib.Data.List.Basic
import Mathlib.Data.List.Nodup

/-!
# Reducing a list pair by pair

A list is reduced level by level: neighbours are combined, and an odd last entry is combined with itself.
Whatever the combination does, the result is the fold of one and the same tree, whose leaves are the
entries, some of them repeated at the end.
-/

namespace PairwiseReduction

variable {α β : Type}

/-- One level: neighbours are combined, an odd last entry with itself. -/
def level (combine : α → α → α) : List α → List α
  | left :: right :: rest => combine left right :: level combine rest
  | [last] => [combine last last]
  | [] => []

/-- Levels until one entry is left, for so many rounds at most. -/
def reduce (combine : α → α → α) : ℕ → List α → List α
  | 0, entries => entries
  | rounds + 1, entries =>
      if 1 < entries.length then reduce combine rounds (level combine entries) else entries

/-- The pairs that a level combines. -/
def levelPairs : List α → List (α × α)
  | left :: right :: rest => (left, right) :: levelPairs rest
  | [last] => [(last, last)]
  | [] => []

/-- The pairs that a reduction combines. -/
def pairs (combine : α → α → α) : ℕ → List α → List (α × α)
  | 0, _ => []
  | rounds + 1, entries =>
      if 1 < entries.length then levelPairs entries ++ pairs combine rounds (level combine entries)
      else []

/-- The entries as the reduction of all of them lists them: an odd rest is repeated. -/
def completed (entries : List α) : List α :=
  (reduce (· ++ ·) entries.length (entries.map fun entry => [entry])).flatten

variable {combine : α → α → α} {combine' : β → β → β}

theorem length_level (combine : α → α → α) (entries : List α) :
    (level combine entries).length = (entries.length + 1) / 2 := by
  induction entries using level.induct with
  | case1 left right rest ih =>
    simp only [level, List.length_cons, ih]
    omega
  | case2 last => simp [level]
  | case3 => simp [level]

/-- A level combines its pairs. -/
theorem level_eq_map (combine : α → α → α) (entries : List α) :
    level combine entries = (levelPairs entries).map fun pair => combine pair.1 pair.2 := by
  induction entries using level.induct with
  | case1 left right rest ih => rw [level, levelPairs, List.map_cons, ih]
  | case2 last => rfl
  | case3 => rfl

/-- The pairs of a level are made of its entries. -/
theorem mem_of_mem_levelPairs {entries : List α} {pair : α × α} (h : pair ∈ levelPairs entries) :
    pair.1 ∈ entries ∧ pair.2 ∈ entries := by
  induction entries using level.induct with
  | case1 left right rest ih =>
    rcases List.mem_cons.mp h with rfl | hrest
    · simp
    · obtain ⟨hfirst, hsecond⟩ := ih hrest
      exact ⟨by simp [hfirst], by simp [hsecond]⟩
  | case2 last =>
    rw [List.mem_singleton.mp h]
    simp
  | case3 => cases h

/-- What holds of the entries and of every combination holds of the next level. -/
theorem forall_level {P : α → Prop} (hcombine : ∀ a b, P a → P b → P (combine a b)) {entries : List α}
    (h : ∀ entry ∈ entries, P entry) : ∀ entry ∈ level combine entries, P entry := by
  intro entry hentry
  rw [level_eq_map] at hentry
  obtain ⟨pair, hpair, rfl⟩ := List.mem_map.mp hentry
  obtain ⟨hfirst, hsecond⟩ := mem_of_mem_levelPairs hpair
  exact hcombine _ _ (h _ hfirst) (h _ hsecond)

/-- The pairs of a reduction are made of entries and combinations. -/
theorem forall_pairs {P : α → Prop} (hcombine : ∀ a b, P a → P b → P (combine a b)) {rounds : ℕ}
    {entries : List α} (h : ∀ entry ∈ entries, P entry) :
    ∀ pair ∈ pairs combine rounds entries, P pair.1 ∧ P pair.2 := by
  induction rounds generalizing entries with
  | zero => exact fun pair hpair => nomatch hpair
  | succ rounds ih =>
    intro pair hpair
    rw [pairs] at hpair
    split at hpair
    · rcases List.mem_append.mp hpair with hlevel | hlater
      · obtain ⟨hfirst, hsecond⟩ := mem_of_mem_levelPairs hlevel
        exact ⟨h _ hfirst, h _ hsecond⟩
      · exact ih (forall_level hcombine h) pair hlater
    · cases hpair

/-- A level commutes with a map that commutes with the combination. -/
theorem map_level {f : α → β} (hcombine : ∀ a b, f (combine a b) = combine' (f a) (f b))
    (entries : List α) : (level combine entries).map f = level combine' (entries.map f) := by
  induction entries using level.induct with
  | case1 left right rest ih => simp only [level, List.map_cons, hcombine, ih]
  | case2 last => simp only [level, List.map_cons, List.map_nil, hcombine]
  | case3 => rfl

/-- The pairs of a level of images are the images of its pairs. -/
theorem levelPairs_map (f : α → β) (entries : List α) :
    levelPairs (entries.map f) = (levelPairs entries).map (Prod.map f f) := by
  induction entries using level.induct with
  | case1 left right rest ih => simp only [List.map_cons, levelPairs, ih, Prod.map_apply]
  | case2 last => rfl
  | case3 => rfl

/-- So does the reduction. -/
theorem map_reduce {f : α → β} (hcombine : ∀ a b, f (combine a b) = combine' (f a) (f b)) (rounds : ℕ)
    (entries : List α) :
    (reduce combine rounds entries).map f = reduce combine' rounds (entries.map f) := by
  induction rounds generalizing entries with
  | zero => rfl
  | succ rounds ih =>
    rw [reduce, reduce, List.length_map]
    split
    · rw [ih, map_level hcombine]
    · rfl

/-- As many rounds as there are entries reduce to one. -/
theorem length_reduce {rounds : ℕ} {entries : List α} (hrounds : entries.length ≤ rounds + 1)
    (hne : entries ≠ []) : (reduce combine rounds entries).length = 1 := by
  have hpos := List.length_pos_iff.mpr hne
  induction rounds generalizing entries with
  | zero =>
    rw [reduce]
    omega
  | succ rounds ih =>
    rw [reduce]
    split
    · have hlength := length_level combine entries
      apply ih
      · omega
      · exact List.length_pos_iff.mp (by omega)
      · omega
    · omega

/-- A binary tree with entries at its leaves. -/
inductive Tree (α : Type) where
  | leaf (entry : α)
  | node (left right : Tree α)

namespace Tree

/-- The entries at the leaves, from left to right. -/
def leaves : Tree α → List α
  | leaf entry => [entry]
  | node left right => left.leaves ++ right.leaves

/-- Combine the entries as the tree says. -/
def fold (combine : α → α → α) : Tree α → α
  | leaf entry => entry
  | node left right => combine (left.fold combine) (right.fold combine)

/-- The pairs that the fold combines. -/
def pairs (combine : α → α → α) : Tree α → List (α × α)
  | leaf _ => []
  | node left right =>
      (left.fold combine, right.fold combine) :: (left.pairs combine ++ right.pairs combine)

/-- The trees whose leaves are all at one depth. -/
inductive Perfect : ℕ → Tree α → Prop
  | leaf (entry : α) : Perfect 0 (leaf entry)
  | node {depth : ℕ} {left right : Tree α} : Perfect depth left → Perfect depth right →
      Perfect (depth + 1) (node left right)

/-- A perfect tree has a power of two of leaves. -/
theorem Perfect.length_leaves {depth : ℕ} {tree : Tree α} (h : Perfect depth tree) :
    tree.leaves.length = 2 ^ depth := by
  induction h with
  | leaf entry => rfl
  | node _ _ ihl ihr =>
    rw [leaves, List.length_append, ihl, ihr, Nat.pow_succ, Nat.mul_two]

/-- Perfect trees with the same leaves are the same. -/
theorem Perfect.eq_of_leaves {depth depth' : ℕ} {tree tree' : Tree α} (h : Perfect depth tree)
    (h' : Perfect depth' tree') (hleaves : tree.leaves = tree'.leaves) : tree = tree' := by
  have hdepth : depth = depth' := by
    rw [← Nat.pow_right_inj (a := 2) (by decide), ← h.length_leaves, ← h'.length_leaves, hleaves]
  subst hdepth
  induction h generalizing tree' with
  | leaf entry =>
    cases h' with
    | leaf entry' => rw [List.singleton_inj.mp hleaves]
  | node hleft hright ihl ihr =>
    cases h' with
    | node hleft' hright' =>
      obtain ⟨hfirst, hsecond⟩ := List.append_inj hleaves
        (hleft.length_leaves.trans hleft'.length_leaves.symm)
      rw [ihl hfirst hleft', ihr hsecond hright']

/-- Trees with the same fold are the same, if no two pairs that occur are combined to the same and no
entry is a combination. -/
theorem eq_of_fold {known : List (α × α)} {entries : List α}
    (hfree : ∀ pair ∈ known, ∀ pair' ∈ known, combine pair.1 pair.2 = combine pair'.1 pair'.2 → pair = pair')
    (hleaf : ∀ entry ∈ entries, ∀ pair ∈ known, entry ≠ combine pair.1 pair.2) {tree tree' : Tree α}
    (hpairs : ∀ pair ∈ tree.pairs combine, pair ∈ known)
    (hpairs' : ∀ pair ∈ tree'.pairs combine, pair ∈ known)
    (hleaves : ∀ entry ∈ tree.leaves, entry ∈ entries)
    (hleaves' : ∀ entry ∈ tree'.leaves, entry ∈ entries)
    (hfold : tree.fold combine = tree'.fold combine) : tree = tree' := by
  induction tree generalizing tree' with
  | leaf entry =>
    cases tree' with
    | leaf entry' => rw [leaf.injEq]; exact hfold
    | node left' right' =>
      exact absurd hfold (hleaf entry (hleaves entry (by simp [leaves])) _
        (hpairs' (left'.fold combine, right'.fold combine) (by simp [pairs])))
  | node left right ihl ihr =>
    cases tree' with
    | leaf entry' =>
      exact absurd hfold.symm (hleaf entry' (hleaves' entry' (by simp [leaves])) _
        (hpairs (left.fold combine, right.fold combine) (by simp [pairs])))
    | node left' right' =>
      have hpair := hfree _ (hpairs (left.fold combine, right.fold combine) (by simp [pairs])) _
        (hpairs' (left'.fold combine, right'.fold combine) (by simp [pairs])) hfold
      obtain ⟨hfirst, hsecond⟩ := Prod.mk.inj hpair
      have hl := ihl (fun pair h => hpairs pair (by simp [pairs, h]))
        (fun pair h => hpairs' pair (by simp [pairs, h])) (fun entry h => hleaves entry (by simp [leaves, h]))
        (fun entry h => hleaves' entry (by simp [leaves, h])) hfirst
      have hr := ihr (fun pair h => hpairs pair (by simp [pairs, h]))
        (fun pair h => hpairs' pair (by simp [pairs, h])) (fun entry h => hleaves entry (by simp [leaves, h]))
        (fun entry h => hleaves' entry (by simp [leaves, h])) hsecond
      rw [hl, hr]

end Tree

/-- The trees of a reduction of perfect trees are perfect. -/
theorem perfect_reduce {rounds depth : ℕ} {trees : List (Tree α)} (h : ∀ tree ∈ trees, tree.Perfect depth) :
    ∃ depth', ∀ tree ∈ reduce .node rounds trees, tree.Perfect depth' := by
  induction rounds generalizing depth trees with
  | zero => exact ⟨depth, h⟩
  | succ rounds ih =>
    rw [reduce]
    split
    · have hnext : ∀ tree ∈ level .node trees, tree.Perfect (depth + 1) := by
        intro tree htree
        rw [level_eq_map] at htree
        obtain ⟨pair, hpair, rfl⟩ := List.mem_map.mp htree
        obtain ⟨hfirst, hsecond⟩ := mem_of_mem_levelPairs hpair
        exact .node (h _ hfirst) (h _ hsecond)
      exact ih hnext
    · exact ⟨depth, h⟩

/-- The pairs of the trees of a reduction are those of the trees before, and the pairs of the reduction
of their folds. -/
theorem mem_pairs_reduce {rounds : ℕ} {trees : List (Tree α)} {tree : Tree α} {pair : α × α}
    (htree : tree ∈ reduce .node rounds trees) (hpair : pair ∈ tree.pairs combine) :
    (∃ earlier ∈ trees, pair ∈ earlier.pairs combine) ∨
      pair ∈ pairs combine rounds (trees.map (Tree.fold combine)) := by
  induction rounds generalizing trees with
  | zero => exact .inl ⟨tree, htree, hpair⟩
  | succ rounds ih =>
    rw [reduce] at htree
    rw [pairs, List.length_map]
    split at htree
    · rename_i hlong
      rw [if_pos hlong]
      rcases ih htree with ⟨earlier, hearlier, hmem⟩ | hlater
      · rw [level_eq_map] at hearlier
        obtain ⟨halves, hhalves, rfl⟩ := List.mem_map.mp hearlier
        obtain ⟨hfirst, hsecond⟩ := mem_of_mem_levelPairs hhalves
        rcases List.mem_cons.mp hmem with rfl | hbelow
        · right
          rw [levelPairs_map]
          exact List.mem_append_left _ (List.mem_map_of_mem hhalves)
        · rcases List.mem_append.mp hbelow with hleft | hright
          · exact .inl ⟨_, hfirst, hleft⟩
          · exact .inl ⟨_, hsecond, hright⟩
      · have hfold : (level Tree.node trees).map (Tree.fold combine) =
            level combine (trees.map (Tree.fold combine)) := map_level (fun _ _ => rfl) trees
        rw [hfold] at hlater
        exact .inr (List.mem_append_right _ hlater)
    · exact .inl ⟨tree, htree, hpair⟩

/-- What holds of the entries and of every combination holds of what a reduction leaves. -/
theorem forall_reduce {P : α → Prop} (hcombine : ∀ a b, P a → P b → P (combine a b)) {rounds : ℕ}
    {entries : List α} (h : ∀ entry ∈ entries, P entry) : ∀ entry ∈ reduce combine rounds entries, P entry := by
  induction rounds generalizing entries with
  | zero => exact h
  | succ rounds ih =>
    rw [reduce]
    split
    · exact ih (forall_level hcombine h)
    · exact h

/-- Nothing but entries is listed. -/
theorem mem_of_mem_completed {entries : List α} {entry : α} (h : entry ∈ completed entries) :
    entry ∈ entries := by
  obtain ⟨listed, hlisted, hmem⟩ := List.mem_flatten.mp h
  refine forall_reduce (P := fun listed => ∀ entry ∈ listed, entry ∈ entries) (fun a b ha hb => ?_) ?_
    listed hlisted entry hmem
  · exact fun entry hentry => (List.mem_append.mp hentry).elim (ha entry) (hb entry)
  · intro listed hlisted entry hentry
    obtain ⟨single, hsingle, rfl⟩ := List.mem_map.mp hlisted
    rwa [List.mem_singleton.mp hentry]

/-- Joining lists pair by pair keeps their concatenation in front. -/
theorem flatten_prefix_level (lists : List (List α)) :
    lists.flatten <+: (level (· ++ ·) lists).flatten := by
  induction lists using level.induct with
  | case1 left right rest ih =>
    rw [level, List.flatten_cons, List.flatten_cons, List.flatten_cons, ← List.append_assoc]
    exact (List.prefix_append_right_inj _).mpr ih
  | case2 last => exact ⟨last, by simp [level]⟩
  | case3 => exact List.prefix_rfl

/-- So does the reduction. -/
theorem flatten_prefix_reduce (rounds : ℕ) (lists : List (List α)) :
    lists.flatten <+: (reduce (· ++ ·) rounds lists).flatten := by
  induction rounds generalizing lists with
  | zero => exact List.prefix_rfl
  | succ rounds ih =>
    rw [reduce]
    split
    · exact (flatten_prefix_level lists).trans (ih _)
    · exact List.prefix_rfl

/-- The entries come first, in their order. -/
theorem prefix_completed (entries : List α) : entries <+: completed entries := by
  have h := flatten_prefix_reduce entries.length (entries.map fun entry => [entry])
  rwa [← List.flatMap_def, List.flatMap_singleton'] at h

/-- Lists of one length that are completed to the same are the same. -/
theorem eq_of_completed_of_length {entries entries' : List α}
    (h : completed entries = completed entries') (hlength : entries.length = entries'.length) :
    entries = entries' := by
  have hfront := prefix_completed entries
  rw [h] at hfront
  exact (List.prefix_of_prefix_length_le hfront (prefix_completed entries') (Nat.le_of_eq hlength)).eq_of_length
    hlength

/-- Lists without repetitions that are completed to the same are the same. -/
theorem eq_of_completed_of_nodup [DecidableEq α] {entries entries' : List α}
    (h : completed entries = completed entries') (hnodup : entries.Nodup) (hnodup' : entries'.Nodup) :
    entries = entries' := by
  have hperm : entries.Perm entries' := by
    rw [List.perm_ext_iff_of_nodup hnodup hnodup']
    intro entry
    constructor
    · intro hentry
      exact mem_of_mem_completed (h ▸ (prefix_completed entries).subset hentry)
    · intro hentry
      exact mem_of_mem_completed (h ▸ (prefix_completed entries').subset hentry)
  exact eq_of_completed_of_length h hperm.length_eq

/-- A reduction is the fold of a perfect tree over the completed entries. -/
theorem exists_tree {entries : List α} (hne : entries ≠ []) :
    ∃ (depth : ℕ) (tree : Tree α), tree.Perfect depth ∧ tree.leaves = completed entries ∧
      ∀ combine : α → α → α, reduce combine entries.length entries = [tree.fold combine] ∧
        ∀ pair ∈ tree.pairs combine, pair ∈ pairs combine entries.length entries := by
  have hlength : (reduce Tree.node entries.length (entries.map Tree.leaf)).length = 1 :=
    length_reduce (by simp) (by simpa using hne)
  obtain ⟨tree, htree⟩ := List.length_eq_one_iff.mp hlength
  have hleaf : ∀ tree ∈ entries.map Tree.leaf, tree.Perfect 0 := by
    intro tree htree
    obtain ⟨entry, -, rfl⟩ := List.mem_map.mp htree
    exact .leaf entry
  obtain ⟨depth, hperfect⟩ : ∃ depth, ∀ tree ∈ reduce .node entries.length (entries.map Tree.leaf),
      tree.Perfect depth := perfect_reduce hleaf
  have hmem : tree ∈ reduce Tree.node entries.length (entries.map Tree.leaf) := by simp [htree]
  refine ⟨depth, tree, hperfect tree hmem, ?_, fun combine => ⟨?_, fun pair hpair => ?_⟩⟩
  · have hleaves : (reduce Tree.node entries.length (entries.map Tree.leaf)).map Tree.leaves =
        reduce (· ++ ·) entries.length ((entries.map Tree.leaf).map Tree.leaves) :=
      map_reduce (fun _ _ => rfl) _ _
    rw [htree, List.map_map] at hleaves
    have hflat := congrArg List.flatten hleaves
    rwa [List.map_singleton, List.flatten_singleton] at hflat
  · have hfold : (reduce Tree.node entries.length (entries.map Tree.leaf)).map (Tree.fold combine) =
        reduce combine entries.length ((entries.map Tree.leaf).map (Tree.fold combine)) :=
      map_reduce (fun _ _ => rfl) _ _
    rw [htree, List.map_map, List.map_singleton] at hfold
    rw [hfold]
    congr 1
    exact (List.map_id entries).symm
  · rcases mem_pairs_reduce hmem hpair with ⟨earlier, hearlier, hbelow⟩ | hreduced
    · obtain ⟨entry, -, rfl⟩ := List.mem_map.mp hearlier
      cases hbelow
    · rw [List.map_map] at hreduced
      have hid : entries.map (Tree.fold combine ∘ Tree.leaf) = entries := List.map_id entries
      rwa [hid] at hreduced

/-- Two reductions leave the same exactly when the lists are completed to the same, if no two of the
combined pairs are combined to the same and no entry is a combination. -/
theorem reduce_eq_iff {entries entries' : List α} (hne : entries ≠ []) (hne' : entries' ≠ [])
    (hfree : ∀ pair ∈ pairs combine entries.length entries ++ pairs combine entries'.length entries',
      ∀ pair' ∈ pairs combine entries.length entries ++ pairs combine entries'.length entries',
        combine pair.1 pair.2 = combine pair'.1 pair'.2 → pair = pair')
    (hleaf : ∀ entry ∈ entries ++ entries',
      ∀ pair ∈ pairs combine entries.length entries ++ pairs combine entries'.length entries',
        entry ≠ combine pair.1 pair.2) :
    reduce combine entries.length entries = reduce combine entries'.length entries' ↔
      completed entries = completed entries' := by
  obtain ⟨depth, tree, hperfect, hleaves, htree⟩ := exists_tree hne
  obtain ⟨depth', tree', hperfect', hleaves', htree'⟩ := exists_tree hne'
  obtain ⟨hfold, hpairs⟩ := htree combine
  obtain ⟨hfold', hpairs'⟩ := htree' combine
  rw [hfold, hfold', List.singleton_inj, ← hleaves, ← hleaves']
  constructor
  · intro hroot
    rw [Tree.eq_of_fold hfree hleaf (fun pair h => List.mem_append_left _ (hpairs pair h))
      (fun pair h => List.mem_append_right _ (hpairs' pair h))
      (fun entry h => List.mem_append_left _ (mem_of_mem_completed (hleaves ▸ h)))
      (fun entry h => List.mem_append_right _ (mem_of_mem_completed (hleaves' ▸ h))) hroot]
  · intro hsame
    rw [hperfect.eq_of_leaves hperfect' hsame]

end PairwiseReduction
