import Nocostcoin.Trie.Sites
import Nocostcoin.Trie.Uniform

/-!
# What the trie holds after insertions of keys of one length

A key is crowded when two other keys that were inserted earlier differ from each other and agree with
it up to the last nibble. The insertion of a crowded key ends at the branch over those two and sets its
value; every other insertion sets the value under its key. So the trie holds, under every path, what
was written last to that place.
-/

namespace Nocostcoin

namespace MerklePatriciaTrie

/-- Two different keys among those written before agree with the key up to the last nibble. -/
def Crowded (before : List (Bytes × Bytes)) (key : Bytes) : Prop :=
  ∃ a ∈ before, ∃ b ∈ before, a.1 ≠ b.1 ∧
    (toNibbles a.1).dropLast = (toNibbles key).dropLast ∧
    (toNibbles b.1).dropLast = (toNibbles key).dropLast

instance (before : List (Bytes × Bytes)) (key : Bytes) : Decidable (Crowded before key) :=
  inferInstanceAs (Decidable (∃ a ∈ before, ∃ b ∈ before, _ ∧ _ ∧ _))

/-- The place that an insertion writes to: a crowded key loses its last nibble. -/
def place (before : List (Bytes × Bytes)) (key : Bytes) : Bytes :=
  if Crowded before key then (toNibbles key).dropLast else toNibbles key

/-- The writes of a sequence of insertions, each to its place. -/
def placedFrom (before : List (Bytes × Bytes)) : List (Bytes × Bytes) → List (Bytes × Bytes)
  | [] => []
  | (key, value) :: rest => (place before key, value) :: placedFrom (before ++ [(key, value)]) rest

/-- The writes of a sequence of insertions into the empty trie. -/
def placed (entries : List (Bytes × Bytes)) : List (Bytes × Bytes) := placedFrom [] entries

section Lists

variable (before entries : List (Bytes × Bytes)) (key value : Bytes)

theorem placedFrom_append : placedFrom before (entries ++ [(key, value)]) =
    placedFrom before entries ++ [(place (before ++ entries) key, value)] := by
  induction entries generalizing before with
  | nil =>
    rw [List.append_nil]
    rfl
  | cons entry rest ih =>
    rw [List.cons_append, placedFrom, placedFrom, ih, List.append_assoc]
    rfl

/-- One insertion more writes to its place. -/
theorem placed_append : placed (entries ++ [(key, value)]) =
    placed entries ++ [(place entries key, value)] := placedFrom_append [] entries key value

end Lists

/-- The tree after insertions of keys with a number of nibbles: empty or uniform, it holds what was
written last to each place, and a key that was inserted is held or lies under a branch. -/
structure Grown (n : ℕ) (entries : List (Bytes × Bytes)) (tree : Tree) : Prop where
  result : treeOf entries = some tree
  uniform : (entries = [] ∧ tree = .empty) ∨ RadixTree.Uniform n tree
  get : ∀ q, tree.get q = lastWrite (placed entries) q
  entered : ∀ path : Bytes, path.length = n → tree.get path ≠ none →
    ∃ entry ∈ entries, toNibbles entry.1 = path
  held : ∀ entry ∈ entries, tree.get (toNibbles entry.1) ≠ none ∨
    tree.branchAt (toNibbles entry.1).dropLast = true

variable {n : ℕ} {entries : List (Bytes × Bytes)} {key : Bytes}

/-- A path is its last digit after the others. -/
theorem exists_dropLast_append {path : Bytes} (h : path ≠ []) : ∃ digit, path.dropLast ++ [digit] = path :=
  ⟨path.getLast h, List.dropLast_append_getLast h⟩

/-- Among keys of one length two part one nibble above the end of a key exactly when it is crowded. -/
theorem branches_iff_crowded (hlength : ∀ entry ∈ entries, (toNibbles entry.1).length = n)
    (hkey : (toNibbles key).length = n) : Branches entries (toNibbles key).dropLast ↔ Crowded entries key := by
  rw [branches_iff]
  constructor
  · intro hparted
    obtain ⟨a, ha, b, hb, x, y, hne, hax, hby⟩ := hparted
    have hwhole : ∀ entry ∈ entries, ∀ digit, (toNibbles key).dropLast ++ [digit] <+: toNibbles entry.1 →
        (toNibbles key).dropLast ++ [digit] = toNibbles entry.1 := by
      intro entry hentry digit hon
      apply hon.eq_of_length_le
      rw [hlength entry hentry, List.length_append, List.length_dropLast, List.length_singleton, hkey]
      omega
    have hsame := hwhole a ha x hax
    have hsame' := hwhole b hb y hby
    refine ⟨a, ha, b, hb, fun heq => hne ?_, ?_, ?_⟩
    · rw [heq, ← hsame'] at hsame
      exact List.singleton_inj.mp (List.append_cancel_left hsame)
    · rw [← hsame, List.dropLast_concat]
    · rw [← hsame', List.dropLast_concat]
  · intro hcrowded
    obtain ⟨a, ha, b, hb, hne, hapath, hbpath⟩ := hcrowded
    have hpositive : n ≠ 0 := by
      intro hzero
      subst hzero
      have hboth := (List.length_eq_zero_iff.mp (hlength a ha)).trans
        (List.length_eq_zero_iff.mp (hlength b hb)).symm
      exact hne (toNibbles_injective hboth)
    have hends : ∀ entry ∈ entries, ∃ digit, (toNibbles entry.1).dropLast ++ [digit] = toNibbles entry.1 := by
      intro entry hentry
      apply exists_dropLast_append
      rw [← List.length_pos_iff, hlength entry hentry]
      omega
    obtain ⟨x, hx⟩ := hends a ha
    obtain ⟨y, hy⟩ := hends b hb
    rw [hapath] at hx
    rw [hbpath] at hy
    refine ⟨a, ha, b, hb, x, y, fun heq => hne ?_, ?_, ?_⟩
    · rw [heq, hy] at hx
      exact (toNibbles_injective hx).symm
    · rw [hx]
    · rw [hy]

/-- Among keys of one length an insertion writes to its place. -/
theorem site_eq_place (hlength : ∀ entry ∈ entries, (toNibbles entry.1).length = n)
    (hkey : (toNibbles key).length = n) : site entries key = place entries key := by
  rw [site, place]
  simp only [branches_iff_crowded hlength hkey]

/-- So do all insertions of a sequence. -/
theorem sited_eq_placed (hlength : ∀ entry ∈ entries, (toNibbles entry.1).length = n) :
    sited entries = placed entries := by
  induction entries using List.reverseRecOn with
  | nil => rfl
  | append_singleton before entry ih =>
    obtain ⟨key, value⟩ := entry
    have hbefore : ∀ entry ∈ before, (toNibbles entry.1).length = n :=
      fun entry hentry => hlength entry (List.mem_append_left _ hentry)
    have hkey := hlength (key, value) (List.mem_append_right _ (List.mem_singleton_self _))
    rw [sited_append, placed_append, ih hbefore, site_eq_place hbefore hkey]

/-- Keys of one length are prefix-free. -/
theorem prefixFree_of_length (hlength : ∀ entry ∈ entries, entry.1.length = n) : PrefixFree entries := by
  intro a ha b hb hle
  apply hle.eq_of_length
  rw [hlength a ha, hlength b hb]

/-- The empty tree is what no insertion leaves. -/
theorem grown_nil (n : ℕ) : Grown n [] .empty where
  result := rfl
  uniform := .inl ⟨rfl, rfl⟩
  get _ := rfl
  entered _ _ h := absurd rfl h
  held _ h := absurd h List.not_mem_nil

/-- A place as long as the key is that of the key. -/
theorem eq_place_of_length {before : List (Bytes × Bytes)}
    (h : (place before key).length = (toNibbles key).length) : toNibbles key = place before key := by
  unfold place at h ⊢
  split at h
  · rename_i hcrowded
    rw [List.length_dropLast] at h
    have hempty : toNibbles key = [] := List.length_eq_zero_iff.mp (by omega)
    rw [if_pos hcrowded, hempty]
    rfl
  · rename_i hfree
    rw [if_neg hfree]

/-- A grown tree stands for its insertions. -/
theorem Grown.standing {tree : Tree} (h : Grown n entries tree)
    (hlength : ∀ entry ∈ entries, (toNibbles entry.1).length = n) : Standing entries tree where
  result := h.result
  forked := h.uniform.imp id RadixTree.Uniform.forked
  get q := by rw [sited_eq_placed hlength, h.get]
  held := h.held

/-- One insertion more. -/
theorem Grown.insert {tree : Tree} (h : Grown n entries tree)
    (hlength : ∀ entry ∈ entries, (toNibbles entry.1).length = n) (hkey : (toNibbles key).length = n)
    (value : Bytes) : ∃ tree', insertTree tree (toNibbles key) value = some tree' ∧
      Grown n (entries ++ [(key, value)]) tree' := by
  have hall : ∀ entry ∈ entries ++ [(key, value)], (toNibbles entry.1).length = n := by
    intro entry hentry
    cases List.mem_append.mp hentry with
    | inl hold => exact hlength entry hold
    | inr hnew => rw [List.mem_singleton.mp hnew, hkey]
  have hfree : PrefixFree (entries ++ [(key, value)]) := by
    apply prefixFree_of_length (n := n / 2)
    intro entry hentry
    have hdouble := hall entry hentry
    rw [length_toNibbles] at hdouble
    omega
  have hsets : ∃ tree', Sets n tree (toNibbles key) value tree' := by
    cases h.uniform with
    | inl hempty =>
      rw [hempty.2, ← hkey]
      exact ⟨_, sets_empty _ value⟩
    | inr huniform => exact sets_uniform huniform hkey value
  obtain ⟨tree', hresult, huniform, -⟩ := hsets
  obtain ⟨stood, hstood, hstanding⟩ := (h.standing hlength).insert hfree
  rw [hresult] at hstood
  obtain rfl := Option.some.inj hstood
  refine ⟨tree', hresult, hstanding.result, .inr huniform, ?_, ?_, hstanding.held⟩
  · intro q
    rw [hstanding.get, sited_eq_placed hall]
  · intro path hpath hsome
    rw [hstanding.get] at hsome
    obtain ⟨before, other, bytes, after, hsplit, hsite⟩ := exists_site hsome
    have hother : (other, bytes) ∈ entries ++ [(key, value)] := by
      rw [hsplit]
      exact List.mem_append_right _ List.mem_cons_self
    refine ⟨(other, bytes), hother, ?_⟩
    have hle := prefix_of_site before other
    rw [← hsite] at hle
    apply Eq.symm
    apply hle.eq_of_length
    rw [hpath, hall _ hother]

/-- Keys of one length have one number of nibbles. -/
theorem length_toNibbles_of_mem (h : ∀ entry ∈ entries, entry.1.length = n) :
    ∀ entry ∈ entries, (toNibbles entry.1).length = 2 * n := by
  intro entry hentry
  rw [length_toNibbles, h entry hentry]

/-- Insertions of keys of one length complete; the trie holds the tree after them. -/
theorem insertAll_grown {crypto : Crypto} {known : List Node} (hfree : CollisionFree crypto known)
    (hlength : ∀ entry ∈ entries, entry.1.length = n)
    (hknown : ∀ node ∈ nodesOfRun crypto entries, node ∈ known) :
    ∃ trie tree, insertAll crypto new entries = some trie ∧ Holds crypto known trie tree ∧
      Grown (2 * n) entries tree := by
  have htree : ∃ tree, Grown (2 * n) entries tree := by
    clear hknown
    induction entries using List.reverseRecOn with
    | nil => exact ⟨.empty, grown_nil _⟩
    | append_singleton before entry ih =>
      obtain ⟨key, value⟩ := entry
      have hbefore : ∀ entry ∈ before, entry.1.length = n :=
        fun entry hentry => hlength entry (List.mem_append_left _ hentry)
      have hkey : (toNibbles key).length = 2 * n :=
        length_toNibbles_of_mem hlength (key, value) (List.mem_append_right _ (List.mem_singleton_self _))
      obtain ⟨tree, hgrown⟩ := ih hbefore
      obtain ⟨tree', -, hgrown'⟩ := hgrown.insert (length_toNibbles_of_mem hbefore) hkey value
      exact ⟨tree', hgrown'⟩
  obtain ⟨trie, tree, hall, hholds, hstanding⟩ :=
    insertAll_standing hfree (prefixFree_of_length hlength) hknown
  obtain ⟨grown, hgrown⟩ := htree
  have hsame := hgrown.result.symm.trans hstanding.result
  obtain rfl := Option.some.inj hsame
  exact ⟨trie, grown, hall, hholds, hgrown⟩

end MerklePatriciaTrie

end Nocostcoin
