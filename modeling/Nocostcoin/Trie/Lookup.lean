import Nocostcoin.Trie.History

/-!
# When the trie is a map

For keys of one length the trie is a map as long as no insertion changes the value of a crowded key. The
value of such an insertion goes to the branch above the key, so the key keeps the value it had, or has
none.
-/

namespace Nocostcoin

namespace MerklePatriciaTrie

variable {crypto : Crypto} {n : ℕ} {entries : List (Bytes × Bytes)}

/-- The insertion of a key after others completes, the key has its value, and every other key of the
length has what it had: the last value inserted under it. -/
def UpdatesMap (crypto : Crypto) (n : ℕ) (before : List (Bytes × Bytes)) (key value : Bytes) : Prop :=
  ∃ trie trie', insertAll crypto new before = some trie ∧ trie.insert crypto key value = some trie' ∧
    trie'.get key = some (some value) ∧
    ∀ other, other.length = n → other ≠ key →
      trie'.get other = trie.get other ∧ trie.get other = some (lastWrite before other)

/-- Every key of the length is held with its last value. -/
def Faithful (n : ℕ) (entries : List (Bytes × Bytes)) : Prop :=
  ∀ key : Bytes, key.length = n → lastWrite (placed entries) (toNibbles key) = lastWrite entries key

/-- A crowded key is not its place. -/
theorem Crowded.ne_place {before : List (Bytes × Bytes)} {key : Bytes} (h : Crowded before key)
    (hlength : ∀ entry ∈ before, entry.1.length = n) (hkey : key.length = n) :
    toNibbles key ≠ place before key := by
  rw [place, if_pos h]
  intro heq
  have hshort := congrArg List.length heq
  rw [List.length_dropLast, length_toNibbles, hkey] at hshort
  have hzero : n = 0 := by omega
  obtain ⟨a, ha, b, hb, hne, -⟩ := h
  have hboth : a.1 = b.1 := by
    rw [List.length_eq_zero_iff.mp ((hlength a ha).trans hzero),
      List.length_eq_zero_iff.mp ((hlength b hb).trans hzero)]
  exact hne hboth

/-- A place is the path of no other key of the length. -/
theorem ne_place_of_ne {before : List (Bytes × Bytes)} {key other : Bytes} (hkey : key.length = n)
    (hother : other.length = n) (hne : other ≠ key) : toNibbles other ≠ place before key := by
  intro heq
  have hlength : (place before key).length = (toNibbles key).length := by
    rw [← heq, length_toNibbles, length_toNibbles, hother, hkey]
  rw [← eq_place_of_length hlength] at heq
  exact hne (toNibbles_injective heq)

/-- What a key has after one insertion more. -/
theorem lastWrite_placed_append {before : List (Bytes × Bytes)} {key other : Bytes}
    (hlength : ∀ entry ∈ before, entry.1.length = n) (hkey : key.length = n)
    (hother : other.length = n) (value : Bytes) :
    lastWrite (placed (before ++ [(key, value)])) (toNibbles other) =
      if other = key ∧ ¬ Crowded before key then some value
      else lastWrite (placed before) (toNibbles other) := by
  rw [placed_append, lastWrite_append]
  by_cases heq : other = key
  · subst heq
    by_cases hcrowded : Crowded before other
    · rw [if_neg (hcrowded.ne_place hlength hother), if_neg fun h => h.2 hcrowded]
    · rw [place, if_neg hcrowded, if_pos rfl, if_pos ⟨rfl, hcrowded⟩]
  · rw [if_neg (ne_place_of_ne hkey hother heq), if_neg fun h => heq h.1]

/-- One insertion more keeps the last values, unless it changes that of a crowded key. -/
theorem Faithful.append {before : List (Bytes × Bytes)} (h : Faithful n before) {key value : Bytes}
    (hlength : ∀ entry ∈ before, entry.1.length = n) (hkey : key.length = n)
    (hsame : Crowded before key → lastWrite before key = some value) :
    Faithful n (before ++ [(key, value)]) := by
  intro other hother
  rw [lastWrite_placed_append hlength hkey hother, lastWrite_append]
  by_cases heq : other = key
  · subst heq
    rw [if_pos rfl]
    by_cases hcrowded : Crowded before other
    · rw [if_neg fun hboth => hboth.2 hcrowded, h other hother, hsame hcrowded]
    · rw [if_pos ⟨rfl, hcrowded⟩]
  · rw [if_neg fun hboth => heq hboth.1, if_neg heq, h other hother]

/-- Lookups after a sequence of insertions. -/
theorem get_after {known : List Node} (hfree : CollisionFree crypto known)
    (hlength : ∀ entry ∈ entries, entry.1.length = n)
    (hknown : ∀ node ∈ nodesOfRun crypto entries, node ∈ known) :
    ∃ trie, insertAll crypto new entries = some trie ∧
      ∀ key, trie.get key = some (lastWrite (placed entries) (toNibbles key)) := by
  obtain ⟨trie, tree, hall, hholds, hgrown⟩ := insertAll_grown hfree hlength hknown
  exact ⟨trie, hall, fun key => by rw [hholds.get, hgrown.get]⟩

/-- An insertion updates the map in terms of the writes to places. -/
theorem updatesMap_iff {before : List (Bytes × Bytes)} {key value : Bytes}
    (hlength : ∀ entry ∈ before ++ [(key, value)], entry.1.length = n)
    (hfree : CollisionFree crypto (nodesOfRun crypto (before ++ [(key, value)]))) :
    UpdatesMap crypto n before key value ↔
      lastWrite (placed (before ++ [(key, value)])) (toNibbles key) = some value ∧
        ∀ other : Bytes, other.length = n → other ≠ key →
          lastWrite (placed before) (toNibbles other) = lastWrite before other := by
  have hbefore : ∀ entry ∈ before, entry.1.length = n :=
    fun entry hentry => hlength entry (List.mem_append_left _ hentry)
  have hkey : key.length = n := hlength (key, value) (List.mem_append_right _ (List.mem_singleton_self _))
  obtain ⟨trie, hall, hget⟩ := get_after hfree hbefore (nodesOfRun_append before _)
  obtain ⟨trie', hall', hget'⟩ := get_after hfree hlength fun _ hnode => hnode
  have hinsert : trie.insert crypto key value = some trie' := by
    rwa [insertAll_append, hall, Option.bind_some] at hall'
  constructor
  · rintro ⟨reached, reached', hreached, hreached', hown, hothers⟩
    rw [hall] at hreached
    obtain rfl := Option.some.inj hreached
    rw [hinsert] at hreached'
    obtain rfl := Option.some.inj hreached'
    rw [hget', Option.some_inj] at hown
    refine ⟨hown, fun other hother hne => ?_⟩
    have hlast := (hothers other hother hne).2
    rwa [hget, Option.some_inj] at hlast
  · rintro ⟨hown, hothers⟩
    refine ⟨trie, trie', hall, hinsert, by rw [hget', hown], fun other hother hne => ⟨?_, ?_⟩⟩
    · rw [hget, hget', lastWrite_placed_append hbefore hkey hother, if_neg fun h => hne h.1]
    · rw [hget, hothers other hother hne]

/-- Fewer nodes have no collisions either. -/
theorem CollisionFree.mono {known known' : List Node} (h : CollisionFree crypto known')
    (hsub : ∀ node ∈ known, node ∈ known') : CollisionFree crypto known :=
  fun a ha b hb hhash => h a (hsub a ha) b (hsub b hb) hhash

/-- After an insertion that updates the map every key has its last value. -/
theorem faithful_of_updatesMap {before : List (Bytes × Bytes)} {key value : Bytes}
    (hlength : ∀ entry ∈ before ++ [(key, value)], entry.1.length = n)
    (hfree : CollisionFree crypto (nodesOfRun crypto (before ++ [(key, value)])))
    (h : UpdatesMap crypto n before key value) : Faithful n (before ++ [(key, value)]) := by
  obtain ⟨hown, hothers⟩ := (updatesMap_iff hlength hfree).mp h
  have hkey : key.length = n := hlength (key, value) (List.mem_append_right _ (List.mem_singleton_self _))
  intro other hother
  rw [lastWrite_append]
  by_cases heq : other = key
  · rw [if_pos heq, heq, hown]
  · rw [if_neg heq, lastWrite_placed_append
      (fun entry hentry => hlength entry (List.mem_append_left _ hentry)) hkey hother,
      if_neg fun hboth => heq hboth.1, hothers other hother heq]

/-- Along any sequence of insertions of keys of one length, without collisions of the nodes that occur,
the trie is a map throughout exactly when no insertion gives a crowded key another value than its
last. -/
theorem updatesMap_throughout_iff (crypto : Crypto) {n : ℕ} {entries : List (Bytes × Bytes)}
    (hlength : ∀ entry ∈ entries, entry.1.length = n)
    (hfree : CollisionFree crypto (nodesOfRun crypto entries)) :
    (∀ before key value after, entries = before ++ (key, value) :: after →
        UpdatesMap crypto n before key value) ↔
      ∀ before key value after, entries = before ++ (key, value) :: after →
        Crowded before key → lastWrite before key = some value := by
  have hlengthAt : ∀ before key value after, entries = before ++ (key, value) :: after →
      ∀ entry ∈ before ++ [(key, value)], entry.1.length = n := by
    rintro before key value after rfl entry hentry
    rw [List.append_cons] at hlength
    exact hlength entry (List.mem_append_left after hentry)
  have hfreeAt : ∀ before key value after, entries = before ++ (key, value) :: after →
      CollisionFree crypto (nodesOfRun crypto (before ++ [(key, value)])) := by
    rintro before key value after rfl
    rw [List.append_cons] at hfree
    exact hfree.mono (nodesOfRun_append _ after)
  constructor
  · intro hmap before key value after hsplit hcrowded
    have hall := hlengthAt before key value after hsplit
    have hfaithful : Faithful n before := by
      rcases List.eq_nil_or_concat before with rfl | ⟨earlier, ⟨key', value'⟩, rfl⟩
      · exact fun _ _ => rfl
      · rw [List.concat_eq_append] at hsplit ⊢
        rw [List.append_assoc] at hsplit
        exact faithful_of_updatesMap (hlengthAt _ _ _ _ hsplit) (hfreeAt _ _ _ _ hsplit)
          (hmap _ _ _ _ hsplit)
    have hkey : key.length = n := hall (key, value) (List.mem_append_right _ (List.mem_singleton_self _))
    obtain ⟨hown, -⟩ := (updatesMap_iff hall (hfreeAt _ _ _ _ hsplit)).mp (hmap _ _ _ _ hsplit)
    rwa [lastWrite_placed_append (fun entry hentry => hall entry (List.mem_append_left _ hentry)) hkey
      hkey, if_neg fun hboth => hboth.2 hcrowded, hfaithful key hkey] at hown
  · intro hsame
    have hfaithful : ∀ before after, entries = before ++ after → Faithful n before := by
      intro before
      induction before using List.reverseRecOn with
      | nil => exact fun _ _ _ _ => rfl
      | append_singleton before entry ih =>
        obtain ⟨key, value⟩ := entry
        intro after hsplit
        rw [List.append_assoc] at hsplit
        have hall := hlengthAt before key value after hsplit
        exact (ih _ hsplit).append (fun entry hentry => hall entry (List.mem_append_left _ hentry))
          (hall (key, value) (List.mem_append_right _ (List.mem_singleton_self _)))
          (hsame before key value after hsplit)
    intro before key value after hsplit
    have hall := hlengthAt before key value after hsplit
    have hkey : key.length = n := hall (key, value) (List.mem_append_right _ (List.mem_singleton_self _))
    refine (updatesMap_iff hall (hfreeAt _ _ _ _ hsplit)).mpr ⟨?_, fun other hother _ => ?_⟩
    · have hafter := hfaithful (before ++ [(key, value)]) after (by rw [hsplit, List.append_cons])
      rw [hafter key hkey, lastWrite_append, if_pos rfl]
    · exact hfaithful before _ hsplit other hother

/-- Three addresses that differ in the last nibble. -/
def siblingEntries : List (Bytes × Bytes) := [([0x10], [1]), ([0x11], [2]), ([0x12], [3])]

/-- The second of them updates the map. -/
theorem updatesMap_of_two_siblings :
    UpdatesMap Crypto.plain 1 (siblingEntries.take 1) [0x11] [2] := by
  refine (updatesMap_throughout_iff Crypto.plain (by decide : ∀ entry ∈ siblingEntries.take 2, _)
    (by decide +kernel)).mpr ?_ (siblingEntries.take 1) [0x11] [2] [] rfl
  rintro before key value after hsplit ⟨a, ha, b, hb, hne, -⟩
  have hlength := congrArg List.length hsplit
  rw [List.length_append, List.length_cons] at hlength
  have hshort : before.length ≤ 1 := by
    have htwo : (siblingEntries.take 2).length = 2 := rfl
    omega
  obtain ⟨i, hi, rfl⟩ := List.getElem_of_mem ha
  obtain ⟨j, hj, rfl⟩ := List.getElem_of_mem hb
  obtain rfl : i = j := by omega
  exact absurd rfl hne

/-- The third is not found after its insertion. -/
theorem third_sibling_lost :
    CollisionFree Crypto.plain (nodesOfRun Crypto.plain siblingEntries) ∧
      ¬ UpdatesMap Crypto.plain 1 (siblingEntries.take 2) [0x12] [3] := by
  refine ⟨by decide +kernel, ?_⟩
  rintro ⟨trie, trie', hall, hinsert, hget, -⟩
  have hlost : ((insertAll Crypto.plain new siblingEntries).bind fun trie => trie.get [0x12]) =
      some none := by decide +kernel
  have hsplit : siblingEntries = siblingEntries.take 2 ++ [([0x12], [3])] := rfl
  rw [hsplit, insertAll_append, hall, Option.bind_some, hinsert, Option.bind_some, hget] at hlost
  cases hlost

end MerklePatriciaTrie

end Nocostcoin
