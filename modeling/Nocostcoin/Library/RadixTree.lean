import Mathlib.Data.List.Basic
import Mathlib.Logic.Function.Basic
import Mathlib.Tactic.Common

/-!
# Radix trees

Trees over paths of digits with leaves, branches and extensions that skip a shared path. A tree is
canonical when every branch holds at least two places and every extension skips a path to a branch;
canonical trees that hold the same values under the same paths are equal. In a forked tree every branch
has two children; in a uniform tree all keys have one length.
-/

/-- Radix trees over digits `δ` with values `ν`. -/
inductive RadixTree (δ ν : Type) where
  | empty
  | leaf (key : List δ) (value : ν)
  | branch (children : δ → RadixTree δ ν) (value : Option ν)
  | extension (shared : List δ) (child : RadixTree δ ν)

namespace RadixTree

variable {δ ν : Type}

section Paths

/-- Two paths with nothing in common. -/
def Diverge (p q : List δ) : Prop := p ≠ q ∧ ∀ digit, ¬ ([digit] <+: p ∧ [digit] <+: q)

/-- Paths with different first digits have nothing in common. -/
theorem diverge_cons {x y : δ} (hxy : x ≠ y) (p q : List δ) : Diverge (x :: p) (y :: q) := by
  refine ⟨fun h => hxy (List.cons.inj h).1, fun digit ⟨hp, hq⟩ => ?_⟩
  rw [List.cons_prefix_cons] at hp hq
  exact hxy (hp.1.symm.trans hq.1)

/-- The empty path has nothing in common with another. -/
theorem diverge_nil (x : δ) (p : List δ) : Diverge [] (x :: p) := by
  refine ⟨List.cons_ne_nil _ _ ∘ Eq.symm, fun digit ⟨hnil, _⟩ => ?_⟩
  exact absurd (List.prefix_nil.mp hnil) (List.cons_ne_nil _ _)

/-- A common prefix of two paths that part after `shared` is a prefix of `shared`. -/
theorem Diverge.prefix_of_append {p q shared common : List δ} (h : Diverge p q)
    (hp : common <+: shared ++ p) (hq : common <+: shared ++ q) : common <+: shared := by
  rcases List.prefix_or_prefix_of_prefix hp (List.prefix_append shared p) with hle | hge
  · exact hle
  · obtain ⟨rest, rfl⟩ := hge
    rw [List.prefix_append_right_inj] at hp hq
    cases rest with
    | nil => exact ⟨[], by rw [List.append_nil, List.append_nil]⟩
    | cons digit rest =>
      have hfirst : [digit] <+: digit :: rest := List.cons_prefix_cons.mpr ⟨rfl, List.nil_prefix⟩
      exact absurd ⟨hfirst.trans hp, hfirst.trans hq⟩ (h.2 digit)

variable [DecidableEq δ]

/-- Where two paths part: what they share, and the digit and the rest of each. -/
def part : List δ → List δ → Option (List δ × (δ × List δ) × (δ × List δ))
  | x :: p, y :: q =>
    if x = y then (part p q).map fun parted => (x :: parted.1, parted.2)
    else some ([], (x, p), (y, q))
  | _, _ => none

/-- The parts make up the two paths. -/
theorem of_part {p q shared restP restQ : List δ} {x y : δ}
    (h : part p q = some (shared, (x, restP), (y, restQ))) :
    x ≠ y ∧ p = shared ++ x :: restP ∧ q = shared ++ y :: restQ := by
  induction p generalizing q shared with
  | nil => exact absurd h (by simp [part])
  | cons z p ih =>
    cases q with
    | nil => exact absurd h (by simp [part])
    | cons z' q =>
      rw [part] at h
      by_cases heq : z = z'
      · rw [if_pos heq] at h
        obtain ⟨⟨shared', parts⟩, hparted, hall⟩ := Option.map_eq_some_iff.mp h
        obtain ⟨rfl, rfl⟩ := Prod.mk.inj hall
        obtain ⟨hne, rfl, rfl⟩ := ih hparted
        exact ⟨hne, rfl, by rw [heq]; rfl⟩
      · rw [if_neg heq] at h
        obtain ⟨rfl, hparts⟩ := Prod.mk.inj (Option.some.inj h)
        obtain ⟨hp, hq⟩ := Prod.mk.inj hparts
        obtain ⟨rfl, rfl⟩ := Prod.mk.inj hp
        obtain ⟨rfl, rfl⟩ := Prod.mk.inj hq
        exact ⟨heq, rfl, rfl⟩

/-- Paths that part are prefixes of neither. -/
theorem part_isSome {p q : List δ} (hpq : ¬ p <+: q) (hqp : ¬ q <+: p) :
    ∃ shared x restP y restQ, part p q = some (shared, (x, restP), (y, restQ)) := by
  induction p generalizing q with
  | nil => exact absurd List.nil_prefix hpq
  | cons x p ih =>
    cases q with
    | nil => exact absurd List.nil_prefix hqp
    | cons y q =>
      rw [part]
      by_cases heq : x = y
      · rw [List.cons_prefix_cons, not_and] at hpq hqp
        obtain ⟨shared, x', restP, y', restQ, hparted⟩ := ih (hpq heq) (hqp heq.symm)
        rw [if_pos heq, hparted]
        exact ⟨_, _, _, _, _, rfl⟩
      · rw [if_neg heq]
        exact ⟨_, _, _, _, _, rfl⟩

end Paths

variable [DecidableEq δ]

/-- What a tree holds under a path. -/
def get : RadixTree δ ν → List δ → Option ν
  | empty, _ => none
  | leaf key value, path => if key = path then some value else none
  | branch _ value, [] => value
  | branch children _, digit :: rest => (children digit).get rest
  | extension shared child, path =>
    if shared <+: path then child.get (path.drop shared.length) else none

@[simp] theorem get_empty (path : List δ) : (empty : RadixTree δ ν).get path = none := rfl

@[simp] theorem get_branch_cons (children : δ → RadixTree δ ν) (value : Option ν) (digit : δ)
    (rest : List δ) : (branch children value).get (digit :: rest) = (children digit).get rest := rfl

theorem get_leaf (key : List δ) (value : ν) (path : List δ) :
    (leaf key value).get path = if key = path then some value else none := rfl

/-- A path that goes through an extension. -/
@[simp] theorem get_extension_append (shared : List δ) (child : RadixTree δ ν) (rest : List δ) :
    (extension shared child).get (shared ++ rest) = child.get rest := by
  rw [get, if_pos (List.prefix_append shared rest), List.drop_left]

/-- A path that leaves an extension. -/
theorem get_extension_off {shared path : List δ} (child : RadixTree δ ν)
    (h : ¬ shared <+: path) : (extension shared child).get path = none := if_neg h

/-- An extension holds nothing off its path. -/
theorem prefix_of_get_extension {shared path : List δ} {child : RadixTree δ ν}
    (h : (extension shared child).get path ≠ none) : shared <+: path := by
  by_contra hnot
  exact h (get_extension_off child hnot)

/-- Canonical trees: a branch has two places that hold something, an extension skips to a branch. -/
inductive Canonical : RadixTree δ ν → Prop
  | leaf (key : List δ) (value : ν) : Canonical (.leaf key value)
  | branch {children : δ → RadixTree δ ν} {value : Option ν} {x : δ} (hx : children x ≠ empty)
      (hother : value ≠ none ∨ ∃ y, y ≠ x ∧ children y ≠ empty)
      (hchildren : ∀ digit, children digit ≠ empty → Canonical (children digit)) :
      Canonical (.branch children value)
  | extension {shared : List δ} {children : δ → RadixTree δ ν} {value : Option ν}
      (hshared : shared ≠ []) (hchild : Canonical (.branch children value)) :
      Canonical (.extension shared (.branch children value))

/-- A canonical tree holds something. -/
theorem Canonical.holds {t : RadixTree δ ν} (h : Canonical t) : ∃ path, t.get path ≠ none := by
  induction h with
  | leaf key value => exact ⟨key, by simp [get_leaf]⟩
  | @branch children value x hx _ _ ih =>
    obtain ⟨path, hpath⟩ := ih x hx
    exact ⟨x :: path, hpath⟩
  | @extension shared children value hshared hchild ih =>
    obtain ⟨path, hpath⟩ := ih
    exact ⟨shared ++ path, by rwa [get_extension_append]⟩

/-- A canonical branch holds two paths with nothing in common. -/
theorem Canonical.parts {children : δ → RadixTree δ ν} {value : Option ν}
    (h : Canonical (.branch children value)) :
    ∃ p q, Diverge p q ∧ (RadixTree.branch children value).get p ≠ none ∧
      (RadixTree.branch children value).get q ≠ none := by
  cases h with
  | @branch _ _ x hx hother hchildren =>
    obtain ⟨p, hp⟩ := (hchildren x hx).holds
    rcases hother with hvalue | ⟨y, hne, hy⟩
    · exact ⟨[], x :: p, diverge_nil x p, hvalue, hp⟩
    · obtain ⟨q, hq⟩ := (hchildren y hy).holds
      exact ⟨x :: p, y :: q, diverge_cons hne.symm p q, hp, hq⟩

/-- A leaf holds one path alone. -/
theorem eq_of_get_leaf {key path : List δ} {value : ν} (h : (leaf key value).get path ≠ none) :
    path = key := by
  by_contra hne
  rw [get_leaf, if_neg (Ne.symm hne)] at h
  exact h rfl

/-- A leaf does not hold the same as a tree that holds two paths. -/
theorem get_leaf_ne_of_parts {t : RadixTree δ ν} {key p q : List δ} {value : ν} (hne : p ≠ q)
    (hp : t.get p ≠ none) (hq : t.get q ≠ none) :
    ¬ ∀ path, (leaf key value).get path = t.get path := by
  intro hsame
  rw [← hsame] at hp hq
  exact hne ((eq_of_get_leaf hp).trans (eq_of_get_leaf hq).symm)

/-- A canonical extension holds two paths that part after the one it skips. -/
theorem Canonical.parts_of_extension (shared : List δ) {children : δ → RadixTree δ ν}
    {value : Option ν} (h : Canonical (.branch children value)) : ∃ p q, Diverge p q ∧
      (RadixTree.extension shared (.branch children value)).get (shared ++ p) ≠ none ∧
      (RadixTree.extension shared (.branch children value)).get (shared ++ q) ≠ none := by
  obtain ⟨p, q, hdiverge, hp, hq⟩ := h.parts
  refine ⟨p, q, hdiverge, ?_, ?_⟩
  · rwa [get_extension_append]
  · rwa [get_extension_append]

/-- The path that a canonical extension skips is a prefix of that of another extension that holds the
same. -/
theorem prefix_of_same {shared shared' : List δ} {children : δ → RadixTree δ ν} {value : Option ν}
    {child' : RadixTree δ ν} (h : Canonical (.branch children value))
    (hsame : ∀ path, (extension shared (branch children value)).get path =
      (extension shared' child').get path) : shared' <+: shared := by
  obtain ⟨p, q, hdiverge, hp, hq⟩ := h.parts_of_extension shared
  rw [hsame] at hp hq
  exact hdiverge.prefix_of_append (prefix_of_get_extension hp) (prefix_of_get_extension hq)

/-- A canonical branch does not hold the same as an extension. -/
theorem get_branch_ne_extension {shared : List δ} {children : δ → RadixTree δ ν} {value : Option ν}
    {child : RadixTree δ ν} (hshared : shared ≠ []) (h : Canonical (.branch children value)) :
    ¬ ∀ path, (branch children value).get path = (extension shared child).get path := by
  intro hsame
  obtain ⟨p, q, hdiverge, hp, hq⟩ := h.parts
  rw [hsame] at hp hq
  have hnil : shared <+: [] := hdiverge.prefix_of_append (prefix_of_get_extension hp)
    (prefix_of_get_extension hq)
  exact hshared (List.prefix_nil.mp hnil)

/-- Canonical trees that hold the same are equal. -/
theorem Canonical.eq_of_get {t t' : RadixTree δ ν} (h : Canonical t) (h' : Canonical t')
    (hsame : ∀ path, t.get path = t'.get path) : t = t' := by
  induction h generalizing t' with
  | leaf key value =>
    cases h' with
    | leaf key' value' =>
      have hkey := hsame key
      rw [get_leaf, if_pos rfl, get_leaf] at hkey
      split at hkey
      · rename_i heq
        rw [heq, Option.some.inj hkey]
      · contradiction
    | branch hx hother hchildren =>
      obtain ⟨p, q, hdiverge, hp, hq⟩ := (Canonical.branch hx hother hchildren).parts
      exact absurd hsame (get_leaf_ne_of_parts hdiverge.1 hp hq)
    | @extension shared _ _ hshared hchild =>
      obtain ⟨p, q, hdiverge, hp, hq⟩ := hchild.parts_of_extension shared
      have hne : shared ++ p ≠ shared ++ q := fun heq => hdiverge.1 (List.append_cancel_left heq)
      exact absurd hsame (get_leaf_ne_of_parts hne hp hq)
  | @branch children value x hx hother hchildren ih =>
    have hcanonical := Canonical.branch hx hother hchildren
    cases h' with
    | leaf key' value' =>
      obtain ⟨p, q, hdiverge, hp, hq⟩ := hcanonical.parts
      exact absurd (fun path => (hsame path).symm) (get_leaf_ne_of_parts hdiverge.1 hp hq)
    | @branch children' value' x' hx' hother' hchildren' =>
      have hchild : children = children' := by
        funext digit
        have hbelow : ∀ path, (children digit).get path = (children' digit).get path :=
          fun path => hsame (digit :: path)
        by_cases hempty : children digit = empty
        · by_contra hne
          rw [hempty] at hne
          obtain ⟨path, hpath⟩ := (hchildren' digit (Ne.symm hne)).holds
          rw [← hbelow, hempty] at hpath
          exact hpath rfl
        · by_cases hempty' : children' digit = empty
          · obtain ⟨path, hpath⟩ := (hchildren digit hempty).holds
            rw [hbelow, hempty'] at hpath
            exact absurd rfl hpath
          · exact ih digit hempty (hchildren' digit hempty') hbelow
      have hvalue : value = value' := hsame []
      rw [hchild, hvalue]
    | extension hshared hchild => exact absurd hsame (get_branch_ne_extension hshared hcanonical)
  | @extension shared children value hshared hchild ih =>
    cases h' with
    | leaf key' value' =>
      obtain ⟨p, q, hdiverge, hp, hq⟩ := hchild.parts_of_extension shared
      have hne : shared ++ p ≠ shared ++ q := fun heq => hdiverge.1 (List.append_cancel_left heq)
      exact absurd (fun path => (hsame path).symm) (get_leaf_ne_of_parts hne hp hq)
    | branch hx hother hchildren =>
      exact absurd (fun path => (hsame path).symm)
        (get_branch_ne_extension hshared (Canonical.branch hx hother hchildren))
    | @extension shared' children' value' hshared' hchild' =>
      have hle := prefix_of_same hchild hsame
      have hge := prefix_of_same hchild' fun path => (hsame path).symm
      obtain rfl := hge.eq_of_length_le hle.length_le
      rw [ih hchild' fun path => ?_]
      have hbelow := hsame (shared ++ path)
      rwa [get_extension_append, get_extension_append] at hbelow

/-- Skip a path, if there is one to skip. -/
def skip : List δ → RadixTree δ ν → RadixTree δ ν
  | [], child => child
  | digit :: rest, child => extension (digit :: rest) child

/-- Two children under different digits. -/
def pair (x : δ) (first : RadixTree δ ν) (y : δ) (second : RadixTree δ ν) : δ → RadixTree δ ν :=
  Function.update (Function.update (fun _ => empty) x first) y second

/-- Whether the tree has a branch under a path. -/
def branchAt : RadixTree δ ν → List δ → Bool
  | empty, _ => false
  | leaf _ _, _ => false
  | branch _ _, [] => true
  | branch children _, digit :: rest => (children digit).branchAt rest
  | extension shared child, path =>
    if shared <+: path then child.branchAt (path.drop shared.length) else false

@[simp] theorem get_skip_append (shared : List δ) (child : RadixTree δ ν) (rest : List δ) :
    (skip shared child).get (shared ++ rest) = child.get rest := by
  cases shared with
  | nil => rfl
  | cons digit shared => exact get_extension_append _ child rest

/-- A path that leaves the skipped one. -/
theorem get_skip_off {shared path : List δ} (child : RadixTree δ ν)
    (h : ¬ shared <+: path) : (skip shared child).get path = none := by
  cases shared with
  | nil => exact absurd List.nil_prefix h
  | cons digit shared => exact get_extension_off child h

@[simp] theorem branchAt_extension_append (shared : List δ) (child : RadixTree δ ν) (rest : List δ) :
    (extension shared child).branchAt (shared ++ rest) = child.branchAt rest := by
  rw [branchAt, if_pos (List.prefix_append shared rest), List.drop_left]

theorem branchAt_extension_off {shared path : List δ} (child : RadixTree δ ν)
    (h : ¬ shared <+: path) : (extension shared child).branchAt path = false := if_neg h

/-- What two children hold. -/
theorem get_pair (x y : δ) (first second : RadixTree δ ν) (value : Option ν) (digit : δ)
    (rest : List δ) :
    (branch (pair x first y second) value).get (digit :: rest) =
      if digit = y then second.get rest else if digit = x then first.get rest else none := by
  rw [get_branch_cons, pair, Function.update_apply, Function.update_apply]
  split
  · rfl
  · split
    · rfl
    · rfl

/-- Two paths skipped one after the other. -/
theorem get_skip_skip (shared rest : List δ) (child : RadixTree δ ν) (path : List δ) :
    (skip shared (skip rest child)).get path = (skip (shared ++ rest) child).get path := by
  by_cases hon : shared <+: path
  · obtain ⟨below, rfl⟩ := hon
    rw [get_skip_append]
    by_cases hrest : rest <+: below
    · obtain ⟨below', rfl⟩ := hrest
      rw [get_skip_append, ← List.append_assoc, get_skip_append]
    · rw [get_skip_off child hrest, get_skip_off]
      rwa [List.prefix_append_right_inj]
  · rw [get_skip_off _ hon, get_skip_off]
    exact fun hlong => hon ((List.prefix_append shared rest).trans hlong)

/-- A leaf below a skipped path. -/
theorem get_skip_leaf (shared key : List δ) (value : ν) (path : List δ) :
    (skip shared (leaf key value)).get path = (leaf (shared ++ key) value).get path := by
  by_cases hon : shared <+: path
  · obtain ⟨below, rfl⟩ := hon
    simp only [get_skip_append, get_leaf, List.append_cancel_left_eq]
  · rw [get_skip_off _ hon, get_leaf, if_neg]
    rintro rfl
    exact hon (List.prefix_append shared key)

/-- A fork between a tree and a leaf holds what the tree held and the leaf. -/
theorem get_fork {x y : δ} (hne : x ≠ y) (shared rest : List δ) (first : RadixTree δ ν) (value : ν)
    (path : List δ) :
    (skip shared (branch (pair x first y (leaf rest value)) none)).get path =
      if path = shared ++ y :: rest then some value else (skip (shared ++ [x]) first).get path := by
  rw [← get_skip_skip]
  by_cases hon : shared <+: path
  · obtain ⟨below, rfl⟩ := hon
    simp only [get_skip_append, List.append_cancel_left_eq]
    cases below with
    | nil =>
      rw [if_neg (List.cons_ne_nil y rest).symm]
      exact (get_skip_off first (fun h => absurd (List.prefix_nil.mp h) (List.cons_ne_nil _ _))).symm
    | cons digit below =>
      rw [get_pair]
      by_cases hy : digit = y
      · have hoff : ¬ [x] <+: digit :: below := by
          rw [List.cons_prefix_cons]
          exact fun h => hne (h.1.trans hy)
        rw [if_pos hy, get_skip_off first hoff, get_leaf, hy]
        simp only [List.cons.injEq, true_and, eq_comm]
      · rw [if_neg hy, if_neg fun h => hy (List.cons.inj h).1]
        by_cases hx : digit = x
        · rw [if_pos hx, hx]
          exact (get_skip_append [x] first below).symm
        · rw [if_neg hx, get_skip_off]
          rw [List.cons_prefix_cons]
          exact fun h => hx h.1.symm
  · rw [get_skip_off _ hon, get_skip_off _ hon, if_neg]
    rintro rfl
    exact hon (List.prefix_append shared _)

/-- Trees in which every branch has two children and every extension skips a path to a branch. -/
inductive Forked : RadixTree δ ν → Prop
  | leaf {key : List δ} {value : ν} : Forked (.leaf key value)
  | branch {children : δ → RadixTree δ ν} {value : Option ν} {x y : δ} (hne : x ≠ y)
      (hx : children x ≠ empty) (hy : children y ≠ empty)
      (hchildren : ∀ digit, children digit ≠ empty → Forked (children digit)) :
      Forked (.branch children value)
  | extension {shared : List δ} {children : δ → RadixTree δ ν} {value : Option ν}
      (hshared : shared ≠ []) (hchild : Forked (.branch children value)) :
      Forked (.extension shared (.branch children value))

omit [DecidableEq δ] in
theorem Forked.ne_empty {t : RadixTree δ ν} (h : Forked t) : t ≠ empty := by
  intro heq
  rw [heq] at h
  cases h

omit [DecidableEq δ] in
/-- Forked trees are canonical. -/
theorem Forked.canonical {t : RadixTree δ ν} (h : Forked t) : Canonical t := by
  induction h with
  | leaf => exact .leaf _ _
  | branch hne hx hy _ ih => exact .branch hx (.inr ⟨_, hne.symm, hy⟩) ih
  | extension hshared _ ih => exact .extension hshared ih

omit [DecidableEq δ] in
/-- A skipped path above a forked branch. -/
theorem Forked.skip {children : δ → RadixTree δ ν} {value : Option ν} (shared : List δ)
    (h : Forked (.branch children value)) : Forked (skip shared (.branch children value)) := by
  cases shared with
  | nil => exact h
  | cons digit shared => exact .extension (List.cons_ne_nil _ _) h

/-- A branch over two forked trees. -/
theorem Forked.pair {x y : δ} {first second : RadixTree δ ν} (hne : x ≠ y) (hfirst : Forked first)
    (hsecond : Forked second) : Forked (.branch (pair x first y second) none) := by
  have hx : RadixTree.pair x first y second x = first := by
    rw [RadixTree.pair, Function.update_of_ne hne, Function.update_self]
  have hy : RadixTree.pair x first y second y = second := Function.update_self _ _ _
  apply Forked.branch hne
  · rw [hx]
    exact hfirst.ne_empty
  · rw [hy]
    exact hsecond.ne_empty
  · intro digit hdigit
    by_cases hisy : digit = y
    · rw [hisy, hy]
      exact hsecond
    · by_cases hisx : digit = x
      · rw [hisx, hx]
        exact hfirst
      · rw [RadixTree.pair, Function.update_of_ne hisy, Function.update_of_ne hisx] at hdigit
        exact absurd rfl hdigit

/-- A forked tree holds something that is not the value of a branch. -/
theorem Forked.exists_leaf {t : RadixTree δ ν} (h : Forked t) :
    ∃ path, t.get path ≠ none ∧ t.branchAt path = false := by
  induction h with
  | @leaf key value => exact ⟨key, by simp [get_leaf], rfl⟩
  | @branch children value x y _ hx _ _ ih =>
    obtain ⟨path, hget, hleaf⟩ := ih x hx
    exact ⟨x :: path, hget, hleaf⟩
  | @extension shared children value _ _ ih =>
    obtain ⟨path, hget, hleaf⟩ := ih
    refine ⟨shared ++ path, ?_, ?_⟩
    · rwa [get_extension_append]
    · rwa [branchAt_extension_append]

/-- A forked tree has a branch where two paths part that it holds. -/
theorem Forked.branchAt_of_parted {t : RadixTree δ ν} {path p q : List δ} {x y : δ} (h : Forked t) (hne : x ≠ y)
    (hx : t.get (path ++ x :: p) ≠ none) (hy : t.get (path ++ y :: q) ≠ none) : t.branchAt path = true := by
  induction h generalizing path with
  | leaf =>
    have hboth := (eq_of_get_leaf hx).trans (eq_of_get_leaf hy).symm
    exact absurd (List.cons.inj (List.append_cancel_left hboth)).1 hne
  | @branch children value _ _ _ _ _ _ ih =>
    cases path with
    | nil => rfl
    | cons digit rest =>
      by_cases hempty : children digit = empty
      · rw [List.cons_append, get_branch_cons, hempty] at hx
        exact absurd rfl hx
      · exact ih digit hempty hx hy
  | @extension shared children value _ _ ih =>
    have hon : shared <+: path := (diverge_cons hne p q).prefix_of_append (prefix_of_get_extension hx)
      (prefix_of_get_extension hy)
    obtain ⟨rest, rfl⟩ := hon
    rw [List.append_assoc, get_extension_append] at hx hy
    rw [branchAt_extension_append]
    exact ih hx hy

/-- It has no other branches. -/
theorem Forked.branchAt_iff {t : RadixTree δ ν} (h : Forked t) (path : List δ) :
    t.branchAt path = true ↔
      ∃ x y p q, x ≠ y ∧ t.get (path ++ x :: p) ≠ none ∧ t.get (path ++ y :: q) ≠ none := by
  constructor
  · intro hbranch
    induction h generalizing path with
    | leaf => exact absurd hbranch Bool.false_ne_true
    | @branch children value x y hne hx hy hchildren ih =>
      cases path with
      | nil =>
        obtain ⟨p, hp⟩ := (hchildren x hx).canonical.holds
        obtain ⟨q, hq⟩ := (hchildren y hy).canonical.holds
        exact ⟨x, y, p, q, hne, hp, hq⟩
      | cons digit rest =>
        have hsome : children digit ≠ empty := by
          intro hempty
          rw [branchAt, hempty] at hbranch
          exact Bool.false_ne_true hbranch
        exact ih digit hsome rest hbranch
    | @extension shared children value _ _ ih =>
      by_cases hon : shared <+: path
      · obtain ⟨rest, rfl⟩ := hon
        rw [branchAt_extension_append] at hbranch
        simp only [List.append_assoc, get_extension_append]
        exact ih rest hbranch
      · rw [branchAt_extension_off _ hon] at hbranch
        exact absurd hbranch Bool.false_ne_true
  · intro hparted
    obtain ⟨x, y, p, q, hne, hx, hy⟩ := hparted
    exact h.branchAt_of_parted hne hx hy

/-- A forked tree that holds more has more branches. -/
theorem Forked.branchAt_mono {t t' : RadixTree δ ν} (h : Forked t) (h' : Forked t')
    (hmore : ∀ path, t.get path ≠ none → t'.get path ≠ none) {path : List δ}
    (hbranch : t.branchAt path = true) : t'.branchAt path = true := by
  obtain ⟨x, y, p, q, hne, hx, hy⟩ := (h.branchAt_iff path).mp hbranch
  exact (h'.branchAt_iff path).mpr ⟨x, y, p, q, hne, hmore _ hx, hmore _ hy⟩

/-- Canonical trees in which every branch has two children and every leaf ends at one depth. -/
inductive Uniform : ℕ → RadixTree δ ν → Prop
  | leaf {n : ℕ} {key : List δ} {value : ν} (hkey : key.length = n) : Uniform n (.leaf key value)
  | branch {n : ℕ} {children : δ → RadixTree δ ν} {value : Option ν} {x y : δ} (hne : x ≠ y)
      (hx : children x ≠ empty) (hy : children y ≠ empty)
      (hchildren : ∀ digit, children digit ≠ empty → Uniform n (children digit)) :
      Uniform (n + 1) (.branch children value)
  | extension {n m : ℕ} {shared : List δ} {children : δ → RadixTree δ ν} {value : Option ν}
      (hshared : shared ≠ []) (hlength : m = shared.length + n)
      (hchild : Uniform n (.branch children value)) :
      Uniform m (.extension shared (.branch children value))

omit [DecidableEq δ] in
/-- Uniform trees are forked. -/
theorem Uniform.forked {n : ℕ} {t : RadixTree δ ν} (h : Uniform n t) : Forked t := by
  induction h with
  | leaf => exact .leaf
  | branch hne hx hy _ ih => exact .branch hne hx hy ih
  | extension hshared _ _ ih => exact .extension hshared ih

/-- What a uniform tree holds lies at its depth, or above if it is the value of a branch. -/
theorem Uniform.length_of_get {n : ℕ} {t : RadixTree δ ν} (h : Uniform n t) {path : List δ}
    (hget : t.get path ≠ none) : path.length ≤ n ∧ (t.branchAt path = false → path.length = n) := by
  induction h generalizing path with
  | leaf hkey =>
    rw [eq_of_get_leaf hget, hkey]
    exact ⟨Nat.le_refl _, fun _ => rfl⟩
  | @branch n children value _ _ _ _ _ _ ih =>
    cases path with
    | nil => exact ⟨Nat.zero_le _, fun hleaf => absurd hleaf.symm Bool.false_ne_true⟩
    | cons digit rest =>
      have hsome : children digit ≠ empty := by
        intro hempty
        rw [get_branch_cons, hempty] at hget
        exact hget rfl
      have hbelow := ih digit hsome hget
      exact ⟨Nat.succ_le_succ hbelow.1, fun hleaf => congrArg Nat.succ (hbelow.2 hleaf)⟩
  | @extension n m shared children value _ hlength _ ih =>
    obtain ⟨rest, rfl⟩ := prefix_of_get_extension hget
    rw [get_extension_append] at hget
    have hbelow := ih hget
    rw [branchAt_extension_append, List.length_append, hlength]
    exact ⟨Nat.add_le_add_left hbelow.1 _, fun hleaf => by rw [hbelow.2 hleaf]⟩

/-- A forked tree with all leaves at one depth is uniform. -/
theorem Forked.uniform {n : ℕ} {t : RadixTree δ ν} (h : Forked t)
    (hdepth : ∀ path, t.get path ≠ none → t.branchAt path = false → path.length = n) : Uniform n t := by
  induction h generalizing n with
  | @leaf key value => exact .leaf (hdepth key (by simp [get_leaf]) rfl)
  | @branch children value x y hne hx hy hchildren ih =>
    obtain ⟨path, hget, hleaf⟩ := (hchildren x hx).exists_leaf
    have hlength : path.length + 1 = n := hdepth (x :: path) hget hleaf
    subst hlength
    apply Uniform.branch hne hx hy
    intro digit hsome
    apply ih digit hsome
    intro below hbelow hend
    exact Nat.succ.inj (hdepth (digit :: below) hbelow hend)
  | @extension shared children value hshared hchild ih =>
    have hbelow : ∀ below, (RadixTree.branch children value).get below ≠ none →
        (RadixTree.branch children value).branchAt below = false → shared.length + below.length = n := by
      intro below hget hleaf
      rw [← List.length_append]
      apply hdepth
      · rwa [get_extension_append]
      · rwa [branchAt_extension_append]
    obtain ⟨path, hget, hleaf⟩ := hchild.exists_leaf
    apply Uniform.extension hshared (hbelow path hget hleaf).symm
    apply ih
    intro below hget' hleaf'
    have hsame := (hbelow below hget' hleaf').trans (hbelow path hget hleaf).symm
    omega

end RadixTree
