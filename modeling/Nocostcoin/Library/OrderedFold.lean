import Mathlib.Data.List.Perm.Basic
import Mathlib.Data.List.Pairwise
import Mathlib.Logic.Relation

/-!
# Folds over different orders of the same elements

Two lists of the same elements that both keep a precedence relation give the same fold, if the step
commutes for elements that do not precede each other. Keeping the links of a relation is keeping its
chains of links.
-/

namespace OrderedFold

variable {α σ : Type}

/-- No element comes before one that precedes it. -/
def Keeps (precedes : α → α → Prop) (l : List α) : Prop := l.Pairwise fun a b => ¬ precedes b a

/-- The links between the elements that have a property. -/
def LinkAmong (among : α → Prop) (link : α → α → Prop) (a b : α) : Prop := among a ∧ among b ∧ link a b

/-- A list without repetitions that keeps the links keeps the chains of links between its elements. -/
theorem Keeps.chains [DecidableEq α] {among : α → Prop} {link : α → α → Prop} {l : List α}
    (hmem : ∀ a, among a → a ∈ l) (hnodup : l.Nodup) (h : Keeps link l) :
    Keeps (Relation.TransGen (LinkAmong among link)) l := by
  have hlink : ∀ a b, LinkAmong among link a b → l.idxOf a ≤ l.idxOf b := by
    intro a b ⟨ha, hb, hab⟩
    by_contra hlt
    have hpair := List.pairwise_iff_getElem.mp h (l.idxOf b) (l.idxOf a)
      (List.idxOf_lt_length_of_mem (hmem b hb)) (List.idxOf_lt_length_of_mem (hmem a ha))
      (Nat.lt_of_not_le hlt)
    rw [List.getElem_idxOf, List.getElem_idxOf] at hpair
    exact hpair hab
  have hchain : ∀ a b, Relation.TransGen (LinkAmong among link) a b → l.idxOf a ≤ l.idxOf b := by
    intro a b hab
    induction hab with
    | single hab => exact hlink _ _ hab
    | tail _ hbc ih => exact Nat.le_trans ih (hlink _ _ hbc)
  apply List.pairwise_iff_getElem.mpr
  intro i j hi hj hij hback
  have hle := hchain _ _ hback
  rw [hnodup.idxOf_getElem, hnodup.idxOf_getElem] at hle
  exact absurd hij (Nat.not_lt.mpr hle)

variable {step : σ → α → σ} (Inv : σ → Prop)

/-- A step that commutes with all of a list can be taken before them. -/
theorem foldl_move_front {a : α} {l : List α} (hinv : ∀ b ∈ l, ∀ s, Inv s → Inv (step s b))
    (hcomm : ∀ b ∈ l, ∀ s, Inv s → step (step s b) a = step (step s a) b) (rest : List α) {s : σ}
    (hs : Inv s) : (l ++ a :: rest).foldl step s = (a :: (l ++ rest)).foldl step s := by
  induction l generalizing s with
  | nil => rfl
  | cons b l ih =>
    have hrest := ih (fun c hc => hinv c (List.mem_cons_of_mem b hc))
      (fun c hc => hcomm c (List.mem_cons_of_mem b hc)) (hinv b List.mem_cons_self s hs)
    rw [List.cons_append, List.foldl_cons, hrest, List.foldl_cons, hcomm b List.mem_cons_self s hs]
    rfl

/-- Two orders that keep a precedence give the same fold, if elements that do not precede each other
commute on the states that keep an invariant. -/
theorem foldl_eq {precedes : α → α → Prop} {l l' : List α} (hperm : l.Perm l') (hnodup : l.Nodup)
    (hkeeps : Keeps precedes l) (hkeeps' : Keeps precedes l')
    (hinv : ∀ a ∈ l, ∀ s, Inv s → Inv (step s a))
    (hcomm : ∀ a ∈ l, ∀ b ∈ l, a ≠ b → ¬ precedes a b → ¬ precedes b a →
      ∀ s, Inv s → step (step s a) b = step (step s b) a) {s : σ} (hs : Inv s) :
    l.foldl step s = l'.foldl step s := by
  induction l generalizing l' s with
  | nil => rw [hperm.nil_eq]
  | cons a l ih =>
    obtain ⟨front, back, rfl⟩ := List.append_of_mem (hperm.subset List.mem_cons_self)
    have hrest : l.Perm (front ++ back) := (List.perm_cons a).mp (hperm.trans List.perm_middle)
    have hmem : ∀ b ∈ front, b ∈ l := fun b hb => hrest.mem_iff.mpr (List.mem_append_left _ hb)
    obtain ⟨hafter, htail⟩ := List.pairwise_cons.mp hkeeps
    obtain ⟨hfresh, hnodup'⟩ := List.nodup_cons.mp hnodup
    have hfront : ∀ b ∈ front, ∀ s, Inv s → step (step s b) a = step (step s a) b := by
      intro b hb
      have hne : b ≠ a := fun heq => hfresh (heq ▸ hmem b hb)
      have hbefore := (List.pairwise_append.mp hkeeps').2.2 b hb a List.mem_cons_self
      exact hcomm b (List.mem_cons_of_mem a (hmem b hb)) a List.mem_cons_self hne
        (hafter b (hmem b hb)) hbefore
    have hkeepsRest : Keeps precedes (front ++ back) :=
      hkeeps'.sublist (List.Sublist.append_left (List.sublist_cons_self a back) front)
    rw [foldl_move_front Inv (fun b hb => hinv b (List.mem_cons_of_mem a (hmem b hb))) hfront back hs]
    exact ih hrest hnodup' htail hkeepsRest (fun b hb => hinv b (List.mem_cons_of_mem a hb))
      (fun b hb c hc => hcomm b (List.mem_cons_of_mem a hb) c (List.mem_cons_of_mem a hc))
      (hinv a List.mem_cons_self s hs)

end OrderedFold
