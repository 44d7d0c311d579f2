import Mathlib.Logic.Function.Conjugate

/-!
# Commands that read and write different places

A command reads places of the state to decide which writes it makes. Where the writes of either of two
commands are to places that the other does not read, and the writes of both commute, the commands
commute: each gives the answer it gives alone, and both orders end in one state.
-/

namespace Footprint

variable {σ : Type*} {Place : Type*} {Write : Type*} {Answer : Type*}

/-- Make writes one after the other. -/
def performAll (perform : Write → σ → σ) (writes : List Write) (s : σ) : σ :=
  writes.foldl (fun s write => perform write s) s

/-- From a state that shows the same at all places read, the command gives one answer and makes the same
writes. -/
def Follows (perform : Write → σ → σ) (same : Place → σ → σ → Prop) (command : σ → Answer × σ)
    (reads : Place → Prop) (mayWrite : Write → Prop) (start : σ) : Prop :=
  ∃ answer writes, (∀ write ∈ writes, mayWrite write) ∧
    ∀ s, (∀ place, reads place → same place start s) → command s = (answer, performAll perform writes s)

section

variable {perform : Write → σ → σ} {same : Place → σ → σ → Prop}

/-- Writes that each keep a place keep it together. -/
theorem same_performAll (hrefl : ∀ place s, same place s s)
    (htrans : ∀ place s s' s'', same place s s' → same place s' s'' → same place s s'') {place : Place}
    {writes : List Write} (hkeep : ∀ write ∈ writes, ∀ s, same place s (perform write s)) (s : σ) :
    same place s (performAll perform writes s) := by
  induction writes generalizing s with
  | nil => exact hrefl place s
  | cons write rest ih =>
    refine htrans place s _ _ (hkeep write List.mem_cons_self s) ?_
    exact ih (fun write hwrite => hkeep write (List.mem_cons_of_mem _ hwrite)) (perform write s)

/-- A write that commutes with each of some writes commutes with all of them. -/
theorem performAll_comm_write {write : Write} {writes : List Write}
    (hcomm : ∀ write' ∈ writes, Function.Commute (perform write) (perform write')) (s : σ) :
    performAll perform writes (perform write s) = perform write (performAll perform writes s) := by
  induction writes generalizing s with
  | nil => rfl
  | cons write' rest ih =>
    have hfirst := hcomm write' List.mem_cons_self s
    calc performAll perform rest (perform write' (perform write s))
        = performAll perform rest (perform write (perform write' s)) := by rw [hfirst]
      _ = perform write (performAll perform rest (perform write' s)) :=
        ih (fun other hother => hcomm other (List.mem_cons_of_mem _ hother)) _

/-- So do two lists of writes. -/
theorem performAll_comm {writes writes' : List Write}
    (hcomm : ∀ write ∈ writes, ∀ write' ∈ writes', Function.Commute (perform write) (perform write')) (s : σ) :
    performAll perform writes' (performAll perform writes s) =
      performAll perform writes (performAll perform writes' s) := by
  induction writes generalizing s with
  | nil => rfl
  | cons write rest ih =>
    have hrest := ih (fun other hother => hcomm other (List.mem_cons_of_mem _ hother)) (perform write s)
    exact hrest.trans (congrArg (performAll perform rest)
      (performAll_comm_write (hcomm write List.mem_cons_self) s))

/-- Commands commute when neither writes what the other reads and their writes commute. -/
theorem Follows.comm {first second : σ → Answer × σ} {reads reads' : Place → Prop}
    {mayWrite mayWrite' : Write → Prop} {start : σ} (hfirst : Follows perform same first reads mayWrite start)
    (hsecond : Follows perform same second reads' mayWrite' start) (hrefl : ∀ place s, same place s s)
    (htrans : ∀ place s s' s'', same place s s' → same place s' s'' → same place s s'')
    (hkeep : ∀ write place, mayWrite write → reads' place → ∀ s, same place s (perform write s))
    (hkeep' : ∀ write place, mayWrite' write → reads place → ∀ s, same place s (perform write s))
    (hcomm : ∀ write write', mayWrite write → mayWrite' write' →
      Function.Commute (perform write) (perform write')) :
    (second (first start).2).1 = (second start).1 ∧ (first (second start).2).1 = (first start).1 ∧
      (second (first start).2).2 = (first (second start).2).2 := by
  obtain ⟨answer, writes, hwrites, hruns⟩ := hfirst
  obtain ⟨answer', writes', hwrites', hruns'⟩ := hsecond
  have halone := hruns start fun place _ => hrefl place start
  have halone' := hruns' start fun place _ => hrefl place start
  have hlater := hruns (performAll perform writes' start) fun place hread =>
    same_performAll hrefl htrans (fun write hwrite => hkeep' write place (hwrites' write hwrite) hread) start
  have hlater' := hruns' (performAll perform writes start) fun place hread =>
    same_performAll hrefl htrans (fun write hwrite => hkeep write place (hwrites write hwrite) hread) start
  rw [halone, halone', hlater, hlater']
  exact ⟨rfl, rfl, performAll_comm (fun write hwrite write' hwrite' =>
    hcomm write write' (hwrites write hwrite) (hwrites' write' hwrite')) start⟩

end

end Footprint
