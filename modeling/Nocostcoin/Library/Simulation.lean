import Nocostcoin.Library.Execution

/-!
# Answering like another machine

A machine that may stop stands in for one that always answers: where their states are related, an admitted
label is answered alike and leads to related states. Then whole sequences of labels are answered alike.
-/

namespace Execution

variable {σ τ ℓ ω : Type}

/-- The answers of a machine that always answers, and the state that it ends in. -/
def respond (serve : τ → ℓ → ω × τ) : τ → List ℓ → List ω × τ
  | t, [] => ([], t)
  | t, label :: rest =>
    ((serve t label).1 :: (respond serve (serve t label).2 rest).1, (respond serve (serve t label).2 rest).2)

/-- Each of them is the answer to a label in some state. -/
theorem exists_of_mem_respond {serve : τ → ℓ → ω × τ} {t : τ} {labels : List ℓ} {output : ω}
    (h : output ∈ (respond serve t labels).1) : ∃ t' label, output = (serve t' label).1 := by
  induction labels generalizing t with
  | nil => contradiction
  | cons label rest ih =>
    rcases List.mem_cons.mp h with rfl | hrest
    · exact ⟨t, label, rfl⟩
    · exact ih hrest

/-- On admitted labels one machine answers like the other, and stays related to it. -/
def StandsFor (next : σ → ℓ → Option (ω × σ)) (serve : τ → ℓ → ω × τ) (Rel : τ → σ → Prop)
    (Admits : ℓ → Prop) : Prop :=
  ∀ t s label, Rel t s → Admits label →
    ∃ s', next s label = some ((serve t label).1, s') ∧ Rel (serve t label).2 s'

/-- So a whole run of it exists, with the answers of the other machine. -/
theorem StandsFor.exists_trace {next : σ → ℓ → Option (ω × σ)} {serve : τ → ℓ → ω × τ}
    {Rel : τ → σ → Prop} {Admits : ℓ → Prop} (h : StandsFor next serve Rel Admits) {labels : List ℓ} {t : τ}
    {s : σ} (hrel : Rel t s) (hadmits : ∀ label ∈ labels, Admits label) :
    ∃ calls s', trace next s labels = some (calls, s') ∧
      calls.map Call.output = (respond serve t labels).1 ∧ Rel (respond serve t labels).2 s' := by
  induction labels generalizing t s with
  | nil => exact ⟨[], s, rfl, rfl, hrel⟩
  | cons label rest ih =>
    obtain ⟨mid, hnext, hmid⟩ := h t s label hrel (hadmits label List.mem_cons_self)
    obtain ⟨calls, s', htrace, houtputs, hend⟩ :=
      ih hmid fun later hlater => hadmits later (List.mem_cons_of_mem _ hlater)
    refine ⟨⟨s, label, (serve t label).1, mid⟩ :: calls, s', ?_, ?_, hend⟩
    · rw [trace, hnext]
      simp only [htrace, Option.map_some]
    · rw [List.map_cons, houtputs]
      rfl

end Execution
