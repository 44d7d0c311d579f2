import Mathlib.Data.Set.Insert
import Mathlib.Order.Basic

/-!
# Values issued under tickets

Parties issue values under tickets that they take from counters of their own. What is attributed to a
party may be copied, spread and forgotten in any order; as long as a counter never falls and every new
value takes a ticket above it, no two values are attributed to one party under one ticket.
-/

namespace Ticketing

/-- The counters of the parties, and the values attributed to each under each ticket. -/
structure State (ι τ ν : Type*) where
  counter : ι → τ
  attributed : Set (ι × τ × ν)

variable {ι τ ν : Type*} [Preorder τ]

/-- What is attributed after a value was issued, or none was. -/
def State.known (s : State ι τ ν) (issued : Option (ι × τ × ν)) : Set (ι × τ × ν) :=
  s.attributed ∪ {entry | issued = some entry}

/-- A step issues at most one value, under a ticket above its party's counter, and otherwise spreads what
is attributed already. -/
structure Step (s : State ι τ ν) (issued : Option (ι × τ × ν)) (s' : State ι τ ν) : Prop where
  counter : ∀ party, s.counter party ≤ s'.counter party
  attributed : s'.attributed ⊆ s.known issued
  fresh : ∀ party ticket value, issued = some (party, ticket, value) →
    s.counter party < ticket ∧ ticket ≤ s'.counter party

/-- Tickets lie below the counters, and no ticket of a party has two values. -/
structure Consistent (s : State ι τ ν) : Prop where
  bounded : ∀ party ticket value, (party, ticket, value) ∈ s.attributed → ticket ≤ s.counter party
  unique : ∀ party ticket value value', (party, ticket, value) ∈ s.attributed →
    (party, ticket, value') ∈ s.attributed → value = value'

variable {s s' : State ι τ ν} {issued : Option (ι × τ × ν)}

/-- A value issued in a step shares its ticket with nothing attributed before. -/
theorem Step.ticket_unused (hconsistent : Consistent s) (hstep : Step s issued s') {party : ι}
    {ticket : τ} {value value' : ν} (hissued : issued = some (party, ticket, value)) :
    (party, ticket, value') ∉ s.attributed := by
  intro hold
  have hbound := hconsistent.bounded party ticket value' hold
  exact absurd ((hstep.fresh party ticket value hissued).1.trans_le hbound) (lt_irrefl _)

/-- Also among what was attributed before a step and what is issued in it, a ticket has one value. -/
theorem Step.unique_known (hconsistent : Consistent s) (hstep : Step s issued s') {party : ι}
    {ticket : τ} {value value' : ν} (hvalue : (party, ticket, value) ∈ s.known issued)
    (hvalue' : (party, ticket, value') ∈ s.known issued) : value = value' := by
  rcases hvalue with hold | hnew
  · rcases hvalue' with hold' | hnew'
    · exact hconsistent.unique party ticket value value' hold hold'
    · exact absurd hold (hstep.ticket_unused hconsistent hnew')
  · rcases hvalue' with hold' | hnew'
    · exact absurd hold' (hstep.ticket_unused hconsistent hnew)
    · have heq := Option.some.inj (hnew.symm.trans hnew')
      exact (Prod.mk.inj (Prod.mk.inj heq).2).2

/-- A step keeps tickets below the counters and single-valued. -/
theorem Step.consistent (hconsistent : Consistent s) (hstep : Step s issued s') : Consistent s' where
  bounded party ticket value hvalue := by
    rcases hstep.attributed hvalue with hold | hnew
    · exact (hconsistent.bounded party ticket value hold).trans (hstep.counter party)
    · exact (hstep.fresh party ticket value hnew).2
  unique party ticket value value' hvalue hvalue' :=
    hstep.unique_known hconsistent (hstep.attributed hvalue) (hstep.attributed hvalue')

end Ticketing
