import Mathlib.Data.List.Chain
import Mathlib.Data.List.Induction
import Mathlib.Algebra.Order.Group.Int

/-!
# Sessions that end when they are not used

Events open a session, use it, or close it. A session lasts as long as it is not closed and no two uses of it,
one after the other, lie further apart than a limit.
-/

namespace IdleLimit

/-- What events are for sessions: the time of each, what it opens, and whether it closes or uses one. -/
structure Events (ε κ : Type) where
  time : ε → ℤ
  opens : ε → Option κ
  closes : ε → Bool
  uses : ε → Bool

variable {ε κ : Type} (events : Events ε κ) (limit : ℤ)

/-- The session after one more event: what was opened, and the time of its last use. -/
def after (session : Option (κ × ℤ)) (event : ε) : Option (κ × ℤ) :=
  match events.opens event with
  | some key => some (key, events.time event)
  | none =>
    if events.closes event then none
    else if events.uses event then
      session.bind fun opened =>
        if events.time event ≤ opened.2 + limit then some (opened.1, events.time event) else none
    else session

/-- The session after a list of events. -/
def sessionAfter (list : List ε) : Option (κ × ℤ) := list.foldl (after events limit) none

theorem sessionAfter_snoc (list : List ε) (event : ε) :
    sessionAfter events limit (list ++ [event]) = after events limit (sessionAfter events limit list) event := by
  simp [sessionAfter]

/-- The times at which a session is used after it was opened. -/
def useTimes (list : List ε) : List ℤ := (list.filter events.uses).map events.time

/-- Some event opened the session, none since opened another or closed it, and the uses since, the last one at
the given time, follow one another within the limit. -/
def Lasts (list : List ε) (key : κ) (last : ℤ) : Prop :=
  ∃ before opening later, list = before ++ opening :: later ∧ events.opens opening = some key ∧
    (∀ event ∈ later, events.opens event = none ∧ events.closes event = false) ∧
    (events.time opening :: useTimes events later).IsChain (fun t t' => t' ≤ t + limit) ∧
    (events.time opening :: useTimes events later).getLast? = some last

variable {events limit} {list : List ε} {event : ε} {key : κ} {last : ℤ}

theorem useTimes_snoc (later : List ε) (event : ε) : useTimes events (later ++ [event]) =
    useTimes events later ++ if events.uses event then [events.time event] else [] := by
  unfold useTimes
  rw [List.filter_append, List.map_append]
  cases huses : events.uses event <;> simp [huses]

/-- An event that opens a session begins it. -/
theorem lasts_snoc_of_opens (hopens : events.opens event = some key) :
    Lasts events limit (list ++ [event]) key (events.time event) :=
  ⟨list, event, [], rfl, hopens, by simp, by simp [useTimes], by simp [useTimes]⟩

/-- A session that lasts over an event that opens none was there before it, was not closed, and was used in time
if it was used. -/
theorem lasts_snoc_iff (hopens : events.opens event = none) :
    Lasts events limit (list ++ [event]) key last ↔ events.closes event = false ∧
      if events.uses event then
        ∃ earlier, Lasts events limit list key earlier ∧ events.time event ≤ earlier + limit ∧
          last = events.time event
      else Lasts events limit list key last := by
  constructor
  · rintro ⟨before, opening, later, hsplit, hopening, hquiet, hchain, hlast⟩
    induction later using List.reverseRecOn with
    | nil =>
      obtain ⟨-, hsame⟩ := List.append_inj' hsplit rfl
      rw [← List.singleton_inj.mp hsame, hopens] at hopening
      contradiction
    | append_singleton later final _ =>
      rw [← List.cons_append, ← List.append_assoc] at hsplit
      obtain ⟨hlist, hfinal⟩ := List.append_inj' hsplit rfl
      obtain rfl := List.singleton_inj.mp hfinal
      have hbefore : ∀ other ∈ later, events.opens other = none ∧ events.closes other = false :=
        fun other hother => hquiet other (List.mem_append_left _ hother)
      refine ⟨(hquiet event (by simp)).2, ?_⟩
      rw [useTimes_snoc] at hchain hlast
      split
      · rename_i huses
        rw [if_pos huses, ← List.cons_append] at hchain hlast
        obtain ⟨hearlier, -, hstep⟩ := List.isChain_append.mp hchain
        rw [List.getLast?_append, List.getLast?_singleton, Option.some_or] at hlast
        obtain ⟨earlier, hearliest⟩ := Option.isSome_iff_exists.mp
          (List.getLast?_isSome.mpr (List.cons_ne_nil (events.time opening) (useTimes events later)))
        exact ⟨earlier, ⟨before, opening, later, hlist, hopening, hbefore, hearlier, hearliest⟩,
          hstep earlier hearliest (events.time event) rfl, (Option.some.inj hlast).symm⟩
      · rename_i huses
        rw [if_neg huses, List.append_nil] at hchain hlast
        exact ⟨before, opening, later, hlist, hopening, hbefore, hchain, hlast⟩
  · rintro ⟨hcloses, hlasts⟩
    have hquiet : ∀ later : List ε, (∀ other ∈ later, events.opens other = none ∧ events.closes other = false) →
        ∀ other ∈ later ++ [event], events.opens other = none ∧ events.closes other = false := by
      intro later hlater other hother
      rcases List.mem_append.mp hother with hold | hnew
      · exact hlater other hold
      · rw [List.mem_singleton.mp hnew]
        exact ⟨hopens, hcloses⟩
    split at hlasts
    · rename_i huses
      obtain ⟨earlier, ⟨before, opening, later, rfl, hopening, hlater, hchain, hearlier⟩, hintime, rfl⟩ := hlasts
      refine ⟨before, opening, later ++ [event], by simp, hopening, hquiet later hlater, ?_, ?_⟩
      · rw [useTimes_snoc, if_pos huses, ← List.cons_append]
        refine List.isChain_append.mpr ⟨hchain, List.isChain_singleton _, ?_⟩
        intro t ht t' ht'
        rw [hearlier] at ht
        obtain rfl := Option.some.inj ht
        obtain rfl := Option.some.inj ht'
        exact hintime
      · rw [useTimes_snoc, if_pos huses, ← List.cons_append, List.getLast?_append]
        rfl
    · rename_i huses
      obtain ⟨before, opening, later, rfl, hopening, hlater, hchain, hlast⟩ := hlasts
      refine ⟨before, opening, later ++ [event], by simp, hopening, hquiet later hlater, ?_, ?_⟩
      · rwa [useTimes_snoc, if_neg huses, List.append_nil]
      · rwa [useTimes_snoc, if_neg huses, List.append_nil]

/-- No session lasts over an event that opens another. -/
theorem eq_of_lasts_snoc {opened : κ} (hopens : events.opens event = some opened)
    (h : Lasts events limit (list ++ [event]) key last) : key = opened ∧ last = events.time event := by
  obtain ⟨before, opening, later, hsplit, hopening, hquiet, -, hlast⟩ := h
  induction later using List.reverseRecOn with
  | nil =>
    obtain ⟨-, hsame⟩ := List.append_inj' hsplit rfl
    obtain rfl := List.singleton_inj.mp hsame
    exact ⟨Option.some.inj (hopening.symm.trans hopens), (Option.some.inj hlast).symm⟩
  | append_singleton later final _ =>
    rw [← List.cons_append, ← List.append_assoc] at hsplit
    obtain rfl := List.singleton_inj.mp (List.append_inj' hsplit rfl).2
    have hnone := (hquiet event (by simp)).1
    rw [hopens] at hnone
    contradiction

/-- The session after the events is the one that lasts. -/
theorem sessionAfter_eq_some_iff :
    sessionAfter events limit list = some (key, last) ↔ Lasts events limit list key last := by
  induction list using List.reverseRecOn generalizing key last with
  | nil =>
    refine iff_of_false (by simp [sessionAfter]) ?_
    rintro ⟨before, opening, later, hsplit, -⟩
    simp at hsplit
  | append_singleton list event ih =>
    rw [sessionAfter_snoc, after]
    cases hopens : events.opens event with
    | some opened =>
      constructor
      · intro hsession
        obtain ⟨rfl, rfl⟩ := Prod.mk.inj (Option.some.inj hsession)
        exact lasts_snoc_of_opens hopens
      · intro hlasts
        obtain ⟨rfl, rfl⟩ := eq_of_lasts_snoc hopens hlasts
        rfl
    | none =>
      rw [lasts_snoc_iff hopens]
      dsimp only
      cases hcloses : events.closes event with
      | true => simp
      | false =>
        rw [if_neg Bool.false_ne_true, and_iff_right rfl]
        split
        · constructor
          · intro hsession
            obtain ⟨⟨found, earlier⟩, hearlier, hused⟩ := Option.bind_eq_some_iff.mp hsession
            dsimp only at hused
            split at hused
            · rename_i hintime
              obtain ⟨rfl, rfl⟩ := Prod.mk.inj (Option.some.inj hused)
              exact ⟨earlier, ih.mp hearlier, hintime, rfl⟩
            · contradiction
          · rintro ⟨earlier, hlasts, hintime, rfl⟩
            rw [ih.mpr hlasts, Option.bind_some, if_pos hintime]
        · exact ih

end IdleLimit
