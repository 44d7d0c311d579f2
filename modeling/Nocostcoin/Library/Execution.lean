import Mathlib.Data.List.Induction

/-!
# Runs of a partial labelled machine

A machine answers a label with an output and a next state, or with nothing when the call does
not return. A run is the list of its calls, oldest first, each with the states around it, so
that a statement about a run can speak of every intermediate state and of the order of calls.
-/

namespace Execution

variable {σ ℓ ω : Type}

/-- One call of a run. -/
structure Call (σ ℓ ω : Type) where
  pre : σ
  label : ℓ
  output : ω
  post : σ

/-- Runs of a machine from a start state; every call of a run returns. -/
inductive Run (next : σ → ℓ → Option (ω × σ)) (start : σ) : List (Call σ ℓ ω) → σ → Prop
  | nil : Run next start [] start
  | snoc {calls : List (Call σ ℓ ω)} {s s' : σ} {label : ℓ} {output : ω} :
      Run next start calls s → next s label = some (output, s') →
      Run next start (calls ++ [⟨s, label, output, s'⟩]) s'

/-- Feed labels to a machine, recording the calls. -/
def trace (next : σ → ℓ → Option (ω × σ)) : σ → List ℓ → Option (List (Call σ ℓ ω) × σ)
  | s, [] => some ([], s)
  | s, label :: rest =>
    match next s label with
    | none => none
    | some (output, s') => (trace next s' rest).map fun (calls, t) => (⟨s, label, output, s'⟩ :: calls, t)

/-- Something holds at every call of a longer list if it did before and does at the last call. -/
theorem forall_calls_snoc {P : List (Call σ ℓ ω) → Call σ ℓ ω → Prop} {calls : List (Call σ ℓ ω)}
    {last : Call σ ℓ ω} :
    (∀ before call after, calls ++ [last] = before ++ call :: after → P before call) ↔
      (∀ before call after, calls = before ++ call :: after → P before call) ∧ P calls last := by
  constructor
  · intro hall
    refine ⟨fun before call after hsplit => hall before call (after ++ [last]) ?_, hall calls last [] rfl⟩
    rw [hsplit, List.append_assoc, List.cons_append]
  · intro hboth before call after hsplit
    induction after using List.reverseRecOn with
    | nil =>
      obtain ⟨rfl, hlast⟩ := List.append_inj' hsplit rfl
      rw [← List.singleton_inj.mp hlast]
      exact hboth.2
    | append_singleton after final _ =>
      rw [← List.cons_append, ← List.append_assoc] at hsplit
      exact hboth.1 before call after (List.append_inj' hsplit rfl).1

/-- Some call sets a condition and no later one clears it. -/
def Standing (Sets Clears : Call σ ℓ ω → Prop) (calls : List (Call σ ℓ ω)) : Prop :=
  ∃ before call after, calls = before ++ call :: after ∧ Sets call ∧ ∀ later ∈ after, ¬ Clears later

/-- A condition stands after one more call if that call sets it, or leaves it standing. -/
theorem standing_snoc {Sets Clears : Call σ ℓ ω → Prop} {calls : List (Call σ ℓ ω)}
    {last : Call σ ℓ ω} :
    Standing Sets Clears (calls ++ [last]) ↔
      Sets last ∨ Standing Sets Clears calls ∧ ¬ Clears last := by
  constructor
  · rintro ⟨before, call, after, hsplit, hsets, hkept⟩
    induction after using List.reverseRecOn with
    | nil =>
      obtain ⟨-, hlast⟩ := List.append_inj' hsplit rfl
      rw [← List.singleton_inj.mp hlast] at hsets
      exact .inl hsets
    | append_singleton after final _ =>
      rw [← List.cons_append, ← List.append_assoc] at hsplit
      obtain ⟨hcalls, hlast⟩ := List.append_inj' hsplit rfl
      obtain rfl := List.singleton_inj.mp hlast
      exact .inr ⟨⟨before, call, after, hcalls, hsets, fun later hlater =>
        hkept later (List.mem_append_left _ hlater)⟩, hkept last (by simp)⟩
  · rintro (hsets | ⟨⟨before, call, after, rfl, hsets, hkept⟩, hkeeps⟩)
    · exact ⟨calls, last, [], rfl, hsets, by simp⟩
    · refine ⟨before, call, after ++ [last], by simp, hsets, fun later hlater => ?_⟩
      rcases List.mem_append.mp hlater with hold | hnew
      · exact hkept later hold
      · rw [List.mem_singleton.mp hnew]
        exact hkeeps

variable {next : σ → ℓ → Option (ω × σ)} {start : σ}

namespace Run

/-- A nonempty run is a shorter run and its last call. -/
theorem snoc_iff {calls : List (Call σ ℓ ω)} {call : Call σ ℓ ω} {t : σ} :
    Run next start (calls ++ [call]) t ↔
      Run next start calls call.pre ∧ next call.pre call.label = some (call.output, t) ∧
        call.post = t := by
  constructor
  · intro hrun
    generalize hall : calls ++ [call] = all at hrun
    cases hrun with
    | nil => simp at hall
    | snoc hbefore hnext =>
      obtain ⟨rfl, hlast⟩ := List.append_inj' hall rfl
      obtain rfl := List.singleton_inj.mp hlast
      exact ⟨hbefore, hnext, rfl⟩
  · rintro ⟨hbefore, hnext, rfl⟩
    exact .snoc hbefore hnext

/-- A first call can be put in front of a run. -/
theorem cons {calls : List (Call σ ℓ ω)} {s t : σ} {label : ℓ} {output : ω}
    (hcall : next start label = some (output, s)) (hrun : Run next s calls t) :
    Run next start (⟨start, label, output, s⟩ :: calls) t := by
  induction hrun with
  | nil => exact .snoc .nil hcall
  | snoc _ hnext ih => exact .snoc ih hnext

/-- What `trace` records is a run. -/
theorem of_trace {labels : List ℓ} {calls : List (Call σ ℓ ω)} {t : σ}
    (h : trace next start labels = some (calls, t)) : Run next start calls t := by
  induction labels generalizing start calls with
  | nil =>
    obtain ⟨rfl, rfl⟩ := by simpa [trace] using h
    exact .nil
  | cons label rest ih =>
    rw [trace] at h
    split at h
    · contradiction
    · rename_i output s' hnext
      obtain ⟨⟨calls', t'⟩, htail, heq⟩ := Option.map_eq_some_iff.mp h
      obtain ⟨rfl, rfl⟩ := by simpa using heq
      exact cons hnext (ih htail)

/-- `trace` feeds exactly the labels it is given. -/
theorem labels_of_trace {labels : List ℓ} {calls : List (Call σ ℓ ω)} {t : σ}
    (h : trace next start labels = some (calls, t)) : calls.map Call.label = labels := by
  induction labels generalizing start calls with
  | nil =>
    obtain ⟨rfl, rfl⟩ := by simpa [trace] using h
    rfl
  | cons label rest ih =>
    rw [trace] at h
    split at h
    · contradiction
    · obtain ⟨⟨calls', t'⟩, htail, heq⟩ := Option.map_eq_some_iff.mp h
      obtain ⟨rfl, rfl⟩ := by simpa using heq
      rw [List.map_cons, ih htail]

/-- A list of calls with two labels has two calls. -/
theorem calls_of_two {calls : List (Call σ ℓ ω)} {a b : ℓ} (h : calls.map Call.label = [a, b]) :
    ∃ first second, calls = [first, second] ∧ first.label = a ∧ second.label = b := by
  obtain ⟨first, rest, rfl, hfirst, hrest⟩ := List.map_eq_cons_iff.mp h
  obtain ⟨second, nothing, rfl, hsecond, hnothing⟩ := List.map_eq_cons_iff.mp hrest
  obtain rfl := List.map_eq_nil_iff.mp hnothing
  exact ⟨first, second, rfl, hfirst, hsecond⟩

/-- A list of calls with three labels has three calls. -/
theorem calls_of_three {calls : List (Call σ ℓ ω)} {a b c : ℓ}
    (h : calls.map Call.label = [a, b, c]) :
    ∃ first second third, calls = [first, second, third] ∧ first.label = a ∧ second.label = b ∧
      third.label = c := by
  obtain ⟨first, rest, rfl, hfirst, hrest⟩ := List.map_eq_cons_iff.mp h
  obtain ⟨second, third, rfl, hsecond, hthird⟩ := calls_of_two hrest
  exact ⟨first, second, third, rfl, hfirst, hsecond, hthird⟩

/-- A check that the recorded calls pass, a run over the same labels passes. -/
theorem exists_of_trace (next : σ → ℓ → Option (ω × σ)) (start : σ) (labels : List ℓ)
    (check : List (Call σ ℓ ω) → σ → Bool)
    (h : (trace next start labels).any (fun recorded => check recorded.1 recorded.2) = true) :
    ∃ calls t, Run next start calls t ∧ calls.map Call.label = labels ∧ check calls t = true := by
  obtain ⟨⟨calls, t⟩, hrun, hcheck⟩ := (Option.any_eq_true _ _).mp h
  exact ⟨calls, t, of_trace hrun, labels_of_trace hrun, hcheck⟩

/-- The same from a start state that is itself the result of a computation. -/
theorem exists_of_trace_from (next : σ → ℓ → Option (ω × σ)) (start : Option σ) (labels : List ℓ)
    (check : σ → List (Call σ ℓ ω) → σ → Bool)
    (h : start.any (fun s =>
      (trace next s labels).any fun recorded => check s recorded.1 recorded.2) = true) :
    ∃ s calls t, start = some s ∧ Run next s calls t ∧ calls.map Call.label = labels ∧
      check s calls t = true := by
  obtain ⟨s, hstart, htrace⟩ := (Option.any_eq_true _ _).mp h
  obtain ⟨calls, t, hrun, hlabels, hcheck⟩ := exists_of_trace next s labels (check s) htrace
  exact ⟨s, calls, t, hstart, hrun, hlabels, hcheck⟩

/-- A check that the last recorded call passes, the last call of a run over the same labels passes. -/
theorem exists_last_of_trace_from (next : σ → ℓ → Option (ω × σ)) (start : Option σ) (labels : List ℓ)
    (label : ℓ) (check : Call σ ℓ ω → Bool)
    (h : start.any (fun s => (trace next s (labels ++ [label])).any
      fun recorded => recorded.1.getLast?.any check) = true) :
    ∃ s calls call t, start = some s ∧ Run next s (calls ++ [call]) t ∧
      calls.map Call.label = labels ∧ call.label = label ∧ check call = true := by
  obtain ⟨s, calls, t, hstart, hrun, hlabels, hcheck⟩ := exists_of_trace_from next start
    (labels ++ [label]) (fun _ calls _ => calls.getLast?.any check) h
  obtain ⟨call, hlast, hcall⟩ := (Option.any_eq_true _ _).mp hcheck
  obtain ⟨earlier, rfl⟩ := List.getLast?_eq_some_iff.mp hlast
  rw [List.map_append, List.map_singleton] at hlabels
  obtain ⟨hearlier, hlabel⟩ := List.append_inj' hlabels rfl
  exact ⟨s, earlier, call, t, hstart, hrun, hearlier, List.singleton_inj.mp hlabel, hcall⟩

/-- The calls of a run are answers of the machine. -/
theorem next_of_mem {calls : List (Call σ ℓ ω)} {t : σ} (hrun : Run next start calls t)
    {call : Call σ ℓ ω} (hcall : call ∈ calls) :
    next call.pre call.label = some (call.output, call.post) := by
  induction hrun with
  | nil => cases hcall
  | snoc _ hnext ih =>
    rcases List.mem_append.mp hcall with hold | hnew
    · exact ih hold
    · rw [List.mem_singleton.mp hnew]
      exact hnext

/-- A run splits wherever its list of calls does. -/
theorem split {first second : List (Call σ ℓ ω)} {t : σ}
    (hrun : Run next start (first ++ second) t) :
    ∃ m, Run next start first m ∧ Run next m second t := by
  induction second using List.reverseRecOn generalizing t with
  | nil => exact ⟨t, by simpa using hrun, .nil⟩
  | append_singleton second call ih =>
    rw [← List.append_assoc] at hrun
    obtain ⟨hbefore, hnext, hpost⟩ := snoc_iff.mp hrun
    obtain ⟨m, hfirst, hsecond⟩ := ih hbefore
    exact ⟨m, hfirst, snoc_iff.mpr ⟨hsecond, hnext, hpost⟩⟩

/-- Two runs one after another are one. -/
theorem append {first second : List (Call σ ℓ ω)} {m t : σ} (hfirst : Run next start first m)
    (hsecond : Run next m second t) : Run next start (first ++ second) t := by
  induction hsecond with
  | nil => rwa [List.append_nil]
  | snoc _ hnext ih =>
    rw [← List.append_assoc]
    exact ih.snoc hnext

/-- An invariant that every admitted call keeps holds after every run of admitted calls. -/
theorem invariant (Inv : σ → Prop) (Admits : σ → ℓ → Prop) (hstart : Inv start)
    (hstep : ∀ s label output s', Inv s → Admits s label → next s label = some (output, s') → Inv s')
    {calls : List (Call σ ℓ ω)} {t : σ} (hrun : Run next start calls t)
    (hadmits : ∀ call ∈ calls, Admits call.pre call.label) : Inv t := by
  induction hrun with
  | nil => exact hstart
  | @snoc calls s s' label output _ hnext ih =>
    have hbefore : Inv s := ih fun call hcall => hadmits call (List.mem_append_left _ hcall)
    exact hstep s label output s' hbefore
      (hadmits ⟨s, label, output, s'⟩ (List.mem_append_right _ (List.mem_singleton_self _))) hnext

/-- Around any call of a run stand the run of the calls before it and that of the calls after. -/
theorem around {before after : List (Call σ ℓ ω)} {call : Call σ ℓ ω} {t : σ}
    (hrun : Run next start (before ++ call :: after) t) :
    Run next start before call.pre ∧ Run next call.post after t := by
  rw [List.append_cons] at hrun
  obtain ⟨m, hfirst, hafter⟩ := split hrun
  obtain ⟨hbefore, -, rfl⟩ := snoc_iff.mp hfirst
  exact ⟨hbefore, hafter⟩

/-- The calls of a run up to any of its calls are a run to the state after that call. -/
theorem upto {calls : List (Call σ ℓ ω)} {t : σ} (hrun : Run next start calls t)
    {call : Call σ ℓ ω} (hcall : call ∈ calls) :
    ∃ before after, calls = (before ++ [call]) ++ after ∧
      Run next start (before ++ [call]) call.post := by
  obtain ⟨before, after, rfl⟩ := List.append_of_mem hcall
  exact ⟨before, after, by simp, snoc_iff.mpr ⟨hrun.around.1, hrun.next_of_mem hcall, rfl⟩⟩

/-- Such an invariant holds before and after every call of the run. -/
theorem invariant_of_mem (Inv : σ → Prop) (Admits : σ → ℓ → Prop) (hstart : Inv start)
    (hstep : ∀ s label output s', Inv s → Admits s label → next s label = some (output, s') → Inv s')
    {calls : List (Call σ ℓ ω)} {t : σ} (hrun : Run next start calls t)
    (hadmits : ∀ call ∈ calls, Admits call.pre call.label) {call : Call σ ℓ ω} (hcall : call ∈ calls) :
    Inv call.pre ∧ Inv call.post := by
  obtain ⟨before, after, rfl⟩ := List.append_of_mem hcall
  have hpre : Inv call.pre := invariant Inv Admits hstart hstep hrun.around.1
    fun earlier hearlier => hadmits earlier (List.mem_append_left _ hearlier)
  exact ⟨hpre, hstep _ _ _ _ hpre (hadmits call hcall) (hrun.next_of_mem hcall)⟩

/-- What every call sets, clears or leaves holds at the end of a run if it stands there. -/
theorem holds_iff_standing (Holds : σ → Prop) (Sets Clears : Call σ ℓ ω → Prop)
    (hstart : ¬ Holds start)
    (hstep : ∀ s label output s', next s label = some (output, s') →
      (Holds s' ↔ Sets ⟨s, label, output, s'⟩ ∨ Holds s ∧ ¬ Clears ⟨s, label, output, s'⟩))
    {calls : List (Call σ ℓ ω)} {t : σ} (hrun : Run next start calls t) :
    Holds t ↔ Standing Sets Clears calls := by
  induction hrun with
  | nil =>
    refine iff_of_false hstart ?_
    rintro ⟨before, call, after, hsplit, -⟩
    simp at hsplit
  | snoc _ hnext ih => rw [hstep _ _ _ _ hnext, ih, standing_snoc]

end Run

end Execution
