import Mathlib.Data.List.Basic
import Mathlib.Tactic.Common

/-!
# Machines with outputs

A step takes an event and gives the next state with an output, or has no result.
What every step keeps, together with the outputs so far, holds at the end of
every run whose steps meet a condition.
-/

namespace Vetro.Machine

variable {S E O : Type*}

/-- The state after the events, with the outputs in their order. -/
def run (step : S → E → Option (S × O)) (s : S) : List E → Option (S × List O)
  | [] => some (s, [])
  | event :: events =>
    match step s event with
    | none => none
    | some (m, output) => (run step m events).map fun r => (r.1, output :: r.2)

/-- Each event meets the condition in the state it finds. -/
def EachStep (step : S → E → Option (S × O)) (condition : S → E → Prop) : S → List E → Prop
  | _, [] => True
  | s, event :: events =>
    condition s event ∧ ∀ m output, step s event = some (m, output) →
      EachStep step condition m events

variable {step : S → E → Option (S × O)} {condition : S → E → Prop}

@[simp]
theorem run_nil (s : S) : run step s [] = some (s, []) := rfl

variable {events : List E} {outputs : List O}

theorem run_cons {s t : S} {event : E} :
    run step s (event :: events) = some (t, outputs) ↔
      ∃ m output rest, step s event = some (m, output) ∧
        run step m events = some (t, rest) ∧ outputs = output :: rest := by
  rw [run]
  constructor
  · intro hrun
    cases hfirst : step s event with
    | none =>
      rw [hfirst] at hrun
      cases hrun
    | some r =>
      rw [hfirst] at hrun
      obtain ⟨last, hlast, heq⟩ := Option.map_eq_some_iff.mp hrun
      cases heq
      exact ⟨r.1, r.2, last.2, rfl, hlast, rfl⟩
  · rintro ⟨m, output, rest, hfirst, hrest, rfl⟩
    rw [hfirst]
    dsimp only
    rw [hrest, Option.map_some]

/-- A property of the state and of the outputs so far that every step keeps. -/
theorem run_induction (keep : S → List O → Prop)
    (hstep : ∀ {s t event output outputs}, keep s outputs → condition s event →
      step s event = some (t, output) → keep t (outputs ++ [output]))
    {s t : S} (before : List O) (hkeep : keep s before) (heach : EachStep step condition s events)
    (hrun : run step s events = some (t, outputs)) : keep t (before ++ outputs) := by
  induction events generalizing s before outputs with
  | nil =>
    cases hrun
    rwa [List.append_nil]
  | cons event events ih =>
    obtain ⟨m, output, rest, hfirst, hrest, rfl⟩ := run_cons.mp hrun
    have hlast := ih _ (hstep hkeep heach.1 hfirst) (heach.2 m output hfirst) hrest
    rwa [List.append_assoc] at hlast

theorem eachStep_of_forall (hall : ∀ s event, condition s event) (s : S) (events : List E) :
    EachStep step condition s events := by
  induction events generalizing s with
  | nil => trivial
  | cons event events ih => exact ⟨hall s event, fun m _ _ => ih m⟩

theorem EachStep.imp {other : S → E → Prop} (himp : ∀ s event, condition s event → other s event)
    {s : S} (heach : EachStep step condition s events) : EachStep step other s events := by
  induction events generalizing s with
  | nil => trivial
  | cons event events ih =>
    exact ⟨himp s event heach.1, fun m output hstep => ih (heach.2 m output hstep)⟩

theorem eachStep_and {other : S → E → Prop} {s : S} (hfirst : EachStep step condition s events)
    (hsecond : EachStep step other s events) :
    EachStep step (fun s event => condition s event ∧ other s event) s events := by
  induction events generalizing s with
  | nil => trivial
  | cons event events ih =>
    exact ⟨⟨hfirst.1, hsecond.1⟩, fun m output hstep =>
      ih (hfirst.2 m output hstep) (hsecond.2 m output hstep)⟩

/-- A property that every step keeps without a condition. -/
theorem run_always (keep : S → List O → Prop)
    (hstep : ∀ {s t event output outputs}, keep s outputs → step s event = some (t, output) →
      keep t (outputs ++ [output]))
    {s t : S} (hkeep : keep s []) (hrun : run step s events = some (t, outputs)) : keep t outputs :=
  have heach : EachStep step (fun _ _ => True) s events :=
    eachStep_of_forall (fun _ _ => trivial) s events
  run_induction keep (fun hkeep _ hfirst => hstep hkeep hfirst) [] hkeep heach hrun

theorem exists_run (htotal : ∀ s event, (step s event).isSome = true) (s : S) (events : List E) :
    ∃ t outputs, run step s events = some (t, outputs) := by
  induction events generalizing s with
  | nil => exact ⟨s, [], rfl⟩
  | cons event events ih =>
    obtain ⟨⟨m, output⟩, hfirst⟩ := Option.isSome_iff_exists.mp (htotal s event)
    obtain ⟨t, outputs, hrest⟩ := ih m
    exact ⟨t, output :: outputs, run_cons.mpr ⟨m, output, outputs, hfirst, hrest, rfl⟩⟩

/-! ## Steps that always have a result -/

/-- The step `next`, with its event for an output. -/
def total (next : S → E → S) (s : S) (event : E) : Option (S × E) := some (next s event, event)

variable {next : S → E → S}

theorem run_total (s : S) (events : List E) :
    run (total next) s events = some (events.foldl next s, events) := by
  induction events generalizing s with
  | nil => rfl
  | cons event events ih =>
    exact run_cons.mpr ⟨next s event, event, events, rfl, ih (next s event), rfl⟩

theorem eachStep_total_cons {s : S} {event : E} :
    EachStep (total next) condition s (event :: events) ↔
      condition s event ∧ EachStep (total next) condition (next s event) events := by
  refine and_congr_right fun _ => ⟨fun heach => heach _ _ rfl, fun heach m output hstep => ?_⟩
  cases hstep
  exact heach

theorem eachStep_total_append {s : S} {more : List E} :
    EachStep (total next) condition s (events ++ more) ↔
      EachStep (total next) condition s events ∧
        EachStep (total next) condition (events.foldl next s) more := by
  induction events generalizing s with
  | nil => exact ⟨fun heach => ⟨trivial, heach⟩, fun heach => heach.2⟩
  | cons event events ih =>
    rw [List.cons_append, eachStep_total_cons, eachStep_total_cons, ih, and_assoc]
    rfl

end Vetro.Machine
