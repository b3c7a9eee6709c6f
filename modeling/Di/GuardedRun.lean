import Mathlib.Tactic

/-!
# Runs whose steps satisfy a guard

A system is a total step function on states and events.  A run is the list of
its events; `states` lists every state the run visits.  `Guarded` restricts a
run to events that are admitted by the state in which they are taken.  The
invariant rules below are the only induction over runs used in the project.
-/

namespace Di
namespace GuardedRun

variable {σ ε : Type*}

/-- The states visited by a run, the starting state included. -/
def states (step : σ → ε → σ) : σ → List ε → List σ
  | state, [] => [state]
  | state, event :: rest => state :: states step (step state event) rest

/-- Every event of the run is admitted in the state where it is taken. -/
def Guarded (step : σ → ε → σ) (admits : σ → ε → Prop) :
    σ → List ε → Prop
  | _, [] => True
  | state, event :: rest =>
      admits state event ∧ Guarded step admits (step state event) rest

instance Guarded.decidable (step : σ → ε → σ) (admits : σ → ε → Prop)
    [∀ state event, Decidable (admits state event)] :
    (state : σ) → (events : List ε) → Decidable (Guarded step admits state events)
  | _, [] => inferInstanceAs (Decidable True)
  | state, event :: rest =>
      have := Guarded.decidable step admits (step state event) rest
      inferInstanceAs (Decidable (_ ∧ _))

def final (step : σ → ε → σ) (state : σ) (events : List ε) : σ :=
  events.foldl step state

@[simp] theorem final_nil (step : σ → ε → σ) (state : σ) :
    final step state [] = state := rfl

@[simp] theorem final_cons
    (step : σ → ε → σ) (state : σ) (event : ε) (rest : List ε) :
    final step state (event :: rest) = final step (step state event) rest := rfl

theorem mem_states_self (step : σ → ε → σ) (state : σ) (events : List ε) :
    state ∈ states step state events := by
  cases events <;> simp [states]

theorem final_mem_states (step : σ → ε → σ) (state : σ) (events : List ε) :
    final step state events ∈ states step state events := by
  induction events generalizing state with
  | nil => simp [states]
  | cons event rest ih =>
      rw [final_cons]
      exact List.mem_cons_of_mem state (ih (step state event))

/-- An invariant which every admitted step keeps holds in every state of a
guarded run. -/
theorem invariant_of_guarded
    {step : σ → ε → σ} {admits : σ → ε → Prop} {Inv : σ → Prop}
    (hstep : ∀ state event, Inv state → admits state event →
      Inv (step state event))
    {state : σ} {events : List ε}
    (hstart : Inv state) (hguard : Guarded step admits state events) :
    ∀ visited ∈ states step state events, Inv visited := by
  induction events generalizing state with
  | nil =>
      intro visited hvisited
      rw [states, List.mem_singleton] at hvisited
      exact hvisited ▸ hstart
  | cons event rest ih =>
      intro visited hvisited
      rw [states, List.mem_cons] at hvisited
      rcases hvisited with rfl | hrest
      · exact hstart
      · exact ih (hstep state event hstart hguard.1) hguard.2 visited hrest

theorem guarded_true
    (step : σ → ε → σ) (state : σ) (events : List ε) :
    Guarded step (fun _ _ => True) state events := by
  induction events generalizing state with
  | nil => trivial
  | cons event rest ih => exact ⟨trivial, ih (step state event)⟩

/-- The unguarded case: an invariant of every step holds along every run. -/
theorem invariant_of_step
    {step : σ → ε → σ} {Inv : σ → Prop}
    (hstep : ∀ state event, Inv state → Inv (step state event))
    {state : σ} (events : List ε) (hstart : Inv state) :
    ∀ visited ∈ states step state events, Inv visited := by
  have hguard := guarded_true step state events
  exact invariant_of_guarded
    (fun current event hinv _ => hstep current event hinv) hstart hguard

/-- If an invariant of all runs turns a safe successor into an admitted
event, then a run all of whose states are safe is guarded. -/
theorem guarded_of_safe
    {step : σ → ε → σ} {admits : σ → ε → Prop} {Inv Safe : σ → Prop}
    (hinv : ∀ state event, Inv state → Safe state → Safe (step state event) →
      Inv (step state event))
    (hadmitted : ∀ state event, Inv state → Safe state →
      Safe (step state event) → admits state event)
    {state : σ} {events : List ε} (hstart : Inv state)
    (hsafe : ∀ visited ∈ states step state events, Safe visited) :
    Guarded step admits state events := by
  induction events generalizing state with
  | nil => trivial
  | cons event rest ih =>
      have hhere : Safe state := hsafe state (by simp [states])
      have hnext : Safe (step state event) :=
        hsafe _ (List.mem_cons_of_mem state (mem_states_self step _ rest))
      refine ⟨hadmitted state event hstart hhere hnext, ?_⟩
      apply ih (hinv state event hstart hhere hnext)
      intro visited hvisited
      exact hsafe visited (List.mem_cons_of_mem state hvisited)

/-- A run is guarded if each of its events is admitted after the ones before it. -/
theorem guarded_iff_split
    {step : σ → ε → σ} {admits : σ → ε → Prop} {state : σ} {events : List ε} :
    Guarded step admits state events ↔
      ∀ earlier event later, events = earlier ++ event :: later →
        admits (final step state earlier) event := by
  induction events generalizing state with
  | nil => simp [Guarded]
  | cons first rest ih =>
      rw [Guarded, ih]
      constructor
      · rintro ⟨hfirst, hrest⟩ earlier event later hsplit
        cases earlier with
        | nil =>
            injection hsplit with hevent
            exact hevent ▸ hfirst
        | cons other earlier =>
            injection hsplit with hother hsplit
            subst hother
            exact hrest earlier event later hsplit
      · intro hall
        refine ⟨hall [] first rest rfl, ?_⟩
        intro earlier event later hsplit
        exact hall (first :: earlier) event later (hsplit ▸ rfl)

end GuardedRun
end Di
