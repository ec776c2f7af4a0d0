import TreeWatch.Proofs.Tracker.Changes

/-!
# Runs

A run is a row of steps that a tracker takes, each in a file tree and at a time of its own, so that
anything may happen to the tree in between. What happens to the source counts as a step too: events
are put into its queue, truthful or not, and it is told what to refuse.

A run keeps its history, so that what holds in the state that it reaches can be said to depend on
what happened on the way.
-/

namespace TreeWatch

namespace Tracker

open TreeWatch.Action

inductive Step where
  | start
  | push (event : Event)
  /-- Which paths are refused, and whether starting over is. -/
  | regulate (refused : List Path) (refusesReset : Bool)
  | pump
  | handle (event : Event)
  | expire
  | check
  | rebuild

def Step.act : Step → Action Tracker Unit
  | .start => do
    let _ ← Tracker.start
  | .push event => change fun tracker => { tracker with source := tracker.source.push event }
  | .regulate refused refusesReset =>
    change fun tracker => { tracker with source := { tracker.source with refused, refusesReset } }
  | .pump => do
    let _ ← Tracker.pump
  | .handle event => do
    let _ ← Tracker.handle event
  | .expire => do
    let _ ← Tracker.expire
  | .check => do
    let _ ← Tracker.check
  | .rebuild => do
    let _ ← Tracker.rebuild

/-- A step with the moment and the state in which it is taken. -/
structure Transition where
  moment : Moment
  before : Tracker
  step : Step

namespace Transition

def reply (transition : Transition) : Reply Tracker Unit :=
  transition.step.act transition.moment transition.before

def after (transition : Transition) : Tracker := transition.reply.state

def Succeeds (transition : Transition) : Prop := transition.reply.result.toBool = true

instance (transition : Transition) : Decidable transition.Succeeds :=
  inferInstanceAs (Decidable (_ = true))

/-- There was room for every entry that had to be made. -/
def FindsRoom (transition : Transition) : Prop :=
  ∀ capacity, transition.reply.result ≠ .error (.noRoom capacity)

instance (transition : Transition) : Decidable transition.FindsRoom :=
  match h : transition.reply.result with
  | .error (.noRoom capacity) => isFalse fun hroom => hroom capacity h
  | .error (.diverged _) | .error (.source _) | .ok _ =>
    isTrue fun _ hfault => by simp [h] at hfault

/-- Events come from the queue only. -/
def TakesFromQueue (transition : Transition) : Prop :=
  match transition.step with
  | .handle _ => False
  | _ => True

instance (transition : Transition) : Decidable transition.TakesFromQueue := by
  unfold TakesFromQueue
  split <;> infer_instance

def event? (transition : Transition) : Option Event :=
  match transition.step with
  | .pump => transition.before.source.next?.map (·.1)
  | .handle event => some event
  | _ => none

/-- Directories may come: the tracker starts, it starts over, or an event tells of an arrival. -/
def TakesIn (transition : Transition) : Prop :=
  transition.step = .start ∨ transition.after.counts.rebuilds ≠ transition.before.counts.rebuilds ∨
    ∃ event, transition.event? = some event ∧ event.Arrives

end Transition

/-- The states that a tracker comes to by admitted transitions, with these transitions in order. -/
inductive Run (admits : Transition → Prop) : Tracker → List Transition → Tracker → Prop
  | nil (t : Tracker) : Run admits t [] t
  | cons {transition : Transition} {history : List Transition} {u : Tracker}
      (hadmits : admits transition) (h : Run admits transition.after history u) :
      Run admits transition.before (transition :: history) u

variable {admits : Transition → Prop} {t u : Tracker} {history : List Transition}

/-- What every admitted transition keeps, a run keeps. -/
theorem Run.keeps {P : Tracker → Prop} (h : Run admits t history u) (hfirst : P t)
    (hstep : ∀ transition, admits transition → P transition.before → P transition.after) : P u := by
  induction h with
  | nil t => exact hfirst
  | cons hadmits _ ih => exact ih (hstep _ hadmits hfirst)

theorem Run.cons_inv {transition : Transition} (h : Run admits t (transition :: history) u) :
    admits transition ∧ transition.before = t ∧ Run admits transition.after history u := by
  generalize htaken : transition :: history = taken at h
  cases h with
  | nil => cases htaken
  | cons hadmits hrest =>
    cases htaken
    exact ⟨hadmits, rfl, hrest⟩

section Playing

def transitions (t : Tracker) : List (Moment × Step) → List Transition
  | [] => []
  | (moment, step) :: rest =>
    ⟨moment, t, step⟩ :: transitions (step.act moment t).state rest

theorem mem_steps_of_mem_transitions {steps : List (Moment × Step)} {transition : Transition}
    (h : transition ∈ transitions t steps) : (transition.moment, transition.step) ∈ steps := by
  induction steps generalizing t with
  | nil => cases h
  | cons taken rest ih =>
    rcases List.mem_cons.mp h with rfl | h
    · exact List.mem_cons_self
    · exact List.mem_cons_of_mem _ (ih h)

def outcome (t : Tracker) (steps : List (Moment × Step)) : Tracker :=
  steps.foldl (fun t taken => (taken.2.act taken.1 t).state) t

theorem run_transitions {steps : List (Moment × Step)}
    (h : ∀ transition ∈ transitions t steps, admits transition) :
    Run admits t (transitions t steps) (outcome t steps) := by
  induction steps generalizing t with
  | nil => exact .nil t
  | cons taken rest ih =>
    obtain ⟨moment, step⟩ := taken
    exact @Run.cons admits ⟨moment, t, step⟩ _ _ (h _ List.mem_cons_self)
      (ih fun transition htransition => h transition (List.mem_cons_of_mem _ htransition))

end Playing

section Steps

variable {transition : Transition} {P : Tracker → Prop}

/-- How a step ends, from how whatever it may do ends. -/
theorem Transition.ends_act {done : Tracker → Prop} {failed : Fault → Tracker → Prop}
    (hsource : ∀ source : Source, source.live = transition.before.source.live →
      source.nextId = transition.before.source.nextId → done { transition.before with source })
    (hstart : transition.step = .start →
      cover.Ends transition.moment transition.before (fun _ u => done u) failed)
    (hpump : ∀ event source, transition.step = .pump →
      transition.before.source.next? = some (event, source) →
      (handle event).Ends transition.moment { transition.before with
        source } (fun _ u => done u) failed)
    (hhandle : ∀ event, transition.step = .handle event →
      (handle event).Ends transition.moment transition.before (fun _ u => done u) failed)
    (hexpired : done transition.before.expired)
    (hcheck : check.Ends transition.moment transition.before (fun _ u => done u) failed)
    (hrebuild : rebuild.Ends transition.moment transition.before (fun _ u => done u) failed) :
    transition.step.act.Ends transition.moment transition.before (fun _ u => done u) failed := by
  cases hstep : transition.step with
  | start => exact ends_bind.mpr (ends_start.mpr (hstart hstep))
  | push event => exact ends_change.mpr (hsource _ rfl rfl)
  | regulate refused refusesReset => exact ends_change.mpr (hsource _ rfl rfl)
  | pump =>
    refine ends_bind.mpr (ends_pump.mpr ?_)
    split
    · exact hsource _ rfl rfl
    · next hnext => exact hpump _ _ hstep hnext
  | handle event => exact ends_bind.mpr (hhandle event hstep)
  | expire => exact ends_bind.mpr (ends_expire.mpr hexpired)
  | check => exact ends_bind.mpr hcheck
  | rebuild => exact ends_bind.mpr hrebuild

theorem Transition.Succeeds.of_ends (h : transition.Succeeds)
    (hends : transition.step.act.Ends transition.moment transition.before (fun _ u => P u)
      fun _ _ => True) : P transition.after := by
  cases hresult : transition.reply.result with
  | ok a => exact hends.of_ok hresult
  | error fault =>
    rw [Transition.Succeeds, hresult] at h
    exact absurd h Bool.false_ne_true

/-- A step that cannot fail succeeds. -/
theorem Transition.succeeds_and
    (hends : transition.step.act.Ends transition.moment transition.before
    (fun _ u => P u) fun _ _ => False) : transition.Succeeds ∧ P transition.after := by
  obtain ⟨a, hresult, hafter⟩ := hends.exists_ok
  have hreply : transition.reply.result = .ok a := hresult
  exact ⟨by rw [Transition.Succeeds, hreply]; rfl, hafter⟩

theorem Transition.ends_event {event : Event} {failed : Fault → Tracker → Prop}
    (hevent : transition.event? = some event)
    (h : ∀ source, source = transition.before.source ∨
        transition.before.source.next? = some (event, source) →
      (handle event).Ends transition.moment { transition.before with source } (fun _ u => P u)
        failed) :
    transition.step.act.Ends transition.moment transition.before (fun _ u => P u) failed := by
  rcases hstep : transition.step with _ | _ | _ | _ | taken | _ | _ | _ <;>
    simp only [Transition.event?, hstep, reduceCtorEq, Option.some_inj] at hevent
  · obtain ⟨next, hnext, rfl⟩ := Option.map_eq_some_iff.mp hevent
    refine ends_bind.mpr (ends_pump.mpr ?_)
    simp only [hnext]
    exact h next.2 (.inr hnext)
  · subst hevent
    exact ends_bind.mpr (h transition.before.source (.inl rfl))

theorem Transition.FindsRoom.of_ends (hroom : transition.FindsRoom)
    (hends : transition.step.act.Ends transition.moment transition.before (fun _ u => P u)
      fun fault u => P u ∨ ∃ capacity, fault = .noRoom capacity) : P transition.after := by
  cases hresult : transition.reply.result with
  | ok a => exact hends.of_ok hresult
  | error fault =>
    refine (hends.of_error hresult).resolve_right fun ⟨capacity, hcapacity⟩ => ?_
    exact hroom capacity (hcapacity ▸ hresult)

/-- What is stable is kept by every step that finds room, if handling keeps it and it does not
depend on what waits in the queue. -/
theorem Stable.after (hP : Stable P) (h : P transition.before) (hroom : transition.FindsRoom)
    (hsource : ∀ {t : Tracker} {source : Source}, P t → source.live = t.source.live →
      source.nextId = t.source.nextId → P { t with source })
    (hpump : ∀ event source, transition.before.source.next? = some (event, source) →
      (handle event).Ends transition.moment { transition.before with source } (fun _ u => P u)
        fun fault u => P u ∨ ∃ capacity, fault = .noRoom capacity)
    (hhandle : ∀ event, transition.step = .handle event →
      (handle event).Ends transition.moment transition.before (fun _ u => P u)
        fun fault u => P u ∨ ∃ capacity, fault = .noRoom capacity) : P transition.after := by
  apply hroom.of_ends
  exact Transition.ends_act (fun _ => hsource h) (fun _ => hP.grows.ends_cover h)
    (fun _ _ _ => hpump _ _) hhandle (hP.shed h (shed_expired _)) (hP.grows.ends_check h)
    (hP.grows.ends_rebuild h)

end Steps

end Tracker

end TreeWatch
