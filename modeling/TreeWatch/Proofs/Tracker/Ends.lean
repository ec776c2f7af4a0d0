import TreeWatch.Tracker.Action

/-!
# How actions end

What holds when an action has ended, with a value or with a fault, said by what holds at its
beginning. Each building block of actions has its rule here, so that an action unfolds into a
statement about the states it goes through; log lines play no part in it.
-/

namespace TreeWatch

namespace Action

variable {σ α β : Type} {moment : Moment} {s : σ} {failed : Fault → σ → Prop}

/-- An action ends with a value and a state that satisfy `done`, or with a fault and a state that
satisfy `failed`. -/
def Ends (x : Action σ α) (moment : Moment) (s : σ) (done : α → σ → Prop)
    (failed : Fault → σ → Prop) : Prop :=
  match (x moment s).result with
  | .ok a => done a (x moment s).state
  | .error fault => failed fault (x moment s).state

section Rules

@[simp] theorem ends_pure {a : α} {done : α → σ → Prop} :
    (pure a : Action σ α).Ends moment s done failed ↔ done a s := .rfl

@[simp] theorem ends_fail {fault : Fault} {done : α → σ → Prop} :
    (fail fault : Action σ α).Ends moment s done failed ↔ failed fault s := .rfl

@[simp] theorem ends_say {lines : List Log.Line} {done : Unit → σ → Prop} :
    (say lines).Ends moment s done failed ↔ done () s := .rfl

@[simp] theorem ends_state {done : σ → σ → Prop} : state.Ends moment s done failed ↔ done s s :=
  .rfl

@[simp] theorem ends_change {f : σ → σ} {done : Unit → σ → Prop} :
    (change f).Ends moment s done failed ↔ done () (f s) := .rfl

@[simp] theorem ends_tree {done : FileTree → σ → Prop} :
    tree.Ends moment s done failed ↔ done moment.tree s := .rfl

@[simp] theorem ends_now {done : Nat → σ → Prop} :
    now.Ends moment s done failed ↔ done moment.now s := .rfl

@[simp] theorem ends_bind {x : Action σ α} {f : α → Action σ β} {done : β → σ → Prop} :
    (x >>= f).Ends moment s done failed ↔
      x.Ends moment s (fun a s => (f a).Ends moment s done failed) failed := by
  simp only [Ends, bind_apply]
  rcases x moment s with ⟨result, state, log⟩
  cases result <;> rfl

/-- An action on a part of a state ends as it does on that part alone. -/
theorem ends_onPart {τ : Type} {get : σ → τ} {put : τ → σ → σ} {x : Action τ α}
    {done : α → σ → Prop} :
    (onPart get put x).Ends moment s done failed ↔
      x.Ends moment (get s) (fun a part => done a (put part s))
        fun fault part => failed fault (put part s) := .rfl

end Rules

variable {x : Action σ α} {done next : α → σ → Prop} {broken : Fault → σ → Prop}

theorem Ends.mono (h : x.Ends moment s done failed) (hdone : ∀ a s, done a s → next a s)
    (hfailed : ∀ fault s, failed fault s → broken fault s) : x.Ends moment s next broken := by
  unfold Ends at h ⊢
  split at h
  · exact hdone _ _ h
  · exact hfailed _ _ h

theorem Ends.imp (h : x.Ends moment s done failed) (hdone : ∀ a s, done a s → next a s) :
    x.Ends moment s next failed :=
  h.mono hdone fun _ _ h => h

theorem Ends.of_ok (h : x.Ends moment s done failed) {a : α} (ha : (x moment s).result = .ok a) :
    done a (x moment s).state := by
  unfold Ends at h
  rwa [ha] at h

theorem Ends.of_error (h : x.Ends moment s done failed) {fault : Fault}
    (hfault : (x moment s).result = .error fault) : failed fault (x moment s).state := by
  unfold Ends at h
  rwa [hfault] at h

theorem Ends.exists_ok (h : x.Ends moment s done fun _ _ => False) :
    ∃ a, (x moment s).result = .ok a ∧ done a (x moment s).state := by
  cases hresult : (x moment s).result with
  | ok a => exact ⟨a, rfl, h.of_ok hresult⟩
  | error fault => exact (h.of_error hresult).elim

/-- What holds of every value and every fault holds however an action ends. -/
theorem Ends.of_forall (hdone : ∀ a s, done a s) (hfailed : ∀ fault s, failed fault s) :
    x.Ends moment s done failed := by
  unfold Ends
  split
  · exact hdone _ _
  · exact hfailed _ _

theorem Ends.and {done' : α → σ → Prop} {failed' : Fault → σ → Prop}
    (h : x.Ends moment s done failed) (h' : x.Ends moment s done' failed') :
    x.Ends moment s (fun a u => done a u ∧ done' a u) fun fault u => failed fault u ∧
      failed' fault u := by
  unfold Ends at h h' ⊢
  split <;> simp_all

theorem ends_reached :
    x.Ends moment s (fun _ u => u = (x moment s).state) fun _ u => u = (x moment s).state := by
  unfold Ends
  split <;> rfl

theorem Ends.state {P : σ → Prop} (h : x.Ends moment s (fun _ u => P u) fun _ u => P u) :
    P (x moment s).state := by
  unfold Ends at h
  split at h <;> exact h

end Action

end TreeWatch
