import TreeWatch.Log.Line
import TreeWatch.Tracker.Basic

/-!
# Actions

An action looks at the file tree and the clock, changes a state, writes log lines, and ends with a
value or a fault. A fault leaves the state as it was when it arose: what was done before it stays
done.
-/

namespace TreeWatch

/-- What an action can look at and not change. -/
structure Moment where
  tree : FileTree
  /-- The time in milliseconds. -/
  now : Nat

structure Reply (σ α : Type) where
  result : Except Fault α
  state : σ
  log : List Log.Line

def Action (σ α : Type) : Type := Moment → σ → Reply σ α

namespace Action

variable {σ τ α β : Type}

def done (a : α) : Action σ α := fun _ s => ⟨.ok a, s, []⟩

/-- One action after the other; the second gets the value of the first and is left out after a
fault. -/
def andThen (x : Action σ α) (f : α → Action σ β) : Action σ β := fun moment s =>
  match x moment s with
  | ⟨.error fault, s, log⟩ => ⟨.error fault, s, log⟩
  | ⟨.ok a, s, log⟩ =>
    let reply := f a moment s
    { reply with log := log ++ reply.log }

instance : Monad (Action σ) where
  pure := done
  bind := andThen

def fail (fault : Fault) : Action σ α := fun _ s => ⟨.error fault, s, []⟩

def say (lines : List Log.Line) : Action σ Unit := fun _ s => ⟨.ok (), s, lines⟩

def state : Action σ σ := fun _ s => ⟨.ok s, s, []⟩

def change (f : σ → σ) : Action σ Unit := fun _ s => ⟨.ok (), f s, []⟩

def tree : Action σ FileTree := fun moment s => ⟨.ok moment.tree, s, []⟩

def now : Action σ Nat := fun moment s => ⟨.ok moment.now, s, []⟩

/-- An action on a part of a state. -/
def onPart (get : σ → τ) (put : τ → σ → σ) (x : Action τ α) : Action σ α := fun moment s =>
  let reply := x moment (get s)
  ⟨reply.result, put reply.state s, reply.log⟩

section Laws

variable (moment : Moment) (s : σ)

@[simp] theorem pure_apply (a : α) : (pure a : Action σ α) moment s = ⟨.ok a, s, []⟩ := rfl

@[simp] theorem fail_apply (fault : Fault) :
    (fail fault : Action σ α) moment s = ⟨.error fault, s, []⟩ := rfl

@[simp] theorem say_apply (lines : List Log.Line) : say lines moment s = ⟨.ok (), s, lines⟩ := rfl

@[simp] theorem state_apply : (state : Action σ σ) moment s = ⟨.ok s, s, []⟩ := rfl

@[simp] theorem change_apply (f : σ → σ) : change f moment s = ⟨.ok (), f s, []⟩ := rfl

@[simp] theorem tree_apply : (tree : Action σ FileTree) moment s = ⟨.ok moment.tree, s, []⟩ := rfl

@[simp] theorem now_apply : (now : Action σ Nat) moment s = ⟨.ok moment.now, s, []⟩ := rfl

theorem bind_apply (x : Action σ α) (f : α → Action σ β) :
    (x >>= f) moment s = match x moment s with
      | ⟨.error fault, s, log⟩ => ⟨.error fault, s, log⟩
      | ⟨.ok a, s, log⟩ => { f a moment s with log := log ++ (f a moment s).log } := by
  change andThen x f moment s = _
  unfold andThen
  split <;> rfl

end Laws

end Action

end TreeWatch
