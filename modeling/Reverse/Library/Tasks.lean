import Mathlib.Init

/-!
# Nested calls as a stack of tasks

A program whose functions call each other through a shared state is run with a
stack of what is still to be done.  Executing a task changes the state and puts
the tasks it starts in front of the others.  Two facts carry the proofs about
such a program: what is done first does not depend on what is below it on the
stack, and the result does not depend on the fuel.
-/

namespace Reverse.Tasks

variable {τ σ : Type} (exec : τ → σ → List τ × σ)

def run : Nat → List τ → σ → Option σ
  | _, [], state => some state
  | 0, _ :: _, _ => none
  | fuel + 1, task :: tasks, state =>
    run fuel ((exec task state).1 ++ tasks) (exec task state).2

/-- The tasks end and leave the state `last`. -/
def Runs (tasks : List τ) (state last : σ) : Prop :=
  ∃ fuel, run exec fuel tasks state = some last

variable {exec}

theorem run_more (ran : run exec fuel tasks state = some last) (more : Nat) :
    run exec (fuel + more) tasks state = some last := by
  induction fuel generalizing tasks state with
  | zero =>
    cases tasks with
    | nil =>
      cases ran
      cases more <;> rfl
    | cons task tasks => cases ran
  | succ fuel ih =>
    cases tasks with
    | nil =>
      cases ran
      rw [Nat.add_right_comm]
      rfl
    | cons task tasks =>
      rw [Nat.add_right_comm]
      exact ih ran

theorem run_append (ran : run exec fuel first state = some middle)
    (later : run exec more second middle = some last) :
    run exec (fuel + more) (first ++ second) state = some last := by
  induction fuel generalizing first state with
  | zero =>
    cases first with
    | nil =>
      cases ran
      rwa [Nat.zero_add]
    | cons task tasks => cases ran
  | succ fuel ih =>
    cases first with
    | nil =>
      cases ran
      rw [Nat.add_comm]
      exact run_more later _
    | cons task tasks =>
      rw [Nat.add_right_comm, List.cons_append, run, ← List.append_assoc]
      exact ih ran

theorem Runs.unique (first : Runs exec tasks state left)
    (second : Runs exec tasks state right) : left = right := by
  obtain ⟨fuel, ran⟩ := first
  obtain ⟨more, again⟩ := second
  have leftRan := run_more ran more
  rw [Nat.add_comm, run_more again fuel] at leftRan
  exact (Option.some.inj leftRan).symm

theorem runs_nil (state : σ) : Runs exec [] state state := ⟨0, rfl⟩

theorem Runs.append (ran : Runs exec first state middle) (later : Runs exec second middle last) :
    Runs exec (first ++ second) state last := by
  obtain ⟨fuel, ran⟩ := ran
  obtain ⟨more, later⟩ := later
  exact ⟨fuel + more, run_append ran later⟩

theorem Runs.cons (first : Runs exec [task] state middle) (later : Runs exec tasks middle last) :
    Runs exec (task :: tasks) state last :=
  first.append later

theorem Runs.call (executed : exec task state = (started, after))
    (ran : Runs exec started after last) : Runs exec [task] state last := by
  obtain ⟨fuel, ran⟩ := ran
  refine ⟨fuel + 1, ?_⟩
  rw [run, executed, List.append_nil]
  exact ran

end Reverse.Tasks
