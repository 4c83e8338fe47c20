import FostWright.Echo
import Mathlib.Algebra.BigOperators.Group.Finset.Basic
import Mathlib.Data.Fintype.Basic

/-!
# A pool of simulators, to the end of `close`

`exec_helper` over `n` simulators. It dispatches jobs, sets `input_complete` and waits until all work is done; then `close` goes from child to
child, closes its stdin and waits for its process. The handler of SIGCHLD is set without `SA_RESTART`, so the end of another process cuts
such a wait short; `close` does not look at what `waitpid` returns and goes on. `sigchild_reactor` looks for children that have ended, and ends
the manager over one that still has jobs. There are no connections. The run is over when `close` has returned.
-/

namespace FostWright

open Lib

/-- Where the main thread of `exec_helper` stands. -/
inductive MainStage where
  /-- at the blocker -/
  | blocked
  /-- in `close`, before `stdin.close` of child `k`; past the last child it has returned -/
  | closing (k : Nat)
  /-- in `close`, in `waitpid` for child `k` -/
  | waiting (k : Nat)
  deriving DecidableEq

namespace MainStage

/-- How many of the pipes have been closed. -/
def closed : MainStage → Nat
  | .blocked => 0
  | .closing k => k
  | .waiting k => k + 1

/-- How many of the waits are over. -/
def passed : MainStage → Nat
  | .blocked => 0
  | .closing k => k
  | .waiting k => k

/-- How many actions of the main thread are left. -/
def remaining (n : Nat) : MainStage → Nat
  | .blocked => 2 * n + 1
  | .closing k => 2 * (n - k)
  | .waiting k => 2 * (n - k) - 1

end MainStage

/-- The children, and the main thread. `signalled` says that a SIGCHLD has come since it called `waitpid`, `abandoned` are the children for
which the wait was cut short. `panicked` says that `sigchild_reactor` has ended the manager. -/
structure Simulation (n : Nat) where
  child : Fin n → Simulated
  inputComplete : Bool
  stage : MainStage
  signalled : Bool
  abandoned : List (Fin n)
  panicked : Bool

/-- The actions of one child; the manager sets `input_complete` and closes the pipe. -/
def Simulated.Action.ofChild : Simulated.Action → Bool
  | .inputComplete => false
  | .close => false
  | _ => true

namespace Simulation

variable {n : Nat}

/-- What happens. -/
inductive Action (n : Nat) where
  | child (i : Fin n) (a : Simulated.Action)
  /-- `input_complete` is set -/
  | inputComplete
  /-- `wait_until_all_done` returns -/
  | allDone
  /-- `close` closes the stdin of child `i` -/
  | close (i : Fin n)
  /-- `waitpid` returns in `close`, child `i` having ended -/
  | waitpid (i : Fin n)
  /-- `waitpid` returns in `close` with `EINTR` -/
  | interrupt (i : Fin n)
  /-- `sigchild_reactor` finds that child `i` has ended -/
  | sigchild (i : Fin n)

/-- A child becomes another. -/
def put (s : Simulation n) (i : Fin n) (child : Simulated) : Simulation n := { s with child := Function.update s.child i child }

/-- The supervisor of child `i` ends when the child becomes another. -/
def Ends (s : Simulation n) (i : Fin n) (child : Simulated) : Prop := (s.child i).supervisor = .running ∧ child.supervisor ≠ .running

instance (s : Simulation n) (i : Fin n) (child : Simulated) : Decidable (s.Ends i child) := inferInstanceAs (Decidable (_ ∧ _))

/-- `close` has returned. -/
def Returned (s : Simulation n) : Prop := s.stage = .closing n

instance (s : Simulation n) : Decidable s.Returned := inferInstanceAs (Decidable (_ = _))

theorem put_self (s : Simulation n) (i : Fin n) (child : Simulated) : (s.put i child).child i = child := Function.update_self _ _ _

theorem put_other (s : Simulation n) {i j : Fin n} (hj : j ≠ i) (child : Simulated) : (s.put i child).child j = s.child j :=
  Function.update_of_ne hj _ _

/-- One action. -/
def step (canDie : Bool) (s : Simulation n) (a : Action n) : Option (Simulation n) :=
  if s.panicked ∨ s.Returned then none
  else
    match a with
    | .child i a =>
      if a.ofChild then
        ((s.child i).step canDie a).map (fun child => { s.put i child with signalled := s.signalled || decide (s.Ends i child) })
      else none
    | .inputComplete => some { s with inputComplete := true, child := fun i => { s.child i with inputComplete := true } }
    | .allDone =>
      if s.stage = .blocked ∧ s.inputComplete ∧ ∀ i, (s.child i).child.commands.elems = [] then some { s with stage := .closing 0 } else none
    | .close i =>
      if s.stage = .closing i then
        ((s.child i).step canDie .close).map (fun child => { s.put i child with stage := .waiting i, signalled := false })
      else none
    | .waitpid i =>
      if s.stage = .waiting i ∧ (s.child i).supervisor ≠ .running then some { s with stage := .closing (i + 1) } else none
    | .interrupt i =>
      if s.stage = .waiting i ∧ (s.child i).supervisor = .running ∧ s.signalled then
        some { s with stage := .closing (i + 1), abandoned := s.abandoned ++ [i] }
      else none
    | .sigchild i =>
      if (s.child i).supervisor ≠ .running then some { s with panicked := decide ((s.child i).child.commands.elems ≠ []) } else none

/-- New children. -/
def system (canDie : Bool) (n : Nat) : System (Simulation n) (Action n) where
  init :=
    { child := fun _ => (Simulated.system canDie).init
      inputComplete := false
      stage := .blocked
      signalled := false
      abandoned := []
      panicked := false }
  step := step canDie

/-- What each action needs and leads to, one case for each branch of `step`. -/
inductive Steps (canDie : Bool) (s : Simulation n) : Action n → Simulation n → Prop where
  | child {i : Fin n} {a : Simulated.Action} {child : Simulated} (own : a.ofChild = true)
      (stepped : (s.child i).step canDie a = some child) :
      Steps canDie s (.child i a) { s.put i child with signalled := s.signalled || decide (s.Ends i child) }
  | inputComplete :
      Steps canDie s .inputComplete { s with inputComplete := true, child := fun i => { s.child i with inputComplete := true } }
  | allDone (stage : s.stage = .blocked) (complete : s.inputComplete = true) (empty : ∀ i, (s.child i).child.commands.elems = []) :
      Steps canDie s .allDone { s with stage := .closing 0 }
  | close {i : Fin n} {child : Simulated} (stage : s.stage = .closing i) (stepped : (s.child i).step canDie .close = some child) :
      Steps canDie s (.close i) { s.put i child with stage := .waiting i, signalled := false }
  | waitpid {i : Fin n} (stage : s.stage = .waiting i) (ended : (s.child i).supervisor ≠ .running) :
      Steps canDie s (.waitpid i) { s with stage := .closing (i + 1) }
  | interrupt {i : Fin n} (stage : s.stage = .waiting i) (running : (s.child i).supervisor = .running) (signalled : s.signalled = true) :
      Steps canDie s (.interrupt i) { s with stage := .closing (i + 1), abandoned := s.abandoned ++ [i] }
  | sigchild {i : Fin n} (ended : (s.child i).supervisor ≠ .running) :
      Steps canDie s (.sigchild i) { s with panicked := decide ((s.child i).child.commands.elems ≠ []) }

/-- A step is one of the cases, and the manager has neither panicked before nor returned from `close`. -/
theorem steps_of_step {canDie : Bool} {s s' : Simulation n} {a : Action n} (h : s.step canDie a = some s') :
    (s.panicked = false ∧ ¬ s.Returned) ∧ s.Steps canDie a s' := by
  obtain ⟨hgoes, h⟩ := Option.ite_none_left_eq_some.mp h
  rw [not_or] at hgoes
  refine ⟨⟨Bool.eq_false_iff.mpr hgoes.1, hgoes.2⟩, ?_⟩
  rcases a with ⟨i, a⟩ | _ | _ | i | i | i | i
  · obtain ⟨hown, h⟩ := Option.ite_none_right_eq_some.mp h
    obtain ⟨child, hchild, rfl⟩ := Option.map_eq_some_iff.mp h
    exact .child hown hchild
  · obtain rfl := Option.some.inj h
    exact .inputComplete
  · obtain ⟨⟨hstage, hcomplete, hempty⟩, h⟩ := Option.ite_none_right_eq_some.mp h
    obtain rfl := Option.some.inj h
    exact .allDone hstage hcomplete hempty
  · obtain ⟨hstage, h⟩ := Option.ite_none_right_eq_some.mp h
    obtain ⟨child, hchild, rfl⟩ := Option.map_eq_some_iff.mp h
    exact .close hstage hchild
  · obtain ⟨⟨hstage, hended⟩, h⟩ := Option.ite_none_right_eq_some.mp h
    obtain rfl := Option.some.inj h
    exact .waitpid hstage hended
  · obtain ⟨⟨hstage, hrunning, hsignalled⟩, h⟩ := Option.ite_none_right_eq_some.mp h
    obtain rfl := Option.some.inj h
    exact .interrupt hstage hrunning hsignalled
  · obtain ⟨hended, h⟩ := Option.ite_none_right_eq_some.mp h
    obtain rfl := Option.some.inj h
    exact .sigchild hended

/-- No job is dispatched that is empty or has a newline or a NUL. -/
def AnswerableJobs (s : Simulation n) : Action n → Prop
  | .child i a => (s.child i).AnswerableJobs a
  | _ => True

instance (s : Simulation n) : ∀ a, Decidable (s.AnswerableJobs a)
  | .child i a => inferInstanceAs (Decidable ((s.child i).AnswerableJobs a))
  | .inputComplete | .allDone | .close _ | .waitpid _ | .interrupt _ | .sigchild _ => inferInstanceAs (Decidable True)

/-! ## Progress -/

/-- What takes the pool to its end: the children go on without a crash, and the main thread does. -/
def Productive (s : Simulation n) : Action n → Prop
  | .child i a => (s.child i).Productive a
  | .allDone => True
  | .close _ => True
  | .waitpid _ => True
  | .interrupt _ => True
  | _ => False

/-- What is left to do for the children and for the main thread. -/
def remaining (s : Simulation n) : Nat := ∑ i, (s.child i).remaining + s.stage.remaining n

end Simulation

end FostWright
