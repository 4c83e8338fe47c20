import FostWright.Capacity
import FostWright.Lib.Service
import FostWright.Lib.System

/-!
# The times in `job_times`

The timer of a job starts when the job is built for its `push_back`, and starts again when a completion makes the job the front of its
queue; what it shows at the completion of the job goes to `job_times`, which all children share. The clock stands still within an event,
which is code without a yield. Beside the books stands the history that they do not keep: when the jobs were pushed and completed.
-/

namespace FostWright

open Lib

/-- The queue of child `k`, front first. -/
def ChildPool.queueOf (pool : ChildPool) (k : Nat) : List Job :=
  ((pool.children[k]?).map (fun child => child.commands.elems)).getD []

/-- A `push_back` on the queue of a child: the job by its token, and when. -/
structure Push where
  child : Nat
  task : Token
  time : Nat

/-- The completion of the front of the queue of a child: the job by its token, when, and what was recorded in `job_times`. -/
structure Completion where
  child : Nat
  task : Token
  time : Nat
  recorded : Nat

/-- The `push_back` of an event. -/
def Control.pushBacks (s : Control) : Event → List Push
  | .written =>
    match s.call with
    | .writing _ task k => [{ child := k, task := task, time := s.cap.now }]
    | _ => []
  | _ => []

/-- The completion in an event that leads to `s'`: there is one for what is new in `job_times`. -/
def Control.completions (s s' : Control) : Event → List Completion
  | .stdout k _ =>
    match (s.cap.pool.children[k]?).bind (fun child => child.commands.front?) with
    | some job =>
      (s'.cap.pool.jobTimes.drop s.cap.pool.jobTimes.length).map (fun recorded =>
        { child := k, task := job.limiter, time := s.cap.now, recorded := recorded })
    | none => []
  | _ => []

/-- The books of a process, with the pushes and the completions so far. -/
structure JobTimes where
  control : Control
  pushes : List Push
  completions : List Completion

namespace JobTimes

/-- One event. -/
def step (peer : Peering) (s : JobTimes) (e : Event) : Option JobTimes :=
  (s.control.step peer e).map (fun control =>
    { control := control
      pushes := s.pushes ++ s.control.pushBacks e
      completions := s.completions ++ s.control.completions control e })

/-- A process with `n` children, from its start. -/
def system (peer : Peering) (n : Nat) : System JobTimes Event where
  init := { control := { cap := Capacity.init n, call := .idle }, pushes := [], completions := [] }
  step := step peer

/-- The pushes on the queue of child `k`. -/
def pushesOf (s : JobTimes) (k : Nat) : List Push := s.pushes.filter (fun p => p.child = k)

/-- The completions of child `k`. -/
def completionsOf (s : JobTimes) (k : Nat) : List Completion := s.completions.filter (fun c => c.child = k)

/-- The interval of each job that child `k` has completed: from the later of its push and the completion before it on that child up to
its own completion. -/
def intervals (s : JobTimes) (k : Nat) : List (Nat × Nat) :=
  service none ((s.pushesOf k).map Push.time) ((s.completionsOf k).map Completion.time)

end JobTimes

end FostWright
