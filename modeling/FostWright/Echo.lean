import FostWright.Lib.Progress
import FostWright.Recovery
import FostWright.Supervisor

/-!
# The simulator as a worker

`echo` stands in for real work: it writes every line that it reads, and when it may die it draws a number before each answer and another one
at the end of each turn, and crashes where the number is over its limit. It runs under `fork_worker`, which starts the next one after a
crash. Its stream takes whole lines from the pipe, and each `r` is read from the back channel; what happens otherwise is in `Crash` and
`BackChannel`. What `echo` measures and reports is left out.
-/

namespace FostWright

open Lib

/-- Where the loop of `echo` stands. -/
inductive EchoPhase where
  /-- at `std::getline` -/
  | reading
  /-- at the draw before the answer to a command -/
  | working (command : Line)
  /-- at the draw at the end of a turn, with the state of the stream -/
  | checking (good : Bool)
  deriving DecidableEq

/-- What the worker has to do with the command that it has, and until it waits again. -/
def EchoPhase.remaining : EchoPhase → Nat
  | .reading => 2
  | .working _ => 5
  | .checking good => if good then 3 else 1

/-- A process that runs `echo`: the lines in the buffer of its stream, and where it stands. -/
structure Echo where
  buffer : List Line
  phase : EchoPhase

/-- A new process. -/
def Echo.start : Echo := { buffer := [], phase := .reading }

/-- The process of `fork_worker`. -/
inductive ForkWorker where
  | running
  /-- `handle_child_requests` has killed it -/
  | killed
  | returned
  deriving DecidableEq

/-- A child of the pool with `echo` for its worker. `closed` says that the manager has closed the stdin pipe. -/
structure Simulated where
  child : Childproc
  inputComplete : Bool
  stdin : List Line
  closed : Bool
  worker : Option Echo
  supervisor : ForkWorker
  stdout : List Line
  requests : Nat
  dispatched : List Line
  done : List Line

namespace Simulated

/-- What happens. A draw is over the limit or not. -/
inductive Action where
  /-- `next_job` writes a job to the child and pushes it on its queue -/
  | dispatch (job : Job)
  /-- the empty stream of `echo` takes the first `k` lines of the pipe -/
  | fill (k : Nat)
  /-- `std::getline` -/
  | getline
  /-- the draw before the answer, and the answer -/
  | work (high : Bool)
  /-- the draw at the end of the turn, and `while (in)` -/
  | check (high : Bool)
  /-- `handle_stdout` reads a line, at the time `now` -/
  | handleStdout (now : Nat)
  /-- `handle_child_requests` acts on an `r` -/
  | handleRequest
  /-- `input_complete` is set -/
  | inputComplete
  /-- the manager closes the stdin pipe -/
  | close

/-- The worker ends with an exit code; what `fork_worker` makes of it. -/
def exits (s : Simulated) (code : Fin 256) : Simulated :=
  match s.supervisor with
  | .running =>
    if wexitstatus (Termination.exited code).status = 0 then { s with worker := none, supervisor := .returned }
    else { s with worker := some Echo.start, requests := s.requests + 1 }
  | _ => { s with worker := none }

/-- One action, where `canDie` is the setting of the simulator. Once `input_complete` is set `next_job` is not called, and the pipe is closed
when all work is done. -/
def step (canDie : Bool) (s : Simulated) : Action → Option Simulated
  | .dispatch job =>
    if s.child.commands.full ∨ s.inputComplete then none
    else
      some { s with
        child := { commands := s.child.commands.pushBack job }
        stdin := s.stdin ++ linesIn job.command
        dispatched := s.dispatched ++ [job.command] }
  | .fill k =>
    match s.worker with
    | some { buffer := [], phase := .reading } =>
      if 0 < k ∧ k ≤ s.stdin.length then
        some { s with stdin := s.stdin.drop k, worker := some { buffer := s.stdin.take k, phase := .reading } }
      else none
    | _ => none
  | .getline =>
    match s.worker with
    | some { buffer := line :: rest, phase := .reading } =>
      some { s with worker := some { buffer := rest, phase := if line = [] then .checking true else .working line } }
    | some { buffer := [], phase := .reading } =>
      if s.stdin = [] ∧ s.closed then some { s with worker := some { buffer := [], phase := .checking false } } else none
    | _ => none
  | .work high =>
    match s.worker with
    | some { buffer := buffer, phase := .working command } =>
      if high && canDie then some (s.exits exitDuringWork)
      else some { s with worker := some { buffer := buffer, phase := .checking true }, stdout := s.stdout ++ [command] }
    | _ => none
  | .check high =>
    match s.worker with
    | some { buffer := buffer, phase := .checking good } =>
      if high && canDie then some (({ s with stdout := s.stdout ++ [crashedLine] } : Simulated).exits exitAfterWork)
      else if good then some { s with worker := some { buffer := buffer, phase := .reading } }
      else some (s.exits exitSuccess)
    | _ => none
  | .handleStdout now =>
    match s.stdout with
    | ret :: rest =>
      match s.child.handleStdout now (readLine ret) with
      | some (_, child) => some { s with stdout := rest, child := child, done := s.done ++ [readLine ret] }
      | none => some { s with stdout := rest }
    | [] => none
  | .handleRequest =>
    match s.requests with
    | pending + 1 =>
      some { s with
        requests := pending
        stdin := s.stdin ++ (s.child.resend s.inputComplete).flatMap linesIn
        supervisor := if s.inputComplete ∧ s.child.commands.elems = [] ∧ s.supervisor = .running then .killed else s.supervisor }
    | 0 => none
  | .inputComplete => some { s with inputComplete := true }
  | .close => if s.inputComplete ∧ s.child.commands.elems = [] then some { s with closed := true } else none

/-- A new child with its first worker. -/
def system (canDie : Bool) : System Simulated Action where
  init :=
    { child := { commands := CircularBuffer.empty }
      inputComplete := false
      stdin := []
      closed := false
      worker := some Echo.start
      supervisor := .running
      stdout := []
      requests := 0
      dispatched := []
      done := [] }
  step := step canDie

/-- What each action needs and leads to, one case for each branch of `step`. -/
inductive Steps (canDie : Bool) (s : Simulated) : Action → Simulated → Prop where
  | dispatch {job : Job} (room : s.child.commands.full = false) (early : s.inputComplete = false) :
      Steps canDie s (.dispatch job)
        { s with
          child := { commands := s.child.commands.pushBack job }
          stdin := s.stdin ++ linesIn job.command
          dispatched := s.dispatched ++ [job.command] }
  | fill {k : Nat} (worker : s.worker = some { buffer := [], phase := .reading }) (positive : 0 < k) (there : k ≤ s.stdin.length) :
      Steps canDie s (.fill k) { s with stdin := s.stdin.drop k, worker := some { buffer := s.stdin.take k, phase := .reading } }
  | getline {line : Line} {rest : List Line} (worker : s.worker = some { buffer := line :: rest, phase := .reading }) :
      Steps canDie s .getline
        { s with worker := some { buffer := rest, phase := if line = [] then .checking true else .working line } }
  | endOfFile (worker : s.worker = some { buffer := [], phase := .reading }) (empty : s.stdin = []) (closed : s.closed = true) :
      Steps canDie s .getline { s with worker := some { buffer := [], phase := .checking false } }
  | crash {high : Bool} {buffer : List Line} {command : Line} (worker : s.worker = some { buffer := buffer, phase := .working command })
      (dies : (high && canDie) = true) :
      Steps canDie s (.work high) (s.exits exitDuringWork)
  | answer {high : Bool} {buffer : List Line} {command : Line} (worker : s.worker = some { buffer := buffer, phase := .working command }) :
      Steps canDie s (.work high)
        { s with worker := some { buffer := buffer, phase := .checking true }, stdout := s.stdout ++ [command] }
  | crashAfter {high good : Bool} {buffer : List Line} (worker : s.worker = some { buffer := buffer, phase := .checking good })
      (dies : (high && canDie) = true) :
      Steps canDie s (.check high) (({ s with stdout := s.stdout ++ [crashedLine] } : Simulated).exits exitAfterWork)
  | turn {high : Bool} {buffer : List Line} (worker : s.worker = some { buffer := buffer, phase := .checking true }) :
      Steps canDie s (.check high) { s with worker := some { buffer := buffer, phase := .reading } }
  | finished {high : Bool} {buffer : List Line} (worker : s.worker = some { buffer := buffer, phase := .checking false }) :
      Steps canDie s (.check high) (s.exits exitSuccess)
  | matched {now : Nat} {ret : Line} {rest : List Line} {job : Job} {child : Childproc} (written : s.stdout = ret :: rest)
      (answers : s.child.handleStdout now (readLine ret) = some (job, child)) :
      Steps canDie s (.handleStdout now) { s with stdout := rest, child := child, done := s.done ++ [readLine ret] }
  | ignored {now : Nat} {ret : Line} {rest : List Line} (written : s.stdout = ret :: rest)
      (answers : s.child.handleStdout now (readLine ret) = none) : Steps canDie s (.handleStdout now) { s with stdout := rest }
  | handleRequest {pending : Nat} (requested : s.requests = pending + 1) :
      Steps canDie s .handleRequest
        { s with
          requests := pending
          stdin := s.stdin ++ (s.child.resend s.inputComplete).flatMap linesIn
          supervisor := if s.inputComplete ∧ s.child.commands.elems = [] ∧ s.supervisor = .running then .killed else s.supervisor }
  | inputComplete : Steps canDie s .inputComplete { s with inputComplete := true }
  | close (complete : s.inputComplete = true) (empty : s.child.commands.elems = []) : Steps canDie s .close { s with closed := true }

/-- A step is one of the cases. -/
theorem steps_of_step {canDie : Bool} {s s' : Simulated} {a : Action} (h : s.step canDie a = some s') : s.Steps canDie a s' := by
  cases a with
  | dispatch job =>
    obtain ⟨hguard, rfl⟩ := (Option.ite_none_left_eq_some.mp h).imp_right Option.some.inj
    simp only [not_or, Bool.not_eq_true] at hguard
    exact .dispatch hguard.1 hguard.2
  | fill k =>
    simp only [step] at h
    split at h
    · rename_i hworker
      obtain ⟨⟨hpos, hle⟩, rfl⟩ := (Option.ite_none_right_eq_some.mp h).imp_right Option.some.inj
      exact .fill hworker hpos hle
    · cases h
  | getline =>
    simp only [step] at h
    split at h
    · rename_i hworker
      obtain rfl := Option.some.inj h
      exact .getline hworker
    · rename_i hworker
      obtain ⟨⟨hempty, hclosed⟩, rfl⟩ := (Option.ite_none_right_eq_some.mp h).imp_right Option.some.inj
      exact .endOfFile hworker hempty hclosed
    · cases h
  | work high =>
    simp only [step] at h
    split at h
    · rename_i hworker
      split at h
      · rename_i hdies
        obtain rfl := Option.some.inj h
        exact .crash hworker hdies
      · obtain rfl := Option.some.inj h
        exact .answer hworker
    · cases h
  | check high =>
    simp only [step] at h
    split at h
    · rename_i buffer good hworker
      split at h
      · rename_i hdies
        obtain rfl := Option.some.inj h
        exact .crashAfter hworker hdies
      · cases good with
        | true =>
          obtain rfl := Option.some.inj h
          exact .turn hworker
        | false =>
          obtain rfl := Option.some.inj h
          exact .finished hworker
    · cases h
  | handleStdout now =>
    simp only [step] at h
    split at h
    · rename_i ret rest hwritten
      split at h
      · rename_i job child hanswers
        obtain rfl := Option.some.inj h
        exact .matched hwritten hanswers
      · rename_i hanswers
        obtain rfl := Option.some.inj h
        exact .ignored hwritten hanswers
    · cases h
  | handleRequest =>
    simp only [step] at h
    split at h
    · rename_i pending hrequested
      obtain rfl := Option.some.inj h
      exact .handleRequest hrequested
    · cases h
  | inputComplete =>
    obtain rfl := Option.some.inj h
    exact .inputComplete
  | close =>
    obtain ⟨⟨hcomplete, hempty⟩, rfl⟩ := (Option.ite_none_right_eq_some.mp h).imp_right Option.some.inj
    exact .close hcomplete hempty

/-- No job is dispatched that is empty or has a newline or a NUL. -/
def AnswerableJobs (_ : Simulated) : Action → Prop
  | .dispatch job => Answerable job.command
  | _ => True

instance (s : Simulated) : ∀ a, Decidable (s.AnswerableJobs a)
  | .dispatch job => inferInstanceAs (Decidable (Answerable job.command))
  | .fill _ | .getline | .work _ | .check _ | .handleStdout _ | .handleRequest | .inputComplete | .close =>
    inferInstanceAs (Decidable True)

/-! ## Progress -/

/-- What takes the jobs of the child forward: no draw is over the limit. -/
def Productive (_ : Simulated) : Action → Prop
  | .fill _ => True
  | .getline => True
  | .work high => high = false
  | .check high => high = false
  | .handleStdout _ => True
  | .handleRequest => True
  | _ => False

/-- What is left to do: a line costs less the nearer it is to `handle_stdout`, and an `r` may bring back a whole queue. -/
def remaining (s : Simulated) : Nat :=
  5 * s.stdin.length + (s.worker.elim 0 (fun e => 4 * e.buffer.length + e.phase.remaining)) + s.stdout.length +
    (5 * bufferSize + 1) * s.requests

end Simulated

end FostWright
