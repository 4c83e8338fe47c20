import FostWright.Lines
import FostWright.Lib.System

/-!
# One child and its worker, line by line

A child of the pool with what is on its way between the manager and the worker: the lines in its stdin pipe, the lines its worker
has read, the lines in its stdout pipe and the resend requests on the back channel. A job is as many lines in the pipe as its text
and the newline make, and a line of the worker is what `read` leaves of it. The pipes survive a crash of the worker, what the worker
has read does not. `dispatched` and `done` are the jobs given to the child and those passed to `job_done`, in order.
-/

namespace FostWright

open Lib

/-- `handle_child_requests` on an `r`: the commands that are written to the child again, none if all work is done (the child is
killed then). -/
def Childproc.resend (child : Childproc) (inputComplete : Bool) : List Line :=
  if inputComplete ∧ child.commands.elems = [] then [] else child.texts

/-- A child, its pipes and its worker. -/
structure Recovery where
  child : Childproc
  inputComplete : Bool
  stdin : List Line
  worker : List Line
  stdout : List Line
  requests : Nat
  dispatched : List Line
  done : List Line

namespace Recovery

/-- What happens to the child. -/
inductive Action where
  /-- `next_job` writes a job to the child and pushes it on its queue -/
  | dispatch (job : Job)
  /-- the worker reads a line -/
  | read
  /-- the worker answers the first line it has not answered -/
  | answer
  /-- the worker writes a text that nobody asked for, and a newline -/
  | print (text : Line)
  /-- the worker crashes; the supervisor asks for a resend and starts a new one -/
  | crash
  /-- `handle_stdout` reads a line, at the time `now` -/
  | handleStdout (now : Nat)
  /-- `handle_child_requests` acts on an `r` -/
  | handleRequest
  /-- `input_complete` is set -/
  | inputComplete

/-- One action. -/
def step (s : Recovery) : Action → Option Recovery
  | .dispatch job =>
    if s.child.commands.full then none
    else
      some { s with
        child := { commands := s.child.commands.pushBack job }
        stdin := s.stdin ++ linesIn job.command
        dispatched := s.dispatched ++ [job.command] }
  | .read =>
    match s.stdin with
    | line :: rest => some { s with stdin := rest, worker := s.worker ++ [line] }
    | [] => none
  | .answer =>
    match s.worker with
    | line :: rest => some { s with worker := rest, stdout := s.stdout ++ [line] }
    | [] => none
  | .print text => some { s with stdout := s.stdout ++ linesIn text }
  | .crash => some { s with worker := [], requests := s.requests + 1 }
  | .handleStdout now =>
    match s.stdout with
    | ret :: rest =>
      match s.child.handleStdout now (readLine ret) with
      | some (_, child) => some { s with stdout := rest, child := child, done := s.done ++ [readLine ret] }
      | none => some { s with stdout := rest }
    | [] => none
  | .handleRequest =>
    match s.requests with
    | pending + 1 => some { s with requests := pending, stdin := s.stdin ++ (s.child.resend s.inputComplete).flatMap linesIn }
    | 0 => none
  | .inputComplete => some { s with inputComplete := true }

/-- What each action needs and leads to, one case for each branch of `step`. -/
inductive Steps (s : Recovery) : Action → Recovery → Prop where
  | dispatch {job : Job} (room : s.child.commands.full = false) :
      Steps s (.dispatch job)
        { s with
          child := { commands := s.child.commands.pushBack job }
          stdin := s.stdin ++ linesIn job.command
          dispatched := s.dispatched ++ [job.command] }
  | read {line : Line} {rest : List Line} (piped : s.stdin = line :: rest) :
      Steps s .read { s with stdin := rest, worker := s.worker ++ [line] }
  | answer {line : Line} {rest : List Line} (held : s.worker = line :: rest) :
      Steps s .answer { s with worker := rest, stdout := s.stdout ++ [line] }
  | print {text : Line} : Steps s (.print text) { s with stdout := s.stdout ++ linesIn text }
  | crash : Steps s .crash { s with worker := [], requests := s.requests + 1 }
  | matched {now : Nat} {ret : Line} {rest : List Line} {job : Job} {child : Childproc} (written : s.stdout = ret :: rest)
      (answers : s.child.handleStdout now (readLine ret) = some (job, child)) :
      Steps s (.handleStdout now) { s with stdout := rest, child := child, done := s.done ++ [readLine ret] }
  | ignored {now : Nat} {ret : Line} {rest : List Line} (written : s.stdout = ret :: rest)
      (answers : s.child.handleStdout now (readLine ret) = none) : Steps s (.handleStdout now) { s with stdout := rest }
  | handleRequest {pending : Nat} (requested : s.requests = pending + 1) :
      Steps s .handleRequest
        { s with requests := pending, stdin := s.stdin ++ (s.child.resend s.inputComplete).flatMap linesIn }
  | inputComplete : Steps s .inputComplete { s with inputComplete := true }

/-- A step is one of the cases. -/
theorem steps_of_step {s s' : Recovery} {a : Action} (h : s.step a = some s') : s.Steps a s' := by
  cases a with
  | dispatch job =>
    simp only [step] at h
    split at h
    · cases h
    · rename_i hroom
      cases h
      exact .dispatch (by simpa using hroom)
  | read =>
    simp only [step] at h
    split at h
    · rename_i line rest hpiped
      cases h
      exact .read hpiped
    · cases h
  | answer =>
    simp only [step] at h
    split at h
    · rename_i line rest hheld
      cases h
      exact .answer hheld
    · cases h
  | print text =>
    cases h
    exact .print
  | crash =>
    cases h
    exact .crash
  | handleStdout now =>
    simp only [step] at h
    split at h
    · rename_i ret rest hwritten
      split at h
      · rename_i job child hanswers
        cases h
        exact .matched hwritten hanswers
      · rename_i hanswers
        cases h
        exact .ignored hwritten hanswers
    · cases h
  | handleRequest =>
    simp only [step] at h
    split at h
    · rename_i pending hrequested
      cases h
      exact .handleRequest hrequested
    · cases h
  | inputComplete =>
    cases h
    exact .inputComplete

/-- A new child: nothing queued and nothing on its way. -/
def init : Recovery where
  child := { commands := CircularBuffer.empty }
  inputComplete := false
  stdin := []
  worker := []
  stdout := []
  requests := 0
  dispatched := []
  done := []

/-- A child under any sequence of actions. -/
def system : System Recovery Action := ⟨init, step⟩

/-- The lines on their way back to the manager, in the order in which it will read them. -/
def inFlight (s : Recovery) : List Line := s.stdout ++ s.worker ++ s.stdin

/-- What is in flight is consumed: the worker reads and answers, the manager reads the answers. -/
def Consumes (_ : Recovery) : Action → Prop
  | .read => True
  | .answer => True
  | .handleStdout _ => True
  | _ => False

/-- No job is dispatched that is empty or has a newline or a NUL. -/
def AnswerableJobs (_ : Recovery) : Action → Prop
  | .dispatch job => Answerable job.command
  | _ => True

instance (s : Recovery) : ∀ a, Decidable (s.AnswerableJobs a)
  | .dispatch job => inferInstanceAs (Decidable (Answerable job.command))
  | .read | .answer | .print _ | .crash | .handleStdout _ | .handleRequest | .inputComplete => inferInstanceAs (Decidable True)

end Recovery

end FostWright
