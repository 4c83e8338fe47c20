import FostWright.ChildStdin
import FostWright.Recovery
import FostWright.Lib.Progress

/-!
# A resend among the jobs that are dispatched

The child of `Recovery`, where the writes of the manager are no longer one step with what follows them. `next_job` pushes a job on the queue
when its write is complete, and the loop of `handle_child_requests` writes one command after the other: between two writes the other
coroutines run. A write is whole, and the ends of the writes come in the order of the writes, as the reactor has one thread. The crashes are
those after which there is an `r` to handle: the worker exits with another code than 0, between two lines of its input and of its output, and
the `r` is read from the back channel. `Crash`, `Supervisor` and `BackChannel` have what happens otherwise.
-/

namespace FostWright

open Lib

/-- A child, its pipes and its worker. `writing` is the job that `next_job` is writing; its lines are in the pipe, behind those of `stdin` and
before those of `behind`, which a resend has written since. `loop` is the place in the queue of the command that the resend is writing, and
`ready` are the coroutines whose writes are complete, in the order in which they go on. `crashed` and `resent` are the counters of the
back channel. -/
structure Resending where
  child : Childproc
  inputComplete : Bool
  writing : Option (Line × Token)
  loop : Option Nat
  ready : List Writer
  stdin : List Line
  behind : List Line
  worker : List Line
  stdout : List Line
  requests : Nat
  crashed : Nat
  resent : Nat
  dispatched : List Line
  done : List Line

namespace Resending

/-- What happens to the child. -/
inductive Action where
  /-- `next_job` writes a job to the child -/
  | write (text : Line) (task : Token)
  /-- `next_job` goes on after the write and pushes the job on the queue, at the time `now` -/
  | push (now : Nat)
  /-- the worker reads a line -/
  | read
  /-- the worker answers the first line it has not answered -/
  | answer
  /-- the worker writes a text that nobody asked for, and a newline -/
  | print (text : Line)
  /-- the worker exits with another code than 0, between two lines; the supervisor asks for a resend and starts a new one -/
  | crash
  /-- `handle_stdout` reads a line, at the time `now` -/
  | handleStdout (now : Nat)
  /-- `handle_child_requests` reads an `r` and begins its loop -/
  | handleRequest
  /-- `handle_child_requests` goes on after a write -/
  | resend
  /-- `input_complete` is set -/
  | inputComplete

/-- A command is put into the pipe by the resend. -/
def append (s : Resending) (command : Line) : Resending :=
  match s.writing with
  | none => { s with stdin := s.stdin ++ linesIn command }
  | some _ => { s with behind := s.behind ++ linesIn command }

/-- The loop of `handle_child_requests` from place `i` on: the next command is written, if there is one. -/
def resendFrom (s : Resending) (i : Nat) : Resending :=
  match s.child.texts[i]? with
  | some command => { s.append command with loop := some i, ready := s.ready ++ [.childRequests] }
  | none => { s with loop := none }

/-- One action. -/
def step (s : Resending) : Action → Option Resending
  | .write text task =>
    if s.writing = none ∧ s.child.commands.full = false then
      some { s with writing := some (text, task), ready := s.ready ++ [.nextJob], dispatched := s.dispatched ++ [text] }
    else none
  | .push now =>
    match s.writing, s.ready with
    | some (text, task), .nextJob :: rest =>
      some { s with
        child := { commands := s.child.commands.pushBack { command := text, limiter := task, time := now } }
        writing := none
        ready := rest
        stdin := s.stdin ++ linesIn text ++ s.behind
        behind := [] }
    | _, _ => none
  | .read =>
    -- the lines of an open write come after the push: the end of the write is queued before the worker can answer
    match s.stdin with
    | line :: rest => some { s with stdin := rest, worker := s.worker ++ [line] }
    | [] => none
  | .answer =>
    match s.worker with
    | line :: rest => some { s with worker := rest, stdout := s.stdout ++ [line] }
    | [] => none
  | .print text => some { s with stdout := s.stdout ++ linesIn text }
  | .crash => some { s with worker := [], requests := s.requests + 1 }
  | .handleStdout now =>
    match s.stdout with
    | ret :: rest =>
      match s.child.handleStdout now (readLine ret) with
      | some (_, child) =>
        -- a pop in front of the iterator leaves it where it is
        some { s with stdout := rest, child := child, loop := s.loop.map Nat.pred, done := s.done ++ [readLine ret] }
      | none => some { s with stdout := rest }
    | [] => none
  | .handleRequest =>
    match s.loop, s.requests with
    | none, pending + 1 =>
      -- where all work is done the child is killed
      if s.inputComplete ∧ s.child.commands.elems = [] then some { s with requests := pending, crashed := s.crashed + 1 }
      else some ({ s with requests := pending, crashed := s.crashed + 1 }.resendFrom 0)
    | _, _ => none
  | .resend =>
    match s.loop, s.ready with
    | some i, .childRequests :: rest => some ({ s with ready := rest, resent := s.resent + 1 }.resendFrom (i + 1))
    | _, _ => none
  | .inputComplete => some { s with inputComplete := true }

/-- What each action needs and leads to. A request of a child without commands writes nothing, whether or not the child is killed. -/
inductive Steps (s : Resending) : Action → Resending → Prop where
  | write {text : Line} {task : Token} (free : s.writing = none) (room : s.child.commands.full = false) :
      Steps s (.write text task)
        { s with writing := some (text, task), ready := s.ready ++ [.nextJob], dispatched := s.dispatched ++ [text] }
  | push {now : Nat} {text : Line} {task : Token} {rest : List Writer} (open_ : s.writing = some (text, task))
      (turn : s.ready = .nextJob :: rest) :
      Steps s (.push now)
        { s with
          child := { commands := s.child.commands.pushBack { command := text, limiter := task, time := now } }
          writing := none
          ready := rest
          stdin := s.stdin ++ linesIn text ++ s.behind
          behind := [] }
  | read {line : Line} {rest : List Line} (piped : s.stdin = line :: rest) :
      Steps s .read { s with stdin := rest, worker := s.worker ++ [line] }
  | answer {line : Line} {rest : List Line} (held : s.worker = line :: rest) :
      Steps s .answer { s with worker := rest, stdout := s.stdout ++ [line] }
  | print {text : Line} : Steps s (.print text) { s with stdout := s.stdout ++ linesIn text }
  | crash : Steps s .crash { s with worker := [], requests := s.requests + 1 }
  | matched {now : Nat} {ret : Line} {rest : List Line} {job : Job} {child : Childproc} (written : s.stdout = ret :: rest)
      (answers : s.child.handleStdout now (readLine ret) = some (job, child)) :
      Steps s (.handleStdout now)
        { s with stdout := rest, child := child, loop := s.loop.map Nat.pred, done := s.done ++ [readLine ret] }
  | ignored {now : Nat} {ret : Line} {rest : List Line} (written : s.stdout = ret :: rest)
      (answers : s.child.handleStdout now (readLine ret) = none) : Steps s (.handleStdout now) { s with stdout := rest }
  | handleRequest {pending : Nat} (idle : s.loop = none) (requested : s.requests = pending + 1) :
      Steps s .handleRequest ({ s with requests := pending, crashed := s.crashed + 1 }.resendFrom 0)
  | resend {i : Nat} {rest : List Writer} (at_ : s.loop = some i) (turn : s.ready = .childRequests :: rest) :
      Steps s .resend ({ s with ready := rest, resent := s.resent + 1 }.resendFrom (i + 1))
  | inputComplete : Steps s .inputComplete { s with inputComplete := true }

/-- A resend that finds no command is over. -/
theorem resendFrom_of_empty {s : Resending} (hidle : s.loop = none) (hempty : s.child.commands.elems = []) : s.resendFrom 0 = s := by
  unfold resendFrom Childproc.texts
  rw [hempty]
  simp only [List.map_nil, List.getElem?_nil]
  rw [← hidle]

/-- A step is one of the cases. -/
theorem steps_of_step {s s' : Resending} {a : Action} (h : s.step a = some s') : s.Steps a s' := by
  cases a with
  | write text task =>
    obtain ⟨⟨hfree, hroom⟩, h⟩ := Option.ite_none_right_eq_some.mp h
    obtain rfl := Option.some.inj h
    exact .write hfree hroom
  | push now =>
    simp only [step] at h
    split at h
    · rename_i text task rest hopen hturn
      cases h
      exact .push hopen hturn
    · cases h
  | read =>
    simp only [step] at h
    split at h
    · rename_i line rest hpiped
      cases h
      exact .read hpiped
    · cases h
  | answer =>
    simp only [step] at h
    split at h
    · rename_i line rest hheld
      cases h
      exact .answer hheld
    · cases h
  | print text =>
    cases h
    exact .print
  | crash =>
    cases h
    exact .crash
  | handleStdout now =>
    simp only [step] at h
    split at h
    · rename_i ret rest hwritten
      split at h
      · rename_i job child hanswers
        cases h
        exact .matched hwritten hanswers
      · rename_i hanswers
        cases h
        exact .ignored hwritten hanswers
    · cases h
  | handleRequest =>
    simp only [step] at h
    split at h
    · rename_i pending hidle hrequested
      have hbegins : s.Steps .handleRequest ({ s with requests := pending, crashed := s.crashed + 1 }.resendFrom 0) :=
        .handleRequest hidle hrequested
      split at h
      · rename_i hdone
        cases h
        rwa [resendFrom_of_empty (s := { s with requests := pending, crashed := s.crashed + 1 }) hidle hdone.2] at hbegins
      · cases h
        exact hbegins
    · cases h
  | resend =>
    simp only [step] at h
    split at h
    · rename_i i rest hat hturn
      cases h
      exact .resend hat hturn
    · cases h
  | inputComplete =>
    cases h
    exact .inputComplete

/-- A new child: nothing queued and nothing on its way. -/
def init : Resending where
  child := { commands := CircularBuffer.empty }
  inputComplete := false
  writing := none
  loop := none
  ready := []
  stdin := []
  behind := []
  worker := []
  stdout := []
  requests := 0
  crashed := 0
  resent := 0
  dispatched := []
  done := []

/-- A child under any sequence of actions. -/
def system : System Resending Action := ⟨init, step⟩

/-- No job is dispatched that is empty or has a newline or a NUL, and the command that a resend is writing is not popped meanwhile, which
would invalidate the iterator of the loop. -/
def Careful (s : Resending) : Action → Prop
  | .write text _ => Answerable text
  | .handleStdout _ => s.loop = some 0 → s.stdout.head?.map readLine ≠ s.child.texts.head?
  | _ => True

instance (s : Resending) : ∀ a, Decidable (s.Careful a)
  | .write text _ => inferInstanceAs (Decidable (Answerable text))
  | .handleStdout _ => inferInstanceAs (Decidable (s.loop = some 0 → s.stdout.head?.map readLine ≠ s.child.texts.head?))
  | .push _ | .read | .answer | .print _ | .crash | .handleRequest | .resend | .inputComplete => inferInstanceAs (Decidable True)

/-- The actions of the pipes, the worker and the coroutines of the child, where those that look at the clock see `now`. -/
def Action.isAt (now : Nat) : Action → Bool
  | .push time => time == now
  | .handleStdout time => time == now
  | .write _ _ => false
  | .inputComplete => false
  | _ => true

/-! ## Progress -/

/-- What takes the jobs of the child forward: its writes come to their ends, the worker reads and answers, and the manager handles what it
writes. -/
def Productive (s : Resending) : Action → Prop
  | .push _ => True
  | .read => True
  | .answer => True
  | .handleStdout now => s.Careful (.handleStdout now)
  | .handleRequest => True
  | .resend => True
  | _ => False

/-- What is left of a resend of a queue of `size` commands: a command costs its write, and a line in the pipe. -/
def loopRemaining (size : Nat) : Option Nat → Nat
  | some i => 4 * (size - (i + 1)) + 1
  | none => 0

/-- How many steps are left. A job that is being written may be written again by the resend; a request costs a resend of a full queue. -/
def remaining (s : Resending) : Nat :=
  3 * (s.stdin.length + s.behind.length) + 2 * s.worker.length + s.stdout.length + 8 * s.writing.toList.length +
    loopRemaining s.child.texts.length s.loop + (4 * bufferSize + 1) * s.requests

end Resending

end FostWright
