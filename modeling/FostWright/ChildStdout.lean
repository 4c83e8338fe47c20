import FostWright.Lib.Reader
import FostWright.Lib.System
import FostWright.Lines

/-!
# The stdout of a child

`handle_stdout` with `read`: the bytes that a child writes arrive in pieces, go to a buffer that persists between the calls of
`async_read_until`, and become lines one after the other, each of which is compared with the front of the queue. `next_job` pushes
commands on the queue in between. Against it stands a machine on the lines of the stream alone.
-/

namespace FostWright

open Lib

/-- A command and its limiter token, as `handle_stdout` matches and releases them. -/
abbrev Command := Line × Token

/-- The commands in the queue of a child. -/
def Childproc.queue (child : Childproc) : List Command := child.commands.elems.map (fun job => (job.command, job.limiter))

/-! ## The code -/

/-- What is on its way from a child, its queue, the calls of `job_done`, and the queue after each line. `schedule` is what has happened to
the queue: a command was pushed, or a line handled (`none`). -/
structure ChildStdout where
  reader : Reader Byte
  child : Childproc
  done : List Line
  after : List (List Command)
  schedule : List (Option Command)

namespace ChildStdout

/-- What happens at the stdout of a child. -/
inductive Action where
  /-- the stream moves along -/
  | feed (f : Feed Byte)
  /-- `read` returns a line, and `handle_stdout` handles it -/
  | line (now : Nat)
  /-- `commands.push_back` -/
  | dispatch (job : Job)

/-- The body of the loop of `handle_stdout` on the line that `read` returned. -/
def handle (s : ChildStdout) (now : Nat) (ret : Line) : ChildStdout :=
  match s.child.handleStdout now ret with
  | some (_, child) => { s with child := child, done := s.done ++ [ret] }
  | none => s

/-- One action. -/
def step (s : ChildStdout) : Action → Option ChildStdout
  | .feed f => (s.reader.feed newline f).map (fun reader => { s with reader := reader })
  | .line now =>
    (s.reader.readUntil newline).map (fun bytes =>
      let (ret, buffer) := bump bytes s.reader.buffer
      let t := { s with reader := { s.reader with buffer := buffer } }.handle now ret
      { t with after := s.after ++ [t.child.queue], schedule := s.schedule ++ [none] })
  | .dispatch job =>
    some { s with
      child := { commands := s.child.commands.pushBack job }
      schedule := s.schedule ++ [some (job.command, job.limiter)] }

def system : System ChildStdout Action where
  init := { reader := Reader.start, child := { commands := CircularBuffer.empty }, done := [], after := [], schedule := [] }
  step := step

end ChildStdout

/-! ## The machine -/

/-- The lines still to come, the queue, the commands reported, and the queue after each line. -/
structure Matcher where
  lines : List Line
  queue : List Command
  done : List Line
  after : List (List Command)

namespace Matcher

/-- A line that is not empty and is the text of the front of the queue pops and reports it; any other changes nothing. -/
def matchLine (m : Matcher) (line : Line) : Matcher :=
  match m.queue with
  | front :: queue => if line ≠ [] ∧ line = front.1 then { m with queue := queue, done := m.done ++ [line] } else m
  | [] => m

/-- A command is pushed on the queue, which keeps the newest, or the next line is handled, if there is one. -/
def step (m : Matcher) : Option Command → Matcher
  | some command => { m with queue := (m.queue ++ [command]).drop (m.queue.length + 1 - bufferSize) }
  | none =>
    match m.lines with
    | [] => m
    | line :: lines =>
      let t := { m with lines := lines }.matchLine line
      { t with after := m.after ++ [t.queue] }

/-- The machine on the lines, under a schedule. -/
def run (lines : List Line) (schedule : List (Option Command)) : Matcher :=
  schedule.foldl step { lines := lines, queue := [], done := [], after := [] }

end Matcher

/-- A stream without its NULs. -/
def withoutNul (stream : List Byte) : List Byte := stream.filter (fun b => b ≠ nul)

/-- The lines of a stream that a newline ends, without NULs. -/
def linesOf (stream : List Byte) : List Line := (unframe newline (withoutNul stream)).1

end FostWright
