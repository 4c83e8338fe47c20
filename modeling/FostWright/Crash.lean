import FostWright.Lines
import FostWright.Recovery

/-!
# One crash, byte by byte

A worker dies somewhere in its work: it has consumed some bytes of its stdin pipe and written some bytes of its answers, each
possibly up to the middle of a line. The rest of both streams survives. The manager handles some of the answers, then the `r`, and
writes its queue again; the worker that is started next reads what is left in the pipe and answers every line of it. Everything
that follows is a function of the offsets.
-/

namespace FostWright

open Lib

/-- `handle_stdout` on one line after the other. -/
def Childproc.handleLines (child : Childproc) (now : Nat) (lines : List Line) : Childproc :=
  lines.foldl (fun child ret => ((child.handleStdout now ret).map Prod.snd).getD child) child

/-- The lines that the manager reads of a stream of bytes. -/
def readLines (stream : List Byte) : List Line := (unframe newline stream).1.map readLine

/-- A crash: the child with its queue, the jobs in the stdin pipe that its worker started with, the bytes of them that the worker
has consumed, the bytes of its answers that it has written, and how many of the complete answers are handled before the `r`. The
jobs in the queue and in the pipe are among the jobs dispatched to the child. -/
structure Crash where
  child : Childproc
  inputComplete : Bool
  now : Nat
  piped : List Line
  consumed : Nat
  written : Nat
  handled : Nat
  dispatched : List Line
  queued_dispatched : ∀ text ∈ child.texts, text ∈ dispatched
  piped_dispatched : ∀ text ∈ piped, text ∈ dispatched

namespace Crash

/-- The bytes in the stdin pipe when the worker started. -/
def stdin (c : Crash) : List Byte := c.piped.flatMap writeLine

/-- The bytes that the worker has left in the pipe. -/
def unread (c : Crash) : List Byte := c.stdin.drop c.consumed

/-- The complete lines that the worker has read, which it answers. -/
def answering (c : Crash) : List Line := (unframe newline (c.stdin.take c.consumed)).1

/-- The bytes of the answers that the worker has written. -/
def output (c : Crash) : List Byte := (frames newline c.answering).take c.written

/-- The complete answers among them. -/
def answered (c : Crash) : List Line := readLines c.output

/-- The queue when the `r` is handled. -/
def queue (c : Crash) : Childproc := c.child.handleLines c.now (c.answered.take c.handled)

/-- The bytes that the resend writes. -/
def resent (c : Crash) : List Byte := (c.queue.resend c.inputComplete).flatMap writeLine

/-- The lines that the next worker is handed. -/
def restarted (c : Crash) : List Line := (unframe newline (c.unread ++ c.resent)).1

/-- The bytes that come out of the child: what the dead worker wrote, and an answer to every line of the next one. -/
def stdout (c : Crash) : List Byte := c.output ++ frames newline c.restarted

/-- The queue when all of these have been handled, of which some were before the `r`. -/
def final (c : Crash) : Childproc :=
  c.queue.handleLines c.now ((readLines c.stdout).drop (min c.handled c.answered.length))

/-- The next worker is handed only lines that were dispatched, and every job that was queued is matched and removed. -/
def Recovers (c : Crash) : Prop := (∀ line ∈ c.restarted, line ∈ c.dispatched) ∧ c.final.texts = []

/-- The lines that the bytes left in the pipe make up. -/
def leftLines (c : Crash) : List Line := (unframe newline c.unread).1

/-- The answer that the dead worker did not finish, as `read` will keep it. -/
def fragment (c : Crash) : Line := readLine (unframe newline c.output).2

/-- What the recovery depends on. The lines left in the pipe are texts of dispatched jobs, the jobs in the queue can be answered,
and an answer that was cut off does not end up before the answer to the front of the queue: it is not there, or there is another
line before the resent ones, or the queue is empty, or the answer to its front has been written already. -/
def CleanCut (c : Crash) : Prop :=
  (∀ line ∈ c.leftLines, line ∈ c.dispatched) ∧ (∀ text ∈ c.queue.texts, Answerable text) ∧
    (c.fragment = [] ∨ c.leftLines ≠ [] ∨ ∀ text ∈ c.queue.texts.head?, text ∈ c.answered.drop c.handled)

instance (c : Crash) : Decidable c.CleanCut := inferInstanceAs (Decidable (_ ∧ _ ∧ _))

end Crash

end FostWright
