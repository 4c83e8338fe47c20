import FostWright.Lines
import FostWright.Lib.System

/-!
# The two writers of a child's stdin

`next_job` writes a job to a child and then pushes it on its queue; `handle_child_requests` writes every command of the queue again
when it gets an `r`. Both write to the same descriptor. `async_write` writes what the pipe has room for and suspends the coroutine
in between. Every byte in the pipe carries the write it belongs to.
-/

namespace FostWright

open Lib

/-- One call of `childproc::write`: its number, its job and how many bytes of the line are in the pipe. -/
structure Write where
  id : Nat
  job : Job
  written : Nat

/-- The bytes of the line of a job, marked with the number of the write. -/
def markedLine (id : Nat) (command : Line) : List (Nat × Byte) := (writeLine command).map (Prod.mk id)

/-- The bytes that a write is for. -/
def Write.line (w : Write) : List (Nat × Byte) := markedLine w.id w.job.command

/-- The two coroutines that write to a child. -/
inductive Writer where
  | nextJob
  | childRequests
  deriving DecidableEq

def Writer.other : Writer → Writer
  | .nextJob => .childRequests
  | .childRequests => .nextJob

theorem Writer.other_ne (who : Writer) : who.other ≠ who := by cases who <;> decide

theorem Writer.other_other (who : Writer) : who.other.other = who := by cases who <;> rfl

theorem Writer.eq_or_eq_other (who who' : Writer) : who' = who ∨ who' = who.other := by cases who <;> cases who' <;> decide

/-- A child, the write that each coroutine is suspended in, the index in the queue that a resend has got to, and the bytes put into
the pipe. `writes` counts the calls of `write` and `jobs` are the texts of the jobs given to the child, so far. -/
structure ChildStdin where
  child : Childproc
  writing : Writer → Option Write
  resendIndex : Nat
  pipe : List (Nat × Byte)
  writes : Nat
  jobs : List Line

namespace ChildStdin

/-- What happens at a child's stdin. -/
inductive Action where
  /-- `next_job` starts to write a job to the child, whose queue has room -/
  | dispatch (text : JobText) (limiter : Token) (time : Nat)
  /-- `handle_child_requests` starts on an `r` -/
  | request
  /-- the pipe takes `k` more bytes of the write of a coroutine, which goes on when these were the last -/
  | write (who : Writer) (k : Nat)
  /-- `handle_stdout` pops the front of the queue -/
  | completed

/-- A coroutine starts to write a job. -/
def start (s : ChildStdin) (who : Writer) (job : Job) : ChildStdin :=
  { s with writing := Function.update s.writing who (some { id := s.writes, job := job, written := 0 }), writes := s.writes + 1 }

/-- A coroutine is not in a write. -/
def stop (s : ChildStdin) (who : Writer) : ChildStdin := { s with writing := Function.update s.writing who none }

/-- The loop of `handle_child_requests` over the queue, from index `i` on: the next command is written, if there is one. -/
def resendFrom (s : ChildStdin) (i : Nat) : ChildStdin :=
  match s.child.commands.elems[i]? with
  | some job => { s.start .childRequests job with resendIndex := i }
  | none => s.stop .childRequests

/-- What a coroutine does when its write is complete: `next_job` pushes the job on the queue, a resend goes on. -/
def finish (s : ChildStdin) (who : Writer) (w : Write) : ChildStdin :=
  match who with
  | .nextJob => { s.stop .nextJob with child := { commands := s.child.commands.pushBack w.job } }
  | .childRequests => s.resendFrom (s.resendIndex + 1)

/-- One action. -/
def step (s : ChildStdin) : Action → Option ChildStdin
  | .dispatch text limiter time =>
    match s.writing .nextJob with
    | none =>
      if s.child.commands.full then none
      else
        some { s.start .nextJob { command := text.text, limiter := limiter, time := time } with jobs := s.jobs ++ [text.text] }
    | some _ => none
  | .request =>
    match s.writing .childRequests with
    | none => some (s.resendFrom 0)
    | some _ => none
  | .write who k =>
    match s.writing who with
    | some w =>
      if 0 < k ∧ w.written + k ≤ w.line.length then
        let s := { s with pipe := s.pipe ++ (w.line.drop w.written).take k }
        if w.written + k = w.line.length then some (s.finish who w)
        else some { s with writing := Function.update s.writing who (some { w with written := w.written + k }) }
      else none
    | none => none
  | .completed =>
    -- a pop while a resend walks over the queue invalidates its iterator, and is left out
    match s.writing .childRequests with
    | none => some { s with child := { commands := s.child.commands.popFront } }
    | some _ => none

/-- What each action needs and leads to. A write that puts the last byte of its line into the pipe is complete. -/
inductive Steps (s : ChildStdin) : Action → ChildStdin → Prop where
  | dispatch {text : JobText} {limiter : Token} {time : Nat} (free : s.writing .nextJob = none) :
      Steps s (.dispatch text limiter time)
        { s.start .nextJob { command := text.text, limiter := limiter, time := time } with jobs := s.jobs ++ [text.text] }
  | request (free : s.writing .childRequests = none) : Steps s .request (s.resendFrom 0)
  | finishes {who : Writer} {w : Write} {k : Nat} (writing : s.writing who = some w) (some : 0 < k)
      (all : w.written + k = w.line.length) :
      Steps s (.write who k) (({ s with pipe := s.pipe ++ (w.line.drop w.written).take k } : ChildStdin).finish who w)
  | advances {who : Writer} {w : Write} {k : Nat} (writing : s.writing who = some w) (some : 0 < k)
      (part : w.written + k < w.line.length) :
      Steps s (.write who k)
        { s with
          pipe := s.pipe ++ (w.line.drop w.written).take k
          writing := Function.update s.writing who (.some { w with written := w.written + k }) }
  | completed : Steps s .completed { s with child := { commands := s.child.commands.popFront } }

/-- A step is one of the cases. -/
theorem steps_of_step {s s' : ChildStdin} {a : Action} (h : s.step a = some s') : s.Steps a s' := by
  cases a with
  | dispatch text limiter time =>
    simp only [step] at h
    split at h
    · rename_i hfree
      split at h
      · cases h
      · cases h
        exact .dispatch hfree
    · cases h
  | request =>
    simp only [step] at h
    split at h
    · rename_i hfree
      cases h
      exact .request hfree
    · cases h
  | write who k =>
    simp only [step] at h
    split at h
    · rename_i w hwriting
      split at h
      · rename_i hk
        split at h
        · rename_i hall
          cases h
          exact .finishes hwriting hk.1 hall
        · rename_i hpart
          cases h
          exact .advances hwriting hk.1 (Nat.lt_of_le_of_ne hk.2 hpart)
      · cases h
    · cases h
  | completed =>
    simp only [step] at h
    split at h
    · cases h
      exact .completed
    · cases h

/-- A new child: an empty queue and an empty pipe. -/
def init : ChildStdin where
  child := { commands := CircularBuffer.empty }
  writing := fun _ => none
  resendIndex := 0
  pipe := []
  writes := 0
  jobs := []

/-- The stdin of a child under any interleaving of its two writers. -/
def system : System ChildStdin Action := ⟨init, step⟩

/-- The bytes of whole lines, one for each write and job text of the list. -/
def wholeLines (ws : List (Nat × Line)) : List (Nat × Byte) := ws.flatMap (fun w => markedLine w.1 w.2)

/-- The bytes in the pipe are lines of job texts, each from one write, and at most the beginning of one further line. -/
def Whole (s : ChildStdin) : Prop :=
  ∃ (ws : List (Nat × Line)) (rest : List (Nat × Byte)), s.pipe = wholeLines ws ++ rest ∧ (∀ w ∈ ws, w.2 ∈ s.jobs) ∧
    (rest = [] ∨ ∃ id, ∃ command ∈ s.jobs, rest <+: markedLine id command)

/-- Bytes are put into the pipe only while the other coroutine is not in the middle of a line. -/
def TakesTurns (s : ChildStdin) : Action → Prop
  | .write who _ => ∀ w ∈ s.writing who.other, w.written = 0
  | _ => True

end ChildStdin

end FostWright
