import FostWright.Lib.BoundedPipe
import FostWright.Lib.Progress
import FostWright.Roundtrip

/-!
# A child behind pipes that can be full

A job on its way through one child, byte by byte, where the pipes have capacities of their own. `next_job` is suspended in `write` while the
stdin pipe is full, and pushes the job on the queue when the last byte is written, in the same step; meanwhile `handle_stdout` goes on. The
worker has one thread: it does not read while it writes, and waits in its write while the stdout pipe is full. It answers each line that it
reads with that line, and does not crash.
-/

namespace FostWright

open Lib

/-- The child and its pipes. `writing` is the job that is being written with the bytes still to write, `taken` what the worker has read
and not answered, `answer` what it still has to write, and `buffer` what the manager has read. -/
structure Backpressure (inCap outCap : Nat) where
  child : Childproc
  writing : Option (Job × List Byte)
  stdin : BoundedPipe Byte inCap
  taken : List Byte
  answer : List Byte
  stdout : BoundedPipe Byte outCap
  buffer : List Byte
  given : List Line
  done : List Line

namespace Backpressure

variable {inCap outCap : Nat}

/-- What happens. -/
inductive Action where
  /-- `next_job` has chosen the child and starts to write -/
  | nextJob (job : Job)
  /-- `k` more bytes are written; after the last one the job is pushed on the queue -/
  | write (k : Nat)
  /-- the worker reads `k` bytes -/
  | read (k : Nat)
  /-- the worker has a line, and answers it -/
  | respond
  /-- the worker writes `k` more bytes -/
  | put (k : Nat)
  /-- `async_read_until` reads `k` bytes -/
  | readSome (k : Nat)
  /-- `read` returns a line, and `handle_stdout` handles it at the time `now` -/
  | handle (now : Nat)

/-- One action. -/
def step (s : Backpressure inCap outCap) : Action → Option (Backpressure inCap outCap)
  | .nextJob job =>
    if s.writing = none ∧ s.child.commands.full = false then
      some { s with writing := some (job, writeLine job.command), given := s.given ++ [job.command] }
    else none
  | .write k =>
    s.writing.bind (fun w =>
      (s.stdin.write w.2 k).map (fun p =>
        if p.2 = [] then { s with stdin := p.1, writing := none, child := { commands := s.child.commands.pushBack w.1 } }
        else { s with stdin := p.1, writing := some (w.1, p.2) }))
  | .read k =>
    if s.answer = [] ∧ newline ∉ s.taken then
      (s.stdin.read k).map (fun p => { s with stdin := p.2, taken := s.taken ++ p.1 })
    else none
  | .respond =>
    if s.answer = [] then (cut newline s.taken).map (fun p => { s with taken := p.2, answer := writeLine p.1 }) else none
  | .put k => (s.stdout.write s.answer k).map (fun p => { s with stdout := p.1, answer := p.2 })
  | .readSome k =>
    if newline ∉ s.buffer then (s.stdout.read k).map (fun p => { s with stdout := p.2, buffer := s.buffer ++ p.1 }) else none
  | .handle now =>
    (cut newline s.buffer).map (fun p =>
      match s.child.handleStdout now (readLine p.1) with
      | some (_, child) => { s with buffer := p.2, child := child, done := s.done ++ [readLine p.1] }
      | none => { s with buffer := p.2 })

/-- A new child. -/
def system (inCap outCap : Nat) : System (Backpressure inCap outCap) Action where
  init :=
    { child := { commands := CircularBuffer.empty }, writing := none, stdin := .empty, taken := [], answer := [], stdout := .empty,
      buffer := [], given := [], done := [] }
  step := step

/-- What each action needs and leads to, one case for each branch of `step`. -/
inductive Steps (s : Backpressure inCap outCap) : Action → Backpressure inCap outCap → Prop where
  | nextJob {job : Job} (free : s.writing = none) (room : s.child.commands.full = false) :
      Steps s (.nextJob job) { s with writing := some (job, writeLine job.command), given := s.given ++ [job.command] }
  | write {k : Nat} {job : Job} {bytes piece rest : List Byte} {stdin : BoundedPipe Byte inCap} (writing : s.writing = some (job, bytes))
      (moves : piece ≠ []) (splits : bytes = piece ++ rest) (there : stdin.elems = s.stdin.elems ++ piece) (more : rest ≠ []) :
      Steps s (.write k) { s with stdin := stdin, writing := some (job, rest) }
  | written {k : Nat} {job : Job} {bytes : List Byte} {stdin : BoundedPipe Byte inCap} (writing : s.writing = some (job, bytes))
      (moves : bytes ≠ []) (there : stdin.elems = s.stdin.elems ++ bytes) :
      Steps s (.write k) { s with stdin := stdin, writing := none, child := { commands := s.child.commands.pushBack job } }
  | read {k : Nat} {piece : List Byte} {stdin : BoundedPipe Byte inCap} (answered : s.answer = []) (moves : piece ≠ [])
      (there : s.stdin.elems = piece ++ stdin.elems) : Steps s (.read k) { s with stdin := stdin, taken := s.taken ++ piece }
  | respond {line rest : List Byte} (answered : s.answer = []) (complete : s.taken = line ++ newline :: rest) :
      Steps s .respond { s with taken := rest, answer := writeLine line }
  | put {k : Nat} {piece rest : List Byte} {stdout : BoundedPipe Byte outCap} (moves : piece ≠ []) (splits : s.answer = piece ++ rest)
      (there : stdout.elems = s.stdout.elems ++ piece) : Steps s (.put k) { s with stdout := stdout, answer := rest }
  | readSome {k : Nat} {piece : List Byte} {stdout : BoundedPipe Byte outCap} (moves : piece ≠ [])
      (there : s.stdout.elems = piece ++ stdout.elems) : Steps s (.readSome k) { s with stdout := stdout, buffer := s.buffer ++ piece }
  | matched {now : Nat} {bytes rest : List Byte} {job : Job} {child : Childproc} (complete : s.buffer = bytes ++ newline :: rest)
      (noNewline : newline ∉ bytes) (answers : s.child.handleStdout now (readLine bytes) = some (job, child)) :
      Steps s (.handle now) { s with buffer := rest, child := child, done := s.done ++ [readLine bytes] }
  | ignored {now : Nat} {bytes rest : List Byte} (complete : s.buffer = bytes ++ newline :: rest) (noNewline : newline ∉ bytes)
      (answers : s.child.handleStdout now (readLine bytes) = none) : Steps s (.handle now) { s with buffer := rest }

/-- A step is one of the cases. -/
theorem steps_of_step {s s' : Backpressure inCap outCap} {a : Action} (h : s.step a = some s') : s.Steps a s' := by
  rcases a with job | k | k | _ | k | k | now
  · obtain ⟨⟨hfree, hroom⟩, h⟩ := Option.ite_none_right_eq_some.mp h
    obtain rfl := Option.some.inj h
    exact .nextJob hfree hroom
  · obtain ⟨⟨job, bytes⟩, hwriting, h⟩ := Option.bind_eq_some_iff.mp h
    obtain ⟨⟨stdin, rest⟩, hwrite, rfl⟩ := Option.map_eq_some_iff.mp h
    obtain ⟨piece, hmoves, hsplits, hthere⟩ := BoundedPipe.write_eq_some hwrite
    by_cases hrest : rest = []
    · subst hrest
      rw [List.append_nil] at hsplits
      subst hsplits
      exact .written hwriting hmoves hthere
    · simp only [if_neg hrest]
      exact .write hwriting hmoves hsplits hthere hrest
  · obtain ⟨⟨hanswered, -⟩, h⟩ := Option.ite_none_right_eq_some.mp h
    obtain ⟨⟨piece, stdin⟩, hread, rfl⟩ := Option.map_eq_some_iff.mp h
    obtain ⟨hmoves, hthere⟩ := BoundedPipe.read_eq_some hread
    exact .read hanswered hmoves hthere
  · obtain ⟨hanswered, h⟩ := Option.ite_none_right_eq_some.mp h
    obtain ⟨⟨line, rest⟩, hcut, rfl⟩ := Option.map_eq_some_iff.mp h
    exact .respond hanswered (cut_eq_some hcut).1
  · obtain ⟨⟨stdout, rest⟩, hwrite, rfl⟩ := Option.map_eq_some_iff.mp h
    obtain ⟨piece, hmoves, hsplits, hthere⟩ := BoundedPipe.write_eq_some hwrite
    exact .put hmoves hsplits hthere
  · obtain ⟨-, h⟩ := Option.ite_none_right_eq_some.mp h
    obtain ⟨⟨piece, stdout⟩, hread, rfl⟩ := Option.map_eq_some_iff.mp h
    obtain ⟨hmoves, hthere⟩ := BoundedPipe.read_eq_some hread
    exact .readSome hmoves hthere
  · obtain ⟨⟨bytes, rest⟩, hcut, rfl⟩ := Option.map_eq_some_iff.mp h
    obtain ⟨hcomplete, hnewline⟩ := cut_eq_some hcut
    rcases hanswers : s.child.handleStdout now (readLine bytes) with _ | ⟨job, child⟩
    · exact .ignored hcomplete hnewline hanswers
    · exact .matched hcomplete hnewline hanswers

/-- Each job is answered by one line that matches it. -/
def AnswerableJobs (_ : Backpressure inCap outCap) : Action → Prop
  | .nextJob job => Answerable job.command
  | _ => True

instance (s : Backpressure inCap outCap) : ∀ a, Decidable (s.AnswerableJobs a)
  | .nextJob job => inferInstanceAs (Decidable (Answerable job.command))
  | .write _ | .read _ | .respond | .put _ | .readSome _ | .handle _ => inferInstanceAs (Decidable True)

/-- Everything but a new job. -/
def Productive (_ : Backpressure inCap outCap) : Action → Prop
  | .nextJob _ => False
  | _ => True

/-- The bytes that are still to be written. -/
def unwritten (s : Backpressure inCap outCap) : List Byte := s.writing.elim [] Prod.snd

/-- How many moves of single bytes are left at most. -/
def remaining (s : Backpressure inCap outCap) : Nat :=
  6 * s.unwritten.length + 5 * s.stdin.elems.length + 4 * s.taken.length + 3 * s.answer.length + 2 * s.stdout.elems.length +
    s.buffer.length

end Backpressure

end FostWright
