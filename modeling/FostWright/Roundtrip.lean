import FostWright.ExecHelper
import FostWright.ChildStdout

/-!
# A job from stdin to its answer

The manager with its standard input as bytes, and one of its children as pipes: `next_job` writes its line into the stdin of the child
and pushes it on the queue, the worker answers each line that it reads with that line, and `handle_stdout` reads the answers. The write
and the push are one step: the reactor has one thread, and the end of the write is queued there before the worker can answer. The worker
does not crash, so there are no resends to this child. Everything else in the manager goes on meanwhile.
-/

namespace FostWright

open Lib

/-- The manager, its standard input, and the stdin and stdout of the child. `given` are the commands that were written and pushed,
`handled` the lines that `handle_stdout` has handled and `finished` the commands that it has matched. -/
structure Roundtrip where
  helper : ExecHelper
  input : Reader Byte
  stdin : List Byte
  output : Reader Byte
  given : List Command
  handled : List Line
  finished : List Command

/-- The action is one of the stdin loop on the standard input, or one of the child's stdout or back channel. -/
def ExecHelper.Action.isAt (k : Nat) : ExecHelper.Action → Bool
  | .line _ => true
  | .eof => true
  | .internal (.stdout j _) => j == k
  | .internal (.resend j) => j == k
  | _ => false

/-- The command that is written and pushed on the queue of child `k`, if it is one in this action. -/
def ExecHelper.pushes (s : ExecHelper) (k : Nat) : ExecHelper.Action → List Command
  | .internal .written =>
    match s.control.call with
    | .writing job task j => if j = k then [(job, task)] else []
    | _ => []
  | _ => []

/-- The command that `handle_stdout` of child `k` matches with a line, if it matches one. -/
def ExecHelper.matched (s : ExecHelper) (k : Nat) (ret : Line) : List Command :=
  match s.control.cap.pool.children[k]? with
  | some child =>
    match child.handleStdout s.control.cap.now ret with
    | some (job, _) => [(ret, job.limiter)]
    | none => []
  | none => []

namespace Roundtrip

/-- What happens in the manager and at the child. -/
inductive Action where
  /-- the standard input moves along -/
  | feed (f : Feed Byte)
  /-- the stdin loop reads a line and submits it -/
  | line
  /-- the stdin loop gets to the end of the input -/
  | inputError
  /-- the worker reads a line and answers it -/
  | answer
  /-- the manager reads `k` bytes of the answers -/
  | readSome (k : Nat)
  /-- `read` returns a line, and `handle_stdout` handles it -/
  | stdout
  /-- anything else in the manager -/
  | other (a : ExecHelper.Action)

/-- One action, with the child `k`. -/
def step (k : Nat) (s : Roundtrip) : Action → Option Roundtrip
  | .feed f => (s.input.feed newline f).map (fun input => { s with input := input })
  | .line =>
    (s.input.readUntil newline).bind (fun bytes =>
      let (line, buffer) := bump bytes s.input.buffer
      (s.helper.step (.line line)).map (fun helper => { s with helper := helper, input := { s.input with buffer := buffer } }))
  | .inputError =>
    if s.input.AtEnd newline then (s.helper.step .eof).map (fun helper => { s with helper := helper }) else none
  | .answer =>
    (cut newline s.stdin).bind (fun p =>
      (s.output.feed newline (.arrive (writeLine p.1))).map (fun output => { s with stdin := p.2, output := output }))
  | .readSome j => (s.output.feed newline (.readSome j)).map (fun output => { s with output := output })
  | .stdout =>
    (s.output.readUntil newline).bind (fun bytes =>
      let (ret, buffer) := bump bytes s.output.buffer
      (s.helper.step (.internal (.stdout k ret))).map (fun helper =>
        { s with
          helper := helper
          output := { s.output with buffer := buffer }
          handled := s.handled ++ [ret]
          finished := s.finished ++ s.helper.matched k ret }))
  | .other a =>
    if a.isAt k then none
    else
      (s.helper.step a).map (fun helper =>
        { s with
          helper := helper
          stdin := s.stdin ++ (s.helper.pushes k a).flatMap (fun command => writeLine command.1)
          given := s.given ++ s.helper.pushes k a })

/-- A manager with `n` children, from its start, and its child `k`. -/
def system (n k : Nat) : System Roundtrip Action where
  init :=
    { helper := (ExecHelper.system n).init, input := Reader.start, stdin := [], output := Reader.start, given := [], handled := [],
      finished := [] }
  step := step k

/-- The answers to the job given in place `i`, and to all before it, have been read. -/
def Answered (s : Roundtrip) (i : Nat) : Prop :=
  ((s.given.take (i + 1)).flatMap (fun command => linesIn command.1)).length ≤ s.handled.length

/-- The job given in place `i` has been matched in its turn, its text printed and its token released. -/
def Completed (s : Roundtrip) (i : Nat) (command : Command) : Prop :=
  s.finished[i]? = some command ∧ command.1 ∈ s.helper.control.cap.stdout ∧ command.2 ∉ s.helper.control.cap.limiter.live

end Roundtrip

end FostWright
