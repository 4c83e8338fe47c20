import FostWright.Lib.Reader
import FostWright.Lib.System
import FostWright.Lines

/-!
# The stdin loop

The coroutine of `exec_helper` that reads jobs from the standard input and gives them to `next_job`. Its buffer persists between the
calls of `async_read_until`, which reads until there is a newline in it; an error at the end of the input ends the loop. The jobs it
fetches from the overspill meanwhile are left out.
-/

namespace FostWright

open Lib

/-- The standard input, the jobs submitted to `next_job`, and whether the loop has been left. -/
structure StdinLoop where
  reader : Reader Byte
  submitted : List Line
  done : Bool

namespace StdinLoop

/-- What happens at the standard input. -/
inductive Action where
  /-- the input moves along -/
  | feed (f : Feed Byte)
  /-- `async_read_until` completes with a number of bytes, which become a job -/
  | line
  /-- `async_read_until` completes with an error: end of file, and no newline left -/
  | inputError

/-- One action. -/
def step (s : StdinLoop) (a : Action) : Option StdinLoop :=
  if s.done then none
  else
    match a with
    | .feed f => (s.reader.feed newline f).map (fun reader => { s with reader := reader })
    | .line =>
      (s.reader.readUntil newline).map (fun bytes =>
        let (line, buffer) := bump bytes s.reader.buffer
        { s with reader := { s.reader with buffer := buffer }, submitted := s.submitted ++ [line] })
    | .inputError => if s.reader.AtEnd newline then some { s with done := true } else none

def system : System StdinLoop Action where
  init := { reader := Reader.start, submitted := [], done := false }
  step := step

/-- A run of the loop to its end on a stream, however it arrives, submits the jobs. -/
def Submits (stream : List Byte) (jobs : List Line) : Prop :=
  ∃ s, system.Reachable s ∧ s.done = true ∧ s.reader.arrived = stream ∧ s.submitted = jobs

/-- All lines of a stream without their NULs, the last one too if no newline ends it. -/
def allLines (stream : List Byte) : List Line :=
  ((unframe newline stream).1 ++ [(unframe newline stream).2]).map readLine

/-- The lines that are not empty. -/
def nonEmpty (lines : List Line) : List Line := lines.filter (fun line => line ≠ [])

/-- What follows the last newline of a stream, without its NULs. -/
def tail (stream : List Byte) : Line := readLine (unframe newline stream).2

end StdinLoop

end FostWright
