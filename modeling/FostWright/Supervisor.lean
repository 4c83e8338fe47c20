import FostWright.Defs

/-!
# The supervisor of a worker

`fork_worker` is the body of a supervisor process: it forks a worker, waits for it, and either returns or asks the manager for a
resend and forks the next one. What it knows of the end of a worker is the status that `waitpid` stores, in which an exit code and the
number of a signal are in different bits.
-/

namespace FostWright

/-- How a worker ended: it exited with a code, or died by a signal, with or without a core dump. The signals are numbered from one. -/
inductive Termination where
  | exited (code : Fin 256)
  | signaled (signal : Fin 126) (core : Bool)
  deriving DecidableEq

namespace Termination

/-- The status of a termination, as `waitpid` stores it. -/
def status : Termination → Nat
  | .exited code => code.val <<< 8
  | .signaled signal core => (signal.val + 1) ||| (if core then 0x80 else 0)

/-- The worker is done: it exited normally with code 0. -/
def Done : Termination → Prop
  | .exited code => code.val = 0
  | .signaled _ _ => False

/-- The worker died by a signal. -/
def Killed : Termination → Prop
  | .exited _ => False
  | .signaled _ _ => True

instance : DecidablePred Done
  | .exited code => inferInstanceAs (Decidable (code.val = 0))
  | .signaled _ _ => inferInstanceAs (Decidable False)

instance : DecidablePred Killed
  | .exited _ => inferInstanceAs (Decidable False)
  | .signaled _ _ => inferInstanceAs (Decidable True)

end Termination

/-- `WEXITSTATUS`. -/
def wexitstatus (status : Nat) : Nat := (status &&& 0xff00) >>> 8

/-- One turn of the loop of `fork_worker`: whether `fork` succeeds, whether `execvp` does in the new process, and how that ends. -/
structure Attempt where
  forks : Bool
  execs : Bool
  ended : Termination

/-- A turn in which `fork` and `execvp` succeed. -/
def Attempt.started (t : Termination) : Attempt := { forks := true, execs := true, ended := t }

/-- What a supervisor does that can be seen from outside. -/
inductive Effect where
  | forked
  | waited (t : Termination)
  /-- a byte is written to the resend descriptor -/
  | wrote (byte : Byte)
  | returned
  | exited (code : Nat)
  deriving DecidableEq

/-- `fork_worker`, as far as the turns of its loop are given. -/
def forkWorker : List Attempt → List Effect
  | [] => []
  | a :: as =>
    if a.forks then
      -- the new process writes its byte and returns when it cannot become the worker
      [.forked] ++ (if a.execs then [] else [.wrote deadByte]) ++ [.waited a.ended] ++
        (if wexitstatus a.ended.status = 0 then [.returned] else .wrote resendByte :: forkWorker as)
    else [.exited 5]

/-- The termination that was waited for. -/
def Effect.ended? : Effect → Option Termination
  | .waited t => some t
  | _ => none

/-- The terminations up to the first worker that is done, that one included. -/
def untilDone : List Termination → List Termination
  | [] => []
  | t :: ts => if t.Done then [t] else t :: untilDone ts

/-- After every worker that is not done, the next thing in the trace is an `r`. -/
def Resends (trace : List Effect) : Prop :=
  ∀ {pre post : List Effect} {t : Termination}, trace = pre ++ .waited t :: post → ¬ t.Done →
    ∃ post' : List Effect, post = .wrote resendByte :: post'

/-- The worker is restarted after every crash, in the trace of a supervisor whose workers end as given: it waits for each of them up to
the first one that is done, and each was forked right before; it returns only after a worker that is done; after every other one it
writes an `r`; it writes no other `r`; and every fork but the first follows right after an `r`. -/
structure Restarts (ts : List Termination) (trace : List Effect) : Prop where
  attends : trace.filterMap Effect.ended? = untilDone ts
  starts : ∀ {pre post : List Effect} {t : Termination}, trace = pre ++ .waited t :: post →
    ∃ pre' : List Effect, pre = pre' ++ [.forked]
  returns : ∀ {pre post : List Effect}, trace = pre ++ .returned :: post →
    ∃ (t : Termination) (pre' : List Effect), t.Done ∧ pre = pre' ++ [.waited t]
  resends : Resends trace
  only : ∀ {pre post : List Effect}, trace = pre ++ .wrote resendByte :: post →
    ∃ (t : Termination) (pre' : List Effect), ¬ t.Done ∧ pre = pre' ++ [.waited t]
  restarts : ∀ {pre post : List Effect}, trace = pre ++ .forked :: post →
    pre = [] ∨ ∃ pre' : List Effect, pre = pre' ++ [.wrote resendByte]

end FostWright
