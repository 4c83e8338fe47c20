import FostWright.ExecHelper

/-!
# The jobs that come back

When a connection is closed its jobs go to the overspill, and the stdin coroutine clears the overspill before it reads a line. Beside the
manager stand the jobs that `clear_overspill` has taken so far.
-/

namespace FostWright

open Lib

/-- The job that `clear_overspill` takes and submits in an action. -/
def ExecHelper.takes (s : ExecHelper) : ExecHelper.Action → List Line
  | .consume => s.control.cap.overspill.take 1
  | _ => []

/-- The manager, with the jobs taken off the overspill so far. -/
structure Resubmission where
  helper : ExecHelper
  taken : List Line

namespace Resubmission

/-- One action. -/
def step (s : Resubmission) (a : ExecHelper.Action) : Option Resubmission :=
  (s.helper.step a).map (fun helper => { helper := helper, taken := s.taken ++ s.helper.takes a })

/-- The manager with `n` children, from its start. -/
def system (n : Nat) : System Resubmission ExecHelper.Action where
  init := { helper := (ExecHelper.system n).init, taken := [] }
  step := step

end Resubmission

end FostWright
