import FostWright.Capacity
import FostWright.Lib.System

/-!
# How the jobs are spread

`next_job` steps `child_index` on before it looks at a child, so that it does not try the same child two times in a row without trying the
others first. Beside the books stand the children that its loop has looked at, each with whether its queue was full, and those that it has
chosen.
-/

namespace FostWright

open Lib

/-- The children that the loop of `next_job` looks at, with whether their queues are full. -/
def Capacity.looksAt (children : List Childproc) (index : Nat) : Nat → List (Nat × Bool)
  | 0 => []
  | fuel + 1 =>
    match children[(index + 1) % children.length]? with
    | some child =>
      if child.commands.full then
        ((index + 1) % children.length, true) :: looksAt children ((index + 1) % children.length) fuel
      else [((index + 1) % children.length, false)]
    | none => []

namespace Control

/-- The children that are looked at in an event: those of the loop, when there is a token and no connection has spare capacity. -/
def looks (s : Control) : Event → List (Nat × Bool)
  | .token =>
    match s.call, s.cap.limiter.nextJob with
    | .waiting _, some (_, limiter) =>
      match (s.cap.accept limiter).spare with
      | some _ => []
      | none => Capacity.looksAt s.cap.pool.children s.cap.childIndex s.cap.pool.children.length
    | _, _ => []
  | _ => []

/-- The child to which `next_job` is writing after an event in which it has chosen one. -/
def chooses (s' : Control) : Event → List Nat
  | .token =>
    match s'.call with
    | .writing _ _ k => [k]
    | _ => []
  | _ => []

end Control

/-- The books of a process, with the children that have been looked at and those that have been chosen so far. -/
structure Rotation where
  control : Control
  looked : List (Nat × Bool)
  chosen : List Nat

namespace Rotation

/-- One event. -/
def step (peer : Peering) (s : Rotation) (e : Event) : Option Rotation :=
  (s.control.step peer e).map (fun control =>
    { control := control, looked := s.looked ++ s.control.looks e, chosen := s.chosen ++ control.chooses e })

/-- A process with `n` children, from its start. -/
def system (peer : Peering) (n : Nat) : System Rotation Event where
  init := { control := { cap := Capacity.init n, call := .idle }, looked := [], chosen := [] }
  step := step peer

end Rotation

end FostWright
