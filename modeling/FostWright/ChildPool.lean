import FostWright.Capacity
import FostWright.Lib.System

/-!
# The children as processes

The supervisor processes of a manager, from the constructor of `child_pool` on: they are forked one after the other, and the
handler for SIGCHLD is attached when all of them are there. A death raises the signal, which may be merged with one that is
pending; the handler writes a byte into the signal pipe; `sigchild_reactor` takes a byte and examines one child after the other.
A child that it finds dead with jobs in its queue ends the manager, one with an empty queue is left as it is. The books go on
meanwhile, in another thread.
-/

namespace FostWright

open Lib

/-- What became of the supervisor process of a child. -/
inductive Process where
  | running
  /-- it has ended, and `waitpid` has not returned it -/
  | zombie
  /-- `waitpid` has returned it, with an empty queue: the child is not restarted -/
  | left
  deriving DecidableEq

/-- The books of a manager, the supervisor processes forked so far, and what is on its way from a SIGCHLD to the end of the loop of
`sigchild_reactor` over the children: the signal itself, the bytes in the pipe, and the child that the loop has come to. -/
structure Manager where
  control : Control
  processes : List Process
  attached : Bool
  pending : Bool
  pipe : Nat
  scanning : Option Nat
  exited : Bool

namespace Manager

/-- What happens to the processes and the books. -/
inductive Action where
  /-- the constructor of `child_pool` forks the next child -/
  | fork
  /-- `attach_sigchild_handler` -/
  | attach
  /-- the supervisor process of child `k` ends -/
  | dies (k : Nat)
  /-- a SIGCHLD that no death raised: a supervisor was stopped or goes on -/
  | signal
  /-- `sigchild_handler` -/
  | handler
  /-- `sigchild_reactor` takes a byte from the pipe -/
  | reactor
  /-- `sigchild_reactor` examines the next child, or ends its loop -/
  | scan
  /-- the books go on -/
  | books (e : Event)

/-- A manager with `n` children at the start of the constructor of `child_pool`. -/
def init (n : Nat) : Manager where
  control := { cap := Capacity.init n, call := .idle }
  processes := []
  attached := false
  pending := false
  pipe := 0
  scanning := none
  exited := false

/-- One turn of the loop over the children, at index `i`: `waitpid` returns a child that has ended. -/
def examine (s : Manager) (i : Nat) : Manager :=
  match s.control.cap.pool.children[i]? with
  | some child =>
    if s.processes[i]? = some .zombie then
      (if child.commands.elems = [] then { s with processes := s.processes.set i .left, scanning := some (i + 1) }
      else { s with exited := true })
    else { s with scanning := some (i + 1) }
  | none => { s with scanning := none }

/-- One action. -/
def step (peer : Peering) (s : Manager) (a : Action) : Option Manager :=
  if s.exited then none
  else
    match a with
    | .fork =>
      if s.attached = false ∧ s.processes.length < s.control.cap.pool.children.length then
        some { s with processes := s.processes ++ [.running] }
      else none
    | .attach =>
      if s.attached = false ∧ s.processes.length = s.control.cap.pool.children.length then some { s with attached := true }
      else none
    | .dies k =>
      if s.processes[k]? = some .running then
        some { s with processes := s.processes.set k .zombie, pending := s.pending || s.attached }
      else none
    | .signal => if s.attached then some { s with pending := true } else none
    | .handler => if s.pending then some { s with pending := false, pipe := s.pipe + 1 } else none
    | .reactor =>
      if 0 < s.pipe ∧ s.scanning = none then some { s with pipe := s.pipe - 1, scanning := some 0 } else none
    | .scan => s.scanning.map s.examine
    | .books e => if s.attached then (s.control.step peer e).map (fun control => { s with control := control }) else none

/-- A manager with `n` children, from the start of its constructor. -/
def system (peer : Peering) (n : Nat) : System Manager Action where
  init := init n
  step := step peer

/-- What each action needs and leads to, one case for each branch of `step`. -/
inductive Steps (peer : Peering) (s : Manager) : Action → Manager → Prop where
  | fork (room : s.processes.length < s.control.cap.pool.children.length) :
      Steps peer s .fork { s with processes := s.processes ++ [.running] }
  | attach : Steps peer s .attach { s with attached := true }
  | dies {k : Nat} (running : s.processes[k]? = some .running) :
      Steps peer s (.dies k) { s with processes := s.processes.set k .zombie, pending := s.pending || s.attached }
  | signal : Steps peer s .signal { s with pending := true }
  | handler : Steps peer s .handler { s with pending := false, pipe := s.pipe + 1 }
  | reactor : Steps peer s .reactor { s with pipe := s.pipe - 1, scanning := some 0 }
  | leaves {i : Nat} {child : Childproc} (scanning : s.scanning = some i) (zombie : s.processes[i]? = some .zombie)
      (found : s.control.cap.pool.children[i]? = some child) (empty : child.commands.elems = []) :
      Steps peer s .scan { s with processes := s.processes.set i .left, scanning := some (i + 1) }
  | panics {i : Nat} (scanning : s.scanning = some i) : Steps peer s .scan { s with exited := true }
  | passes {i : Nat} (scanning : s.scanning = some i) (other : s.processes[i]? ≠ some .zombie) :
      Steps peer s .scan { s with scanning := some (i + 1) }
  | ends {i : Nat} (scanning : s.scanning = some i) (last : s.control.cap.pool.children[i]? = none) :
      Steps peer s .scan { s with scanning := none }
  | books {e : Event} {control : Control} (attached : s.attached = true) (event : s.control.step peer e = some control) :
      Steps peer s (.books e) { s with control := control }

/-- A step is one of the cases. -/
theorem steps_of_step {peer : Peering} {s s' : Manager} {a : Action} (h : s.step peer a = some s') : s.Steps peer a s' := by
  unfold step at h
  split at h
  · cases h
  · cases a with
    | fork =>
      obtain ⟨⟨-, hroom⟩, rfl⟩ := (Option.ite_none_right_eq_some.mp h).imp_right Option.some.inj
      exact .fork hroom
    | attach =>
      obtain ⟨-, rfl⟩ := (Option.ite_none_right_eq_some.mp h).imp_right Option.some.inj
      exact .attach
    | dies k =>
      obtain ⟨hrunning, rfl⟩ := (Option.ite_none_right_eq_some.mp h).imp_right Option.some.inj
      exact .dies hrunning
    | signal =>
      obtain ⟨-, rfl⟩ := (Option.ite_none_right_eq_some.mp h).imp_right Option.some.inj
      exact .signal
    | handler =>
      obtain ⟨-, rfl⟩ := (Option.ite_none_right_eq_some.mp h).imp_right Option.some.inj
      exact .handler
    | reactor =>
      obtain ⟨-, rfl⟩ := (Option.ite_none_right_eq_some.mp h).imp_right Option.some.inj
      exact .reactor
    | scan =>
      obtain ⟨i, hscanning, rfl⟩ := Option.map_eq_some_iff.mp h
      unfold examine
      split
      · rename_i child hfound
        split
        · rename_i hzombie
          split
          · rename_i hempty
            exact .leaves hscanning hzombie hfound hempty
          · exact .panics hscanning
        · rename_i hother
          exact .passes hscanning hother
      · rename_i hnone
        exact .ends hscanning hnone
    | books e =>
      obtain ⟨hattached, h⟩ := Option.ite_none_right_eq_some.mp h
      obtain ⟨control, hevent, rfl⟩ := Option.map_eq_some_iff.mp h
      exact .books hattached hevent

/-- The supervisor process of child `k` has ended. -/
def Ended (s : Manager) (k : Nat) : Prop := s.processes[k]? = some .zombie ∨ s.processes[k]? = some .left

/-- Every SIGCHLD has been handled and the signal pipe is drained. -/
def Quiet (s : Manager) : Prop := s.pending = false ∧ s.pipe = 0 ∧ s.scanning = none

/-- A SIGCHLD is pending, in the pipe or being handled that will have child `k` examined. -/
def Noticed (s : Manager) (k : Nat) : Prop := s.pending = true ∨ 0 < s.pipe ∨ ∃ i ∈ s.scanning, i ≤ k

/-- Child `k` has ended for good: the reactor has left it, or nothing is on its way that will have it examined. -/
def Lost (s : Manager) (k : Nat) : Prop :=
  s.processes[k]? = some .left ∨ s.processes[k]? = some .zombie ∧ ¬s.Noticed k

instance (s : Manager) (k : Nat) : Decidable (s.Ended k) := inferInstanceAs (Decidable (_ ∨ _))

instance (s : Manager) : Decidable s.Quiet := inferInstanceAs (Decidable (_ ∧ _ ∧ _))

instance (s : Manager) (k : Nat) : Decidable (s.Noticed k) := inferInstanceAs (Decidable (_ ∨ _ ∨ _))

instance (s : Manager) (k : Nat) : Decidable (s.Lost k) := inferInstanceAs (Decidable (_ ∨ _ ∧ _))

end Manager

/-- `next_job` is called. -/
def Event.calls : Event → Bool
  | .nextJob _ => true
  | .consume => true
  | _ => false

/-- `next_job` has been called and waits for a token. -/
def NextJob.waits : NextJob → Bool
  | .waiting _ => true
  | _ => false

/-- The child that `next_job` is writing to. -/
def NextJob.target : NextJob → Option Nat
  | .writing _ _ k => some k
  | _ => none

/-- The child to which `next_job` gives a job in an event: the one it chooses, or the one whose write is over. -/
def Control.dispatchedTo (peer : Peering) (s : Control) : Event → Option Nat
  | .token => (s.step peer .token).bind (fun s' => s'.call.target)
  | .written => s.call.target
  | _ => none

end FostWright
