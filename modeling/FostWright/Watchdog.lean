import FostWright.Lib.Progress
import FostWright.Lib.Timer

/-!
# The watchdogs

`exec_helper` and `netvisor` run their coroutines in two reactor pools, and each pool watches over the other. A `dog` has a heartbeat, whose
handler runs in the pool that it watches over, and a killer, whose handler runs in the other one and ends the process. Each heartbeat puts
the killer off; a killer that is due is not put off any more. A pool that is blocked runs no handler and does not see that a wait is over.
-/

namespace FostWright

open Lib

/-- The reactor pools. -/
inductive Pool where
  | control
  | auxilliary
  deriving DecidableEq

/-- The pool that watches over a pool. -/
def Pool.other : Pool → Pool
  | .control => .auxilliary
  | .auxilliary => .control

theorem Pool.other_ne (p : Pool) : p.other ≠ p := by cases p <;> decide

theorem Pool.eq_or_eq_other (p q : Pool) : q = p ∨ q = p.other := by cases p <;> cases q <;> decide

/-- `boost::posix_time::seconds(1)`, in microseconds. -/
def second : Nat := 1000000

/-- A `dog`, with the time of the last `beat` if it has been added, the time when it was added, and how many heartbeats it has counted. -/
structure Dog where
  heartbeat : Timer
  killer : Timer
  beatAt : Option Nat
  addedAt : Nat
  beats : Nat

namespace Dog

/-- No `dog`. -/
def none : Dog := { heartbeat := .idle, killer := .idle, beatAt := .none, addedAt := 0, beats := 0 }

/-- `beat`. -/
def beat (d : Dog) (now : Nat) : Dog :=
  { d with
    killer := d.killer.wait (now + 2 * second)
    heartbeat := d.heartbeat.wait (now + second)
    beatAt := some now }

/-- The handler of the heartbeat. -/
def heard (d : Dog) (heartbeat : Timer) (now : Nat) : Dog := { d with heartbeat := heartbeat, beats := d.beats + 1 }.beat now

end Dog

/-- The time, the `dog` over each pool, and the pools that are blocked. -/
structure Watchdogs where
  now : Nat
  dog : Pool → Dog
  blocked : Pool → Bool
  exited : Bool

namespace Watchdogs

/-- What happens. -/
inductive Action where
  /-- `add_watchdog` over pool `p` -/
  | add (p : Pool)
  /-- the time goes on -/
  | tick (d : Nat)
  /-- all threads of pool `p` are in handlers that do not return -/
  | block (p : Pool)
  | unblock (p : Pool)
  /-- the wait for the heartbeat of the `dog` over pool `p` is over -/
  | due (p : Pool)
  /-- the handler of the heartbeat -/
  | heartbeat (p : Pool)
  /-- the wait of the killer of the `dog` over pool `p` is over -/
  | late (p : Pool)
  /-- the handler of the killer: `exit(11)` -/
  | kill (p : Pool)

/-- The `dog` over a pool becomes another. -/
def put (s : Watchdogs) (p : Pool) (d : Dog) : Watchdogs := { s with dog := Function.update s.dog p d }

theorem put_self (s : Watchdogs) (p : Pool) (d : Dog) : (s.put p d).dog p = d := Function.update_self _ _ _

theorem put_other (s : Watchdogs) {p q : Pool} (hq : q ≠ p) (d : Dog) : (s.put p d).dog q = s.dog q := Function.update_of_ne hq _ _

/-- One action. -/
def step (s : Watchdogs) (a : Action) : Option Watchdogs :=
  if s.exited then none
  else
    match a with
    | .add p => if (s.dog p).beatAt = none then some (s.put p ({ s.dog p with addedAt := s.now }.beat s.now)) else none
    | .tick d => some { s with now := s.now + d }
    | .block p => some { s with blocked := Function.update s.blocked p true }
    | .unblock p => some { s with blocked := Function.update s.blocked p false }
    | .due p =>
      if s.blocked p then none
      else ((s.dog p).heartbeat.expire s.now).map (fun timer => s.put p { s.dog p with heartbeat := timer })
    | .heartbeat p => if s.blocked p then none else (s.dog p).heartbeat.run.map (fun timer => s.put p ((s.dog p).heard timer s.now))
    | .late p =>
      if s.blocked p.other then none
      else ((s.dog p).killer.expire s.now).map (fun timer => s.put p { s.dog p with killer := timer })
    | .kill p =>
      if s.blocked p.other then none
      else (s.dog p).killer.run.map (fun timer => { s.put p { s.dog p with killer := timer } with exited := true })

/-- Before a watchdog is added. -/
def system : System Watchdogs Action where
  init := { now := 0, dog := fun _ => Dog.none, blocked := fun _ => false, exited := false }
  step := step

/-- What each action needs and leads to, one case for each branch of `step`. -/
inductive Steps (s : Watchdogs) : Action → Watchdogs → Prop where
  | add {p : Pool} (new : (s.dog p).beatAt = none) : Steps s (.add p) (s.put p ({ s.dog p with addedAt := s.now }.beat s.now))
  | tick {d : Nat} : Steps s (.tick d) { s with now := s.now + d }
  | block {p : Pool} : Steps s (.block p) { s with blocked := Function.update s.blocked p true }
  | unblock {p : Pool} : Steps s (.unblock p) { s with blocked := Function.update s.blocked p false }
  | due {p : Pool} {timer : Timer} (runs : s.blocked p = false) (expired : (s.dog p).heartbeat.expire s.now = some timer) :
      Steps s (.due p) (s.put p { s.dog p with heartbeat := timer })
  | heartbeat {p : Pool} {timer : Timer} (runs : s.blocked p = false) (handled : (s.dog p).heartbeat.run = some timer) :
      Steps s (.heartbeat p) (s.put p ((s.dog p).heard timer s.now))
  | late {p : Pool} {timer : Timer} (runs : s.blocked p.other = false) (expired : (s.dog p).killer.expire s.now = some timer) :
      Steps s (.late p) (s.put p { s.dog p with killer := timer })
  | kill {p : Pool} {timer : Timer} (runs : s.blocked p.other = false) (handled : (s.dog p).killer.run = some timer) :
      Steps s (.kill p) { s.put p { s.dog p with killer := timer } with exited := true }

/-- A step is one of the cases, of a process that has not exited. -/
theorem steps_of_step {s s' : Watchdogs} {a : Action} (h : s.step a = some s') : s.exited = false ∧ s.Steps a s' := by
  obtain ⟨hexited, h⟩ := Option.ite_none_left_eq_some.mp h
  refine ⟨Bool.eq_false_iff.mpr hexited, ?_⟩
  cases a with
  | add p =>
    obtain ⟨hnew, rfl⟩ := (Option.ite_none_right_eq_some.mp h).imp_right Option.some.inj
    exact .add hnew
  | tick d =>
    obtain rfl := Option.some.inj h
    exact .tick
  | block p =>
    obtain rfl := Option.some.inj h
    exact .block
  | unblock p =>
    obtain rfl := Option.some.inj h
    exact .unblock
  | due p =>
    obtain ⟨hruns, h⟩ := Option.ite_none_left_eq_some.mp h
    obtain ⟨timer, hexpired, rfl⟩ := Option.map_eq_some_iff.mp h
    exact .due (Bool.eq_false_iff.mpr hruns) hexpired
  | heartbeat p =>
    obtain ⟨hruns, h⟩ := Option.ite_none_left_eq_some.mp h
    obtain ⟨timer, hhandled, rfl⟩ := Option.map_eq_some_iff.mp h
    exact .heartbeat (Bool.eq_false_iff.mpr hruns) hhandled
  | late p =>
    obtain ⟨hruns, h⟩ := Option.ite_none_left_eq_some.mp h
    obtain ⟨timer, hexpired, rfl⟩ := Option.map_eq_some_iff.mp h
    exact .late (Bool.eq_false_iff.mpr hruns) hexpired
  | kill p =>
    obtain ⟨hruns, h⟩ := Option.ite_none_left_eq_some.mp h
    obtain ⟨timer, hhandled, rfl⟩ := Option.map_eq_some_iff.mp h
    exact .kill (Bool.eq_false_iff.mpr hruns) hhandled

/-- No heartbeat is late: two seconds do not go by after a `beat`. -/
def Timely (s : Watchdogs) : Action → Prop
  | .tick d => ∀ p, ∀ beat ∈ (s.dog p).beatAt, s.now + d < beat + 2 * second
  | _ => True

instance (s : Watchdogs) : ∀ a, Decidable (s.Timely a)
  | .tick d =>
    decidable_of_iff (∀ p ∈ [Pool.control, Pool.auxilliary], ∀ beat ∈ (s.dog p).beatAt, s.now + d < beat + 2 * second)
      ⟨fun h p => h p (by cases p <;> decide), fun h p _ => h p⟩
  | .add _ | .block _ | .unblock _ | .due _ | .heartbeat _ | .late _ | .kill _ => inferInstanceAs (Decidable True)

/-- What goes on while pool `p` is blocked: the time, up to two seconds after the last `beat` over it, and the handlers of the other pool. -/
def Watches (p : Pool) (s : Watchdogs) : Action → Prop
  | .tick d => 0 < d ∧ ∀ beat ∈ (s.dog p).beatAt, s.now + d ≤ beat + 2 * second
  | .due _ => True
  | .heartbeat _ => True
  | .late _ => True
  | .kill _ => True
  | _ => False

/-- How far the end is while pool `p` is blocked. While the time goes on, a handler of the other pool may become due: a heartbeat of its own,
or the killer. -/
def remaining (p : Pool) (s : Watchdogs) : Nat :=
  5 * ((s.dog p).beatAt.getD 0 + 2 * second - s.now) + ((s.dog p.other).heartbeat.ready s.now + (s.dog p).killer.ready s.now)

end Watchdogs

end FostWright
