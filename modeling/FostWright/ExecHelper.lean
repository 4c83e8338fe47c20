import FostWright.Capacity
import FostWright.Lib.System

/-!
# The manager

`exec_helper`: the books of the manager and the coroutine that reads stdin. The coroutine clears the overspill, reads a line,
submits it and starts over; at the end of the input it clears the overspill once more, sets `input_complete` and waits until no
token is alive. Between its yield points the other coroutines run: the limiter, the children, the connections and the clock.
-/

namespace FostWright

open Lib

/-- Where the stdin coroutine stands, or goes on from when the `next_job` it is suspended in returns. -/
inductive Stage where
  /-- at `overspill.consume()` in `clear_overspill`, the last one when `last` is set -/
  | clearOverspill (last : Bool)
  /-- suspended in `async_read_until` on stdin -/
  | readLine
  /-- suspended in `wait_until_all_done` -/
  | waitUntilAllDone
  /-- past `wait_until_all_done`: the blocker is set -/
  | returned
  deriving DecidableEq

/-- The manager: its books and its `next_job`, the stdin coroutine and the connections whose `process_inbound` has ended. `read`
are the lines read from stdin and `executed` the jobs that came in `execute` packets, so far. -/
structure ExecHelper where
  control : Control
  stage : Stage
  ended : List ConnId
  read : List Line
  executed : List Line

/-- The job of an `execute` packet. -/
def Packet.jobs : Packet → List Line
  | .execute job => [job]
  | _ => []

/-- The events that need nothing of the stdin coroutine or of a connection. -/
def Event.internal : Event → Bool
  | .token => true
  | .written => true
  | .stdout _ _ => true
  | .resend _ => true
  | .tick _ => true
  | _ => false

/-- The connection that an event is about. -/
def Event.about : Event → Option ConnId
  | .packet c _ => some c
  | .overspillWork c => some c
  | _ => none

namespace ExecHelper

/-- What happens in the manager. -/
inductive Action where
  /-- `clear_overspill` takes a job and submits it -/
  | consume
  /-- `clear_overspill` finds the overspill empty -/
  | drained
  /-- a line of stdin is read and submitted -/
  | line (l : Line)
  /-- the read of stdin ends with an error -/
  | eof
  /-- `wait_until_all_done` returns -/
  | allDone
  /-- `process_inbound` receives a packet of connection `c` -/
  | inbound (c : ConnId) (packet : Packet)
  /-- connection `c` is closed and `process_inbound` ends -/
  | closed (c : ConnId)
  /-- the last `shared_ptr` to connection `c` is gone -/
  | expire (c : ConnId)
  /-- the limiter, a child or the clock goes on -/
  | internal (e : Event)

/-- The connection that an action is about. -/
def Action.about : Action → Option ConnId
  | .inbound c _ => some c
  | .closed c => some c
  | _ => none

/-- One action. -/
def step (s : ExecHelper) : Action → Option ExecHelper
  | .consume =>
    match s.stage with
    | .clearOverspill _ => (s.control.step .serverSide .consume).map (fun control => { s with control := control })
    | _ => none
  | .drained =>
    match s.stage, s.control.call, s.control.cap.overspill with
    | .clearOverspill false, .idle, [] => some { s with stage := .readLine }
    | .clearOverspill true, .idle, [] =>
      (s.control.step .serverSide .inputComplete).map
        (fun control => { s with control := control, stage := .waitUntilAllDone })
    | _, _, _ => none
  | .line l =>
    match s.stage with
    | .readLine =>
      (s.control.step .serverSide (.nextJob l)).map
        (fun control => { s with control := control, stage := .clearOverspill false, read := s.read ++ [l] })
    | _ => none
  | .eof =>
    match s.stage with
    | .readLine => some { s with stage := .clearOverspill true }
    | _ => none
  | .allDone =>
    match s.stage with
    | .waitUntilAllDone => if s.control.cap.limiter.outstanding = 0 then some { s with stage := .returned } else none
    | _ => none
  | .inbound c packet =>
    if c ∈ s.ended then none
    else
      match s.control.cap.dispatch .serverSide c packet with
      | .ok cap => some { s with control := { s.control with cap := cap }, executed := s.executed ++ packet.jobs }
      | .error _ =>
        some { s with
          control := { s.control with cap := s.control.cap.redistribute .serverSide c }
          ended := c :: s.ended }
  | .closed c =>
    if c ∈ s.ended then none
    else
      some { s with
        control := { s.control with cap := s.control.cap.redistribute .serverSide c }
        ended := c :: s.ended }
  | .expire c =>
    if c ∈ s.ended then (s.control.step .serverSide (.expire c)).map (fun control => { s with control := control }) else none
  | .internal e =>
    if e.internal then (s.control.step .serverSide e).map (fun control => { s with control := control }) else none

/-- What each action needs and leads to, one case for each branch of `step`. -/
inductive Steps (s : ExecHelper) : Action → ExecHelper → Prop where
  | consume {last : Bool} {control : Control} (stage : s.stage = .clearOverspill last)
      (event : s.control.step .serverSide .consume = some control) : Steps s .consume { s with control := control }
  | drained (stage : s.stage = .clearOverspill false) (call : s.control.call = .idle) (empty : s.control.cap.overspill = []) :
      Steps s .drained { s with stage := .readLine }
  | drainedLast {control : Control} (stage : s.stage = .clearOverspill true) (call : s.control.call = .idle)
      (empty : s.control.cap.overspill = []) (event : s.control.step .serverSide .inputComplete = some control) :
      Steps s .drained { s with control := control, stage := .waitUntilAllDone }
  | line {l : Line} {control : Control} (stage : s.stage = .readLine)
      (event : s.control.step .serverSide (.nextJob l) = some control) :
      Steps s (.line l) { s with control := control, stage := .clearOverspill false, read := s.read ++ [l] }
  | eof (stage : s.stage = .readLine) : Steps s .eof { s with stage := .clearOverspill true }
  | allDone (stage : s.stage = .waitUntilAllDone) (done : s.control.cap.limiter.outstanding = 0) :
      Steps s .allDone { s with stage := .returned }
  | inbound {c : ConnId} {packet : Packet} {cap : Capacity} (alive : c ∉ s.ended)
      (handled : s.control.cap.dispatch .serverSide c packet = .ok cap) :
      Steps s (.inbound c packet)
        { s with control := { s.control with cap := cap }, executed := s.executed ++ packet.jobs }
  | thrown {c : ConnId} {packet : Packet} {error : String} (alive : c ∉ s.ended)
      (handled : s.control.cap.dispatch .serverSide c packet = .error error) :
      Steps s (.inbound c packet)
        { s with control := { s.control with cap := s.control.cap.overspillWork c }, ended := c :: s.ended }
  | closed {c : ConnId} (alive : c ∉ s.ended) :
      Steps s (.closed c)
        { s with control := { s.control with cap := s.control.cap.overspillWork c }, ended := c :: s.ended }
  | expire {c : ConnId} {control : Control} (dead : c ∈ s.ended)
      (event : s.control.step .serverSide (.expire c) = some control) : Steps s (.expire c) { s with control := control }
  | internal {e : Event} {control : Control} (internal : e.internal = true)
      (event : s.control.step .serverSide e = some control) : Steps s (.internal e) { s with control := control }

/-- A step is one of the cases. -/
theorem steps_of_step {s s' : ExecHelper} {a : Action} (h : s.step a = some s') : s.Steps a s' := by
  cases a with
  | consume =>
    simp only [step] at h
    split at h
    · rename_i last hstage
      obtain ⟨control, hc, rfl⟩ := Option.map_eq_some_iff.mp h
      exact .consume hstage hc
    · cases h
  | drained =>
    simp only [step] at h
    split at h
    · rename_i hstage hcall hover
      cases h
      exact .drained hstage hcall hover
    · rename_i hstage hcall hover
      obtain ⟨control, hc, rfl⟩ := Option.map_eq_some_iff.mp h
      exact .drainedLast hstage hcall hover hc
    · cases h
  | line l =>
    simp only [step] at h
    split at h
    · rename_i hstage
      obtain ⟨control, hc, rfl⟩ := Option.map_eq_some_iff.mp h
      exact .line hstage hc
    · cases h
  | eof =>
    simp only [step] at h
    split at h
    · rename_i hstage
      cases h
      exact .eof hstage
    · cases h
  | allDone =>
    simp only [step] at h
    split at h
    · rename_i hstage
      obtain ⟨hdone, rfl⟩ := (Option.ite_none_right_eq_some.mp h).imp_right Option.some.inj
      exact .allDone hstage hdone
    · cases h
  | inbound c packet =>
    simp only [step] at h
    split at h
    · cases h
    · rename_i halive
      split at h
      · rename_i cap hd
        cases h
        exact .inbound halive hd
      · rename_i error hd
        cases h
        exact .thrown halive hd
  | closed c =>
    simp only [step] at h
    split at h
    · cases h
    · rename_i halive
      cases h
      exact .closed halive
  | expire c =>
    simp only [step] at h
    split at h
    · rename_i hdead
      obtain ⟨control, hc, rfl⟩ := Option.map_eq_some_iff.mp h
      exact .expire hdead hc
    · cases h
  | internal e =>
    simp only [step] at h
    split at h
    · rename_i he
      obtain ⟨control, hc, rfl⟩ := Option.map_eq_some_iff.mp h
      exact .internal he hc
    · cases h

/-- The manager with `n` children, from its start. -/
def system (n : Nat) : System ExecHelper Action where
  init :=
    { control := { cap := Capacity.init n, call := .idle }, stage := .clearOverspill false, ended := [], read := [], executed := [] }
  step := step

end ExecHelper

end FostWright
