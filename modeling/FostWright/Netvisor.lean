import FostWright.Net
import FostWright.Progress

/-!
# The network client

`netvisor` at its connection `c`, whatever comes from the other end: the packets that `process_inbound` hands to their handlers, the loop
that takes the jobs of the overspill to `next_job`, the children, and `process_outbound`, while the socket is open. `input_complete` is
never set here, so that the loop goes on for ever. Beside the books stands what has come in and gone out so far.
-/

namespace FostWright

open Lib

/-- The books of a client; the jobs of the `execute` packets, those that `next_job` was called with, those of the `completed` packets
queued, and the packets that have left it, each in order. -/
structure Netvisor where
  control : Control
  received : List Line
  started : List Line
  reported : List Line
  sent : List Packet

namespace Netvisor

/-- What happens in the client. -/
inductive Action where
  /-- a packet is handed to its handler -/
  | inbound (packet : Packet)
  /-- the overspill loop, the limiter, a child or the clock goes on -/
  | event (e : Event)
  /-- `process_outbound` takes a packet from the queue and writes it to the socket -/
  | sends
  /-- a log message is broadcast to the server -/
  | logs (message : Line)

/-- The job that the overspill loop takes to `next_job` in an event. -/
def starts (s : Netvisor) : Event → List Line
  | .consume => s.control.cap.overspill.head?.toList
  | _ => []

/-- The client with other books. -/
def withCap (s : Netvisor) (cap : Capacity) : Netvisor := { s with control := { s.control with cap := cap } }

/-- One action, at the connection `c`. -/
def step (c : ConnId) (s : Netvisor) : Action → Option Netvisor
  | .inbound packet =>
    some { s.withCap (s.control.cap.processInbound (.clientSide c) c packet) with received := s.received ++ packet.jobs }
  | .event e =>
    if e.ofClient then
      (s.control.step (.clientSide c) e).map (fun control =>
        { s with
          control := control
          started := s.started ++ s.starts e
          reported := s.reported ++
            ((control.cap.queue c).drop (s.control.cap.queue c).length).flatMap Packet.results })
    else none
  | .sends => (s.control.cap.consumePacket c).map (fun (packet, cap) => { s.withCap cap with sent := s.sent ++ [packet] })
  | .logs message => some (s.withCap (s.control.cap.produce c (.logMessage message)))

/-- A client with `m` children, at its connection `c`, which has queued its version packet. -/
def system (m overspillCap : Nat) (c : ConnId) : System Netvisor Action where
  init :=
    { control := { cap := (Capacity.init m).established overspillCap c, call := .idle }
      received := []
      started := []
      reported := []
      sent := [] }
  step := step c

/-- What each action needs and leads to, one case for each branch of `step`. -/
inductive Steps (c : ConnId) (s : Netvisor) : Action → Netvisor → Prop where
  | inbound {packet : Packet} :
      Steps c s (.inbound packet)
        { s.withCap (s.control.cap.processInbound (.clientSide c) c packet) with received := s.received ++ packet.jobs }
  | event {e : Event} {control : Control} (ofClient : e.ofClient = true) (step : s.control.step (.clientSide c) e = some control) :
      Steps c s (.event e)
        { s with
          control := control
          started := s.started ++ s.starts e
          reported := s.reported ++
            ((control.cap.queue c).drop (s.control.cap.queue c).length).flatMap Packet.results }
  | sends {packet : Packet} {cap : Capacity} (taken : s.control.cap.consumePacket c = some (packet, cap)) :
      Steps c s .sends { s.withCap cap with sent := s.sent ++ [packet] }
  | logs {message : Line} : Steps c s (.logs message) (s.withCap (s.control.cap.produce c (.logMessage message)))

/-- A step is one of the cases. -/
theorem steps_of_step {c : ConnId} {s s' : Netvisor} {a : Action} (h : s.step c a = some s') : s.Steps c a s' := by
  cases a with
  | inbound packet =>
    cases h
    exact .inbound
  | event e =>
    obtain ⟨he, h⟩ := Option.ite_none_right_eq_some.mp h
    obtain ⟨control, hc, rfl⟩ := Option.map_eq_some_iff.mp h
    exact .event he hc
  | sends =>
    obtain ⟨⟨packet, cap⟩, htaken, rfl⟩ := Option.map_eq_some_iff.mp h
    exact .sends htaken
  | logs message =>
    cases h
    exact .logs

/-- No job of an `execute` packet is empty. -/
def NonEmptyJobs (_ : Netvisor) : Action → Prop
  | .inbound packet => [] ∉ packet.jobs
  | _ => True

instance (s : Netvisor) : ∀ a, Decidable (s.NonEmptyJobs a)
  | .inbound packet => inferInstanceAs (Decidable ([] ∉ packet.jobs))
  | .event _ | .sends | .logs _ => inferInstanceAs (Decidable True)

/-- What takes a job of the client forward, up to the packet that reports it. -/
def Productive (s : Netvisor) : Action → Prop
  | .event e => s.control.Productive e
  | .sends => True
  | .inbound _ | .logs _ => False

/-- What the jobs of the client cost until they are reported, and the packets queued. -/
def remaining (c : ConnId) (s : Netvisor) : Nat := s.control.remaining 3 0 + s.control.cap.queued c

/-- Nothing is queued, and each job received has been reported in a packet that has left. -/
structure Finished (c : ConnId) (s : Netvisor) : Prop where
  flushed : s.control.cap.queue c = []
  reported : s.received.Perm (s.sent.flatMap Packet.results)

end Netvisor

end FostWright
