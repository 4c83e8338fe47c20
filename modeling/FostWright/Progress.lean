import FostWright.Lib.Progress
import FostWright.Net

/-!
# What takes a process forward

The steps that bring a job nearer to its completion, or the stdin coroutine nearer to its end, and a measure of how many of them are
left. A job costs more the less has been done about it. What it costs beyond the books of the process is left open: `d` is what an
outstanding job costs until it is completed, and `x` what it costs more when it is given to a connection.
-/

namespace FostWright

open Lib

/-! ## The books -/

/-- The line answers the front of the queue of child `k`. -/
def Capacity.IsAnswer (s : Capacity) (k : Nat) (ret : Line) : Prop :=
  ∃ child, s.pool.children[k]? = some child ∧ (child.handleStdout s.now ret).isSome = true

/-- The job is outstanding for the connection. -/
def Capacity.IsOutstanding (s : Capacity) (c : ConnId) (job : Line) : Prop :=
  ∃ remote, s.connections.find? c = some remote ∧ (remote.work.find? job).isSome = true

/-- The events that take a job forward: `next_job` goes on, or a job is completed. -/
def Control.Productive (s : Control) : Event → Prop
  | .consume => True
  | .token => True
  | .written => True
  | .stdout k ret => s.cap.IsAnswer k ret
  | .packet c (.completed job) => s.cap.IsOutstanding c job
  | _ => False

/-- What the job that `next_job` was called with costs, beyond its token. -/
def NextJob.remaining (d x : Nat) : NextJob → Nat
  | .idle => 0
  | .waiting _ => d + x + 2
  | .writing _ _ _ => 1

/-- What the jobs of the books cost. -/
def Control.remaining (d x : Nat) (s : Control) : Nat :=
  (d + x + 3) * s.cap.overspill.length + s.call.remaining d x + d * s.cap.limiter.outstanding

/-! ## The manager -/

/-- How far the stdin coroutine is from its end. -/
def Stage.remaining : Stage → Nat
  | .clearOverspill false => 4
  | .readLine => 3
  | .clearOverspill true => 2
  | .waitUntilAllDone => 1
  | .returned => 0

namespace ExecHelper

/-- The actions that take the manager to its end: those that take a job forward, and those of the stdin coroutine when there is nothing
more to read. -/
def Productive (s : ExecHelper) : Action → Prop
  | .consume => True
  | .drained => True
  | .eof => True
  | .allDone => True
  | .inbound c packet => s.control.Productive (.packet c packet)
  | .internal e => s.control.Productive e
  | _ => False

/-- What the jobs of the manager cost, and its way to the end. -/
def remaining (d x : Nat) (s : ExecHelper) : Nat := s.control.remaining d x + s.stage.remaining

instance (packet : Packet) : Decidable ([] ∉ packet.jobs) :=
  decidable_of_iff (∀ job ∈ packet.jobs, job ≠ []) ⟨fun h hin => h _ hin rfl, fun h _ hin hempty => h (hempty ▸ hin)⟩

/-- No line of stdin is empty, and no job of an `execute` packet. -/
def NonEmptyJobs (_ : ExecHelper) : Action → Prop
  | .inbound _ packet => [] ∉ packet.jobs
  | .line l => l ≠ []
  | _ => True

instance (s : ExecHelper) : ∀ a, Decidable (s.NonEmptyJobs a)
  | .inbound _ packet => inferInstanceAs (Decidable ([] ∉ packet.jobs))
  | .line l => inferInstanceAs (Decidable (l ≠ []))
  | .consume | .drained | .eof | .allDone | .closed _ | .expire _ | .internal _ => inferInstanceAs (Decidable True)

end ExecHelper

/-! ## The two ends of a connection -/

/-- What a packet in the socket costs until the other end is done with its job. -/
def Packet.remaining : Packet → Nat
  | .execute _ => 7
  | _ => 1

/-- What the packets queued for a connection cost, which are still to be sent. -/
def Capacity.queued (s : Capacity) (c : ConnId) : Nat := ((s.queue c).map (fun packet => packet.remaining + 1)).sum

namespace Net

/-- The actions that take the jobs of the two ends forward: those of each end, the ways of a packet, and that the server notices that the
socket is closed. -/
def Productive (s : Net) : Action → Prop
  | .server a => s.server.Productive a
  | .client e => s.client.Productive e
  | .accepted => True
  | .connected => True
  | .serverSends => True
  | .clientSends => True
  | .serverReceives => True
  | .clientReceives => True
  | .serverCloses => True
  | _ => False

/-- What an end costs until it is established: the version packet. -/
def establishing (ready : Bool) : Nat := if ready then 0 else 3

/-- What the packets between the two ends and the jobs of the client cost. A job that the server gives away costs a packet and what it
costs the client, a job that the client reports costs a packet. -/
def between (c : ConnId) (s : Net) : Nat :=
  s.server.control.cap.queued c + (s.toClient.map Packet.remaining).sum + s.client.remaining 3 0 + s.client.cap.queued c +
    (s.toServer.map Packet.remaining).sum + establishing s.accepted + establishing s.connected

/-- No line of stdin is empty, and no job of an `execute` packet of another connection. -/
def NonEmptyJobs (s : Net) : Action → Prop
  | .server a => s.server.NonEmptyJobs a
  | _ => True

end Net

end FostWright
