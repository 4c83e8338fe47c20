import FostWright.ExecHelper

/-!
# A server and a client

`exec_helper` and `netvisor` at the two ends of one connection. Each end has its books and its schedule; between them are the
outbound queue of each end, which `process_outbound` empties into the socket, and the two directions of the socket, which are
reliable and keep the order. A packet is handled when the version that the receiving end has negotiated knows it, and only
warned about otherwise. `dispatched` are the texts that the server has given to the connection so far.
-/

namespace FostWright

open Lib

/-- The version of `g_proto` that adds the packet. -/
def Packet.since : Packet → Nat
  | .version _ _ => 0
  | _ => 1

/-- `g_proto.max_version()`. -/
def maxVersion : Nat := 1

/-- The version of a connection once `in::version`, or another handler, is done with a packet. -/
def negotiate (version : Nat) : Packet → Nat
  | .version v _ => min v maxVersion
  | _ => version

/-- The job of a `completed` packet. -/
def Packet.results : Packet → List Line
  | .completed job => [job]
  | _ => []

namespace Capacity

/-- `out::version`: the highest version, and the slots of the process with those of its overspill. -/
def outVersion (overspillCap : Nat) (s : Capacity) : Packet :=
  .version maxVersion (some (s.limiter.limit.toNat + overspillCap * s.pool.children.length))

/-- `connection::established`: the version packet is queued. -/
def established (overspillCap : Nat) (s : Capacity) (c : ConnId) : Capacity := s.produce c (s.outVersion overspillCap)

/-- `queue.consume` in `process_outbound`. -/
def consumePacket (s : Capacity) (c : ConnId) : Option (Packet × Capacity) :=
  match s.queue c with
  | packet :: rest => some (packet, { s with queue := Function.update s.queue c rest })
  | [] => none

end Capacity

/-- The manager with other books. -/
def ExecHelper.withCap (s : ExecHelper) (cap : Capacity) : ExecHelper := { s with control := { s.control with cap := cap } }

/-- What goes on in the client without a packet: the loop over the overspill, and what is internal to the books. -/
def Event.ofClient : Event → Bool
  | .consume => true
  | e => e.internal

/-- The two ends of a connection and what is between them. `accepted` and `connected` say that `established` was called at the
server and at the client, `closed` that the socket was closed or broke. -/
structure Net where
  server : ExecHelper
  client : Control
  toClient : List Packet
  toServer : List Packet
  serverVersion : Nat
  clientVersion : Nat
  accepted : Bool
  connected : Bool
  closed : Bool
  dispatched : List Line

namespace Net

/-- What happens at the two ends and between them. -/
inductive Action where
  /-- an action of the server that is not about the connection -/
  | server (a : ExecHelper.Action)
  /-- an event of the client -/
  | client (e : Event)
  | accepted
  | connected
  | serverSends
  | clientSends
  | serverReceives
  | clientReceives
  /-- a log message is broadcast to the other end -/
  | serverLogs (message : Line)
  | clientLogs (message : Line)
  | close
  /-- the server notices that the connection is closed -/
  | serverCloses

/-- One action over the connection `c`. -/
def step (overspillCap : Nat) (c : ConnId) (s : Net) : Action → Option Net
  | .server a =>
    if a.about = some c then none
    else
      (s.server.step a).map (fun server =>
        { s with
          server := server
          dispatched := s.dispatched ++
            ((server.control.cap.queue c).drop (s.server.control.cap.queue c).length).flatMap Packet.jobs })
  | .client e =>
    if e.ofClient then (s.client.step (.clientSide c) e).map (fun client => { s with client := client }) else none
  | .accepted =>
    if s.accepted then none
    else some { s with server := s.server.withCap (s.server.control.cap.established overspillCap c), accepted := true }
  | .connected =>
    if s.connected then none
    else some { s with client := { s.client with cap := s.client.cap.established overspillCap c }, connected := true }
  | .serverSends =>
    if s.accepted ∧ ¬s.closed then
      (s.server.control.cap.consumePacket c).map (fun (packet, cap) =>
        { s with server := s.server.withCap cap, toClient := s.toClient ++ [packet] })
    else none
  | .clientSends =>
    if s.connected ∧ ¬s.closed then
      (s.client.cap.consumePacket c).map (fun (packet, cap) =>
        { s with client := { s.client with cap := cap }, toServer := s.toServer ++ [packet] })
    else none
  | .serverReceives =>
    match s.toServer with
    | packet :: rest =>
      if s.accepted ∧ c ∉ s.server.ended then
        (if packet.since ≤ s.serverVersion then s.server.step (.inbound c packet) else some s.server).map (fun server =>
          { s with server := server, toServer := rest, serverVersion := negotiate s.serverVersion packet })
      else none
    | [] => none
  | .clientReceives =>
    match s.toClient with
    | packet :: rest =>
      if s.connected then
        some { s with
          client := { s.client with
            cap := if packet.since ≤ s.clientVersion then s.client.cap.processInbound (.clientSide c) c packet else s.client.cap }
          toClient := rest
          clientVersion := negotiate s.clientVersion packet }
      else none
    | [] => none
  | .serverLogs message => some { s with server := s.server.withCap (s.server.control.cap.produce c (.logMessage message)) }
  | .clientLogs message => some { s with client := { s.client with cap := s.client.cap.produce c (.logMessage message) } }
  | .close => some { s with closed := true }
  | .serverCloses => if s.closed then (s.server.step (.closed c)).map (fun server => { s with server := server }) else none

/-- A server with `n` children and a client with `m` children, before the connection `c` is established. -/
def system (n m overspillCap : Nat) (c : ConnId) : System Net Action where
  init :=
    { server := (ExecHelper.system n).init
      client := { cap := Capacity.init m, call := .idle }
      toClient := []
      toServer := []
      serverVersion := 0
      clientVersion := 0
      accepted := false
      connected := false
      closed := false
      dispatched := [] }
  step := step overspillCap c

/-- What each action needs and leads to, one case for each branch of `step`. -/
inductive Steps (overspillCap : Nat) (c : ConnId) (s : Net) : Action → Net → Prop where
  | server {a : ExecHelper.Action} {server : ExecHelper} (about : a.about ≠ some c) (step : s.server.step a = some server) :
      Steps overspillCap c s (.server a)
        { s with
          server := server
          dispatched := s.dispatched ++
            ((server.control.cap.queue c).drop (s.server.control.cap.queue c).length).flatMap Packet.jobs }
  | client {e : Event} {client : Control} (ofClient : e.ofClient = true) (step : s.client.step (.clientSide c) e = some client) :
      Steps overspillCap c s (.client e) { s with client := client }
  | accepted :
      Steps overspillCap c s .accepted
        { s with server := s.server.withCap (s.server.control.cap.established overspillCap c), accepted := true }
  | connected :
      Steps overspillCap c s .connected
        { s with client := { s.client with cap := s.client.cap.established overspillCap c }, connected := true }
  | serverSends {packet : Packet} {cap : Capacity} (taken : s.server.control.cap.consumePacket c = some (packet, cap)) :
      Steps overspillCap c s .serverSends { s with server := s.server.withCap cap, toClient := s.toClient ++ [packet] }
  | clientSends {packet : Packet} {cap : Capacity} (taken : s.client.cap.consumePacket c = some (packet, cap)) :
      Steps overspillCap c s .clientSends
        { s with client := { s.client with cap := cap }, toServer := s.toServer ++ [packet] }
  | serverReceives {packet : Packet} {rest : List Packet} {server : ExecHelper} (received : s.toServer = packet :: rest)
      (ready : s.accepted = true) (known : packet.since ≤ s.serverVersion)
      (step : s.server.step (.inbound c packet) = some server) :
      Steps overspillCap c s .serverReceives
        { s with server := server, toServer := rest, serverVersion := negotiate s.serverVersion packet }
  | serverWarns {packet : Packet} {rest : List Packet} (received : s.toServer = packet :: rest)
      (unknown : ¬packet.since ≤ s.serverVersion) :
      Steps overspillCap c s .serverReceives
        { s with toServer := rest, serverVersion := negotiate s.serverVersion packet }
  | clientReceives {packet : Packet} {rest : List Packet} (received : s.toClient = packet :: rest)
      (ready : s.connected = true) (known : packet.since ≤ s.clientVersion) :
      Steps overspillCap c s .clientReceives
        { s with
          client := { s.client with cap := s.client.cap.processInbound (.clientSide c) c packet }
          toClient := rest
          clientVersion := negotiate s.clientVersion packet }
  | clientWarns {packet : Packet} {rest : List Packet} (received : s.toClient = packet :: rest)
      (unknown : ¬packet.since ≤ s.clientVersion) :
      Steps overspillCap c s .clientReceives
        { s with toClient := rest, clientVersion := negotiate s.clientVersion packet }
  | serverLogs {message : Line} :
      Steps overspillCap c s (.serverLogs message)
        { s with server := s.server.withCap (s.server.control.cap.produce c (.logMessage message)) }
  | clientLogs {message : Line} :
      Steps overspillCap c s (.clientLogs message)
        { s with client := { s.client with cap := s.client.cap.produce c (.logMessage message) } }
  | close : Steps overspillCap c s .close { s with closed := true }
  | serverCloses {server : ExecHelper} (closed : s.closed = true) (step : s.server.step (.closed c) = some server) :
      Steps overspillCap c s .serverCloses { s with server := server }

/-- A step is one of the cases. -/
theorem steps_of_step {overspillCap : Nat} {c : ConnId} {s s' : Net} {a : Action} (h : s.step overspillCap c a = some s') :
    s.Steps overspillCap c a s' := by
  cases a with
  | server a =>
    simp only [step] at h
    split at h
    · cases h
    · rename_i habout
      obtain ⟨server, hs, rfl⟩ := Option.map_eq_some_iff.mp h
      exact .server habout hs
  | client e =>
    simp only [step] at h
    split at h
    · rename_i he
      obtain ⟨client, hs, rfl⟩ := Option.map_eq_some_iff.mp h
      exact .client he hs
    · cases h
  | accepted =>
    simp only [step] at h
    split at h
    · cases h
    · cases h
      exact .accepted
  | connected =>
    simp only [step] at h
    split at h
    · cases h
    · cases h
      exact .connected
  | serverSends =>
    simp only [step] at h
    split at h
    · obtain ⟨⟨packet, cap⟩, htaken, rfl⟩ := Option.map_eq_some_iff.mp h
      exact .serverSends htaken
    · cases h
  | clientSends =>
    simp only [step] at h
    split at h
    · obtain ⟨⟨packet, cap⟩, htaken, rfl⟩ := Option.map_eq_some_iff.mp h
      exact .clientSends htaken
    · cases h
  | serverReceives =>
    simp only [step] at h
    split at h
    · rename_i packet rest hreceived
      obtain ⟨⟨hready, -⟩, h⟩ := Option.ite_none_right_eq_some.mp h
      by_cases hknown : packet.since ≤ s.serverVersion
      · rw [if_pos hknown] at h
        obtain ⟨server, hs, rfl⟩ := Option.map_eq_some_iff.mp h
        exact .serverReceives hreceived hready hknown hs
      · rw [if_neg hknown] at h
        cases h
        exact .serverWarns hreceived hknown
    · cases h
  | clientReceives =>
    simp only [step] at h
    split at h
    · rename_i packet rest hreceived
      obtain ⟨hready, h⟩ := Option.ite_none_right_eq_some.mp h
      by_cases hknown : packet.since ≤ s.clientVersion
      · rw [if_pos hknown] at h
        cases h
        exact .clientReceives hreceived hready hknown
      · rw [if_neg hknown] at h
        cases h
        exact .clientWarns hreceived hknown
    · cases h
  | serverLogs message =>
    cases h
    exact .serverLogs
  | clientLogs message =>
    cases h
    exact .clientLogs
  | close =>
    cases h
    exact .close
  | serverCloses =>
    simp only [step] at h
    split at h
    · rename_i hclosed
      obtain ⟨server, hs, rfl⟩ := Option.map_eq_some_iff.mp h
      exact .serverCloses hclosed hs
    · cases h

end Net

end FostWright
