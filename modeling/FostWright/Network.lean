import FostWright.Progress
import Mathlib.Algebra.BigOperators.Group.Finset.Basic

/-!
# The manager and its clients

`exec_helper` with any number of `netvisor`s, each at a connection of its own. What the server does by itself may queue a packet for any of
them; everything else happens at one connection and is an action of `Net` there.
-/

namespace FostWright

open Lib

/-- What belongs to one connection: the fields of `Net` without the server. -/
structure Side where
  client : Control
  toClient : List Packet
  toServer : List Packet
  serverVersion : Nat
  clientVersion : Nat
  accepted : Bool
  connected : Bool
  closed : Bool
  dispatched : List Line

/-- The server, and the side of each connection. -/
structure Network where
  server : ExecHelper
  side : ConnId → Side

namespace Network

/-- The two ends of one connection. -/
def link (s : Network) (c : ConnId) : Net where
  server := s.server
  client := (s.side c).client
  toClient := (s.side c).toClient
  toServer := (s.side c).toServer
  serverVersion := (s.side c).serverVersion
  clientVersion := (s.side c).clientVersion
  accepted := (s.side c).accepted
  connected := (s.side c).connected
  closed := (s.side c).closed
  dispatched := (s.side c).dispatched

/-- The network where the two ends of one connection have become others. -/
def relink (s : Network) (c : ConnId) (t : Net) : Network where
  server := t.server
  side := Function.update s.side c
    { client := t.client
      toClient := t.toClient
      toServer := t.toServer
      serverVersion := t.serverVersion
      clientVersion := t.clientVersion
      accepted := t.accepted
      connected := t.connected
      closed := t.closed
      dispatched := t.dispatched }

/-- The network where the server has gone on by itself: what it has queued for a connection is dispatched to it. -/
def withServer (s : Network) (server : ExecHelper) : Network where
  server := server
  side := fun c =>
    { s.side c with
      dispatched := (s.side c).dispatched ++
        ((server.control.cap.queue c).drop (s.server.control.cap.queue c).length).flatMap Packet.jobs }

/-- What happens in the network. -/
inductive Action where
  /-- what the server does by itself -/
  | server (a : ExecHelper.Action)
  /-- what happens at the two ends of a connection and between them -/
  | link (c : ConnId) (a : Net.Action)

/-- One action, where the connections are those of the clients. -/
def step (overspillCap : Nat) (clients : Finset ConnId) (s : Network) : Action → Option Network
  | .server a => if a.about = none then (s.server.step a).map s.withServer else none
  | .link _ (.server _) => none
  | .link c a => if c ∈ clients then ((s.link c).step overspillCap c a).map (s.relink c) else none

/-- A server with `n` children, and clients with `m c` children each, before any connection is established. -/
def system (n : Nat) (m : ConnId → Nat) (overspillCap : Nat) (clients : Finset ConnId) : System Network Action where
  init :=
    { server := (ExecHelper.system n).init
      side := fun c =>
        { client := { cap := Capacity.init (m c), call := .idle }
          toClient := []
          toServer := []
          serverVersion := 0
          clientVersion := 0
          accepted := false
          connected := false
          closed := false
          dispatched := [] } }
  step := step overspillCap clients

/-- What each action needs and leads to. -/
inductive Steps (overspillCap : Nat) (clients : Finset ConnId) (s : Network) : Action → Network → Prop where
  | server {a : ExecHelper.Action} {server : ExecHelper} (about : a.about = none) (step : s.server.step a = some server) :
      Steps overspillCap clients s (.server a) (s.withServer server)
  | link {c : ConnId} {a : Net.Action} {t : Net} (own : ∀ b, a ≠ .server b) (client : c ∈ clients)
      (step : (s.link c).step overspillCap c a = some t) : Steps overspillCap clients s (.link c a) (s.relink c t)

/-- A step is one of the cases. -/
theorem steps_of_step {overspillCap : Nat} {clients : Finset ConnId} {s s' : Network} {a : Action}
    (h : s.step overspillCap clients a = some s') : s.Steps overspillCap clients a s' := by
  cases a with
  | server a =>
    obtain ⟨habout, h⟩ := Option.ite_none_right_eq_some.mp h
    obtain ⟨server, hs, rfl⟩ := Option.map_eq_some_iff.mp h
    exact .server habout hs
  | link c a =>
    have hown : ∀ b, a ≠ .server b := by
      rintro b rfl
      cases h
    have hlink : (if c ∈ clients then ((s.link c).step overspillCap c a).map (s.relink c) else none) = some s' := by
      cases a <;> first | exact h | exact absurd rfl (hown _)
    obtain ⟨hclient, h⟩ := Option.ite_none_right_eq_some.mp hlink
    obtain ⟨t, ht, rfl⟩ := Option.map_eq_some_iff.mp h
    exact .link hown hclient ht

/-- No line of stdin is empty. -/
def NonEmptyJobs (s : Network) : Action → Prop
  | .server a => s.server.NonEmptyJobs a
  | .link _ _ => True

instance (s : Network) : ∀ a, Decidable (s.NonEmptyJobs a)
  | .server a => inferInstanceAs (Decidable (s.server.NonEmptyJobs a))
  | .link _ _ => inferInstanceAs (Decidable True)

/-! ## Progress -/

/-- What takes the server or a client forward, or a packet between them. -/
def Productive (s : Network) : Action → Prop
  | .server a => s.server.Productive a
  | .link c a => (s.link c).Productive a

/-- How many connections the server has not done with. -/
def unended (clients : Finset ConnId) (s : Network) : Nat := (clients.filter (fun c => c ∉ s.server.ended)).card

/-- What is left to do. A job that is outstanding costs as much as it would cost to do it again without its connection. -/
def remaining (clients : Finset ConnId) (s : Network) : Nat :=
  s.server.remaining (12 * s.unended clients + 1) 8 + ∑ c ∈ clients, (s.link c).between c + s.unended clients

end Network

end FostWright
