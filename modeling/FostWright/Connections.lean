import FostWright.Lib.Slots
import FostWright.Net
import Mathlib.Data.Finset.Card

/-!
# The registry of connections

`g_connections` has a slot with a `weak_ptr` for each connection that was established; `established`, `broadcast` and `close_all` go over
the slots. A connection is gone with its last `shared_ptr`, of which the registry is not told. Each of the three holds `g_mutex` for its
loop and is one step here: a connection that goes meanwhile goes before it or after it. The rest of the process goes on in between.
-/

namespace FostWright

open Lib

/-- The books of a process, `g_connections` slot by slot, the connections whose `established` was called, and those whose socket
`close_all` has closed. -/
structure Connections where
  control : Control
  slots : List ConnId
  established : Finset ConnId
  closed : Finset ConnId

/-- What `broadcast` leaves: the books, how often it has called `gen`, and what it returns. -/
structure Broadcast where
  cap : Capacity
  calls : Nat
  queued : Nat

namespace Connections

/-- `lock` returns nothing. -/
def Gone (s : Connections) (c : ConnId) : Prop := c ∈ s.control.cap.expired

instance (s : Connections) : DecidablePred s.Gone := fun c => inferInstanceAs (Decidable (c ∈ s.control.cap.expired))

/-- The connections that were established and are not gone. -/
def alive (s : Connections) : Finset ConnId := s.established.filter (fun c => ¬s.Gone c)

/-- The same connections with other books. -/
def withCap (s : Connections) (cap : Capacity) : Connections := { s with control := { s.control with cap := cap } }

/-- `live`: a spare slot for the connection, or one at the end. -/
def live (s : Connections) (ptr : ConnId) : Connections := { s with slots := occupy s.Gone ptr s.slots }

/-- `connection::established`: the connection gets its slot, and its version packet is queued. -/
def establish (overspillCap : Nat) (s : Connections) (c : ConnId) : Connections :=
  { (s.live c).withCap (s.control.cap.established overspillCap c) with established := insert c s.established }

/-- `cnx->queue.produce(gen())` on the books and the number of calls so far; `gen i` is what the call `i` of `gen` returns. -/
def produceNext (gen : Nat → Packet) (state : Capacity × Nat) (cnx : ConnId) : Capacity × Nat :=
  (state.1.produce cnx (gen state.2), state.2 + 1)

/-- `connection::broadcast`. -/
def broadcast (s : Connections) (gen : Nat → Packet) : Broadcast :=
  let ((cap, calls), queued) := visit s.Gone (produceNext gen) s.slots (s.control.cap, 0) 0
  { cap := cap, calls := calls, queued := queued }

/-- `connection::close_all`: the sockets closed so far, and what it returns. -/
def closeAll (s : Connections) : Finset ConnId × Nat := visit s.Gone (fun closed cnx => insert cnx closed) s.slots s.closed 0

/-- What happens to the connections. -/
inductive Action where
  /-- `established` is called for a new connection -/
  | established (c : ConnId)
  | broadcast (gen : Nat → Packet)
  | closeAll
  /-- the rest of the process goes on, or a connection is destroyed (`expire`) -/
  | books (e : Event)

/-- One action. -/
def step (peer : Peering) (overspillCap : Nat) (s : Connections) : Action → Option Connections
  | .established c => if c ∉ s.established ∧ ¬s.Gone c then some (s.establish overspillCap c) else none
  | .broadcast gen => some (s.withCap (s.broadcast gen).cap)
  | .closeAll => some { s with closed := s.closeAll.1 }
  | .books e => (s.control.step peer e).map (fun control => { s with control := control })

/-- A process with `n` children, before it has a connection. -/
def system (peer : Peering) (n overspillCap : Nat) : System Connections Action where
  init := { control := { cap := Capacity.init n, call := .idle }, slots := [], established := ∅, closed := ∅ }
  step := step peer overspillCap

end Connections

end FostWright
