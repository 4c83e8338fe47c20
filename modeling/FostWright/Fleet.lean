import FostWright.Theorems.Filter
import FostWright.Workers
import Mathlib.Data.Fintype.Option
import Mathlib.Data.Fintype.Sets
import Mathlib.Data.Fintype.Sigma

/-!
# The processes and their workers

The manager and its clients with the standard input of the manager, where the children of every process are workers that crash, as those of
`Resending` do. The books of all the processes are those of one owner.
-/

namespace FostWright

open Lib

namespace Filter

/-- The processes: the manager, and a client at each connection. -/
abbrev Process (clients : Finset ConnId) : Type := Option clients

variable {clients : Finset ConnId}

/-- How many children a process has. -/
def childrenOf (n : Nat) (m : ConnId → Nat) : Process clients → Nat
  | none => n
  | some c => m c

/-- The children of all processes. -/
abbrev Child (n : Nat) (m : ConnId → Nat) (clients : Finset ConnId) : Type := Σ p : Process clients, Fin (childrenOf n m p)

/-- How a process is connected. -/
def peering : Process clients → Peering
  | none => .serverSide
  | some c => .clientSide c

/-- The books of a process. -/
def books (s : Filter) : Process clients → Control
  | none => s.network.server.control
  | some c => (s.network.side c).client

/-- The children in the books. -/
def slots (n : Nat) (m : ConnId → Nat) (s : Filter) : Child n m clients → Slot :=
  Slot.all (fun p => (s.books p).slots (childrenOf n m p))

/-- What is internal to a process. -/
def internal : Process clients → Event → Action
  | none, e => .network (.server (.internal e))
  | some c, e => .network (.link c (.client e))

/-- A process with other books. -/
def withBooks (s : Filter) : Process clients → Control → Filter
  | none, control => { s with network := s.network.withServer { s.network.server with control := control } }
  | some c, control => { s with network := s.network.relink c { s.network.link c with client := control } }

/-- The actions that belong to the children. -/
def Action.ofChildren : Action → Bool
  | .network (.server a) => a.ofChildren
  | .network (.link _ (.client e)) => e.ofChildren
  | _ => false

instance (stream : List Byte) : Decidable (Distinct stream) :=
  inferInstanceAs (Decidable ((readLines stream).Nodup ∧ [] ∉ readLines stream))

/-- The lines of stdin are not empty and pairwise different. -/
def DistinctLines (s : Filter) : Action → Prop
  | .feed (.arrive piece) => Distinct (s.reader.arrived ++ piece)
  | _ => True

instance (s : Filter) : ∀ a, Decidable (s.DistinctLines a)
  | .feed (.arrive piece) => inferInstanceAs (Decidable (Distinct (s.reader.arrived ++ piece)))
  | .feed .finish | .feed (.readSome _) | .readSome _ | .line | .inputError | .network _ => inferInstanceAs (Decidable True)

end Filter

end FostWright
