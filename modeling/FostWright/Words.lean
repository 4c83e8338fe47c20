import FostWright.Capacity
import FostWright.Lib.System

/-!
# Capacities in 64-bit words

The limit of the limiter and the capacities are `uint64_t`s. A sum or a difference is the true one modulo `2 ^ 64`: the operations
are those of the unbounded books, with the limit cut down to a word after each of them. The capacity in a `version` packet is a word
that is taken as it comes.
-/

namespace FostWright

open Lib

/-- The number of values of a `uint64_t`. -/
def wordSize : Nat := 18446744073709551616

/-- The limit cut down to a word. -/
def Limiter.wrap (l : Limiter) : Limiter := { l with limit := l.limit % (wordSize : Int) }

/-- The books with the limit cut down to a word. -/
def Control.wrap (s : Control) : Control := { s with cap := { s.cap with limiter := s.cap.limiter.wrap } }

/-- The capacity that the event carries, if it carries one, is a word. -/
def Event.fits : Event → Bool
  | .packet _ (.version _ (some cap)) => decide (cap < wordSize)
  | _ => true

/-- One event on books with a limit in a word. Every event adds to the limit, or subtracts from it, at most once. -/
def Control.stepWord (peer : Peering) (s : Control) (e : Event) : Option Control :=
  if e.fits then (s.step peer e).map Control.wrap else none

/-- The books of a process with `n` children and a limit in a word, from its start, under any sequence of events. -/
def Control.systemWord (peer : Peering) (n : Nat) : System Control Event where
  init := Control.wrap { cap := Capacity.init n, call := .idle }
  step := Control.stepWord peer

/-- `total_capacity` in `out::version`: the limit and the overspill allowance of the workers. -/
def Capacity.totalCapacityWord (overspillCap : Nat) (s : Capacity) : Nat :=
  (s.limiter.limit.toNat + overspillCap * s.pool.children.length % wordSize) % wordSize

end FostWright
