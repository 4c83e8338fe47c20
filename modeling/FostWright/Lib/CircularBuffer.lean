import Mathlib.Algebra.BigOperators.Group.List.Basic

/-!
# Bounded queues that overwrite

A circular buffer of fixed capacity, seen as the list of its elements from front to back. The bound is a field. `pushBack` on
a full buffer overwrites the oldest element, as the container does; `overwritten` names what such a push destroys, so that a
client that must account for every element can.
-/

namespace Lib

/-- At most `cap` elements, front first. -/
structure CircularBuffer (α : Type*) (cap : Nat) where
  elems : List α
  bounded : elems.length ≤ cap

namespace CircularBuffer

variable {α : Type*} {cap : Nat}

/-- The buffer with no element. -/
def empty : CircularBuffer α cap := ⟨[], Nat.zero_le _⟩

def size (b : CircularBuffer α cap) : Nat := b.elems.length

/-- The buffer has no room left. -/
def full (b : CircularBuffer α cap) : Bool := decide (cap ≤ b.elems.length)

/-- The oldest element. -/
def front? (b : CircularBuffer α cap) : Option α := b.elems.head?

/-- Put an element at the back; a full buffer keeps its newest `cap` elements. -/
def pushBack (b : CircularBuffer α cap) (x : α) : CircularBuffer α cap :=
  ⟨(b.elems ++ [x]).drop (b.elems.length + 1 - cap), by
    rw [List.length_drop, List.length_append, List.length_singleton]
    omega⟩

/-- What `pushBack` destroys. -/
def overwritten (b : CircularBuffer α cap) (x : α) : List α := (b.elems ++ [x]).take (b.elems.length + 1 - cap)

/-- Remove the oldest element. -/
def popFront (b : CircularBuffer α cap) : CircularBuffer α cap :=
  ⟨b.elems.tail, by
    have := b.bounded
    rw [List.length_tail]
    omega⟩

/-- Change the oldest element in place. -/
def modifyFront (b : CircularBuffer α cap) (f : α → α) : CircularBuffer α cap :=
  ⟨b.elems.modifyHead f, by simpa using b.bounded⟩

@[simp] theorem elems_empty : (empty : CircularBuffer α cap).elems = [] := rfl

/-- A buffer is not full when it holds fewer elements than it has room for. -/
theorem full_eq_false_iff (b : CircularBuffer α cap) : b.full = false ↔ b.elems.length < cap := by
  simp [full]

/-- A push on a buffer with room appends. -/
theorem elems_pushBack_of_not_full {b : CircularBuffer α cap} (h : b.full = false) (x : α) :
    (b.pushBack x).elems = b.elems ++ [x] := by
  have hlt := (full_eq_false_iff b).mp h
  have h0 : b.elems.length + 1 - cap = 0 := by omega
  simp only [pushBack, h0, List.drop_zero]

/-- A push on a buffer with room destroys nothing. -/
theorem overwritten_of_not_full {b : CircularBuffer α cap} (h : b.full = false) (x : α) : b.overwritten x = [] := by
  have hlt := (full_eq_false_iff b).mp h
  have h0 : b.elems.length + 1 - cap = 0 := by omega
  simp only [overwritten, h0, List.take_zero]

/-- What a push destroys and what it leaves are together what was there and the new element. -/
theorem overwritten_append_pushBack (b : CircularBuffer α cap) (x : α) :
    b.overwritten x ++ (b.pushBack x).elems = b.elems ++ [x] :=
  List.take_append_drop _ _

/-- The same for any weight summed over the elements. -/
theorem sum_pushBack {M : Type*} [AddCommMonoid M] (b : CircularBuffer α cap) (x : α) (f : α → M) :
    ((b.overwritten x).map f).sum + ((b.pushBack x).elems.map f).sum = (b.elems.map f).sum + f x := by
  rw [← List.sum_append, ← List.map_append, overwritten_append_pushBack, List.map_append, List.sum_append]
  simp

end CircularBuffer

end Lib
