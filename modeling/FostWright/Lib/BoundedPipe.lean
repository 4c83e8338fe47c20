import Mathlib.Data.List.Basic

/-!
# Pipes that can be full

A pipe holds what has been written and not read, up to its capacity. A write puts a first part of what is to be written, as far as there is
room, and a read takes a first part of what is there; neither can do nothing.
-/

namespace Lib

/-- What is in the pipe. -/
structure BoundedPipe (α : Type*) (cap : Nat) where
  elems : List α
  bounded : elems.length ≤ cap

namespace BoundedPipe

variable {α : Type*} {cap : Nat}

def empty : BoundedPipe α cap := ⟨[], Nat.zero_le _⟩

/-- The first `k` of `xs` are written: the pipe, and what is still to be written. -/
def write (p : BoundedPipe α cap) (xs : List α) (k : Nat) : Option (BoundedPipe α cap × List α) :=
  if h : 0 < k ∧ k ≤ xs.length ∧ p.elems.length + k ≤ cap then
    some (⟨p.elems ++ xs.take k, by rw [List.length_append, List.length_take, Nat.min_eq_left h.2.1]; exact h.2.2⟩, xs.drop k)
  else none

/-- The first `k` are read: they, and the pipe. -/
def read (p : BoundedPipe α cap) (k : Nat) : Option (List α × BoundedPipe α cap) :=
  if 0 < k ∧ k ≤ p.elems.length then
    some (p.elems.take k, ⟨p.elems.drop k, by rw [List.length_drop]; exact Nat.le_trans (Nat.sub_le _ _) p.bounded⟩)
  else none

/-- A write moves what it writes from the one list to the end of the other. -/
theorem write_eq_some {p q : BoundedPipe α cap} {xs rest : List α} {k : Nat} (h : p.write xs k = some (q, rest)) :
    ∃ piece, piece ≠ [] ∧ xs = piece ++ rest ∧ q.elems = p.elems ++ piece := by
  obtain ⟨⟨hpos, hle, hroom⟩, heq⟩ := Option.dite_none_right_eq_some.mp h
  obtain ⟨rfl, rfl⟩ := Prod.mk.inj (Option.some.inj heq)
  refine ⟨xs.take k, ?_, (List.take_append_drop k xs).symm, rfl⟩
  intro hnil
  have hlength := congrArg List.length hnil
  rw [List.length_take, Nat.min_eq_left hle] at hlength
  exact Nat.ne_of_gt hpos hlength

/-- A read takes what it reads off the front. -/
theorem read_eq_some {p q : BoundedPipe α cap} {piece : List α} {k : Nat} (h : p.read k = some (piece, q)) :
    piece ≠ [] ∧ p.elems = piece ++ q.elems := by
  obtain ⟨⟨hpos, hle⟩, heq⟩ := Option.ite_none_right_eq_some.mp h
  obtain ⟨rfl, rfl⟩ := Prod.mk.inj (Option.some.inj heq)
  refine ⟨?_, (List.take_append_drop k p.elems).symm⟩
  intro hnil
  have hlength := congrArg List.length hnil
  rw [List.length_take, Nat.min_eq_left hle] at hlength
  exact Nat.ne_of_gt hpos hlength

/-- A write can be done when there is something to write and the pipe is not full. -/
theorem write_isSome {p : BoundedPipe α cap} {xs : List α} (hxs : xs ≠ []) (hroom : p.elems.length < cap) :
    ∃ q rest, p.write xs 1 = some (q, rest) :=
  ⟨_, _, dif_pos ⟨Nat.one_pos, List.length_pos_of_ne_nil hxs, hroom⟩⟩

/-- A read can be done when the pipe is not empty. -/
theorem read_isSome {p : BoundedPipe α cap} (h : p.elems ≠ []) : ∃ piece q, p.read 1 = some (piece, q) :=
  ⟨_, _, if_pos ⟨Nat.one_pos, List.length_pos_of_ne_nil h⟩⟩

end BoundedPipe

end Lib
