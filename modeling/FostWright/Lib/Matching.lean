import Mathlib.Data.List.Sublists

/-!
# Greedy matching of a queue against a stream

A queue is served by a stream of items: an item equal to the front of the queue removes it, any other item is dropped.
`leftover q s` is what the stream `s` leaves of the queue `q`. The greedy rule loses nothing: the queue is emptied exactly when
it is a subsequence of the stream (`leftover_eq_nil_iff`).
-/

namespace Lib

variable {α : Type*} [DecidableEq α]

/-- What one item leaves of a queue. -/
def strike (q : List α) (x : α) : List α := if q.head? = some x then q.tail else q

/-- What a stream of items leaves of a queue. -/
def leftover (q s : List α) : List α := s.foldl strike q

@[simp] theorem leftover_nil (q : List α) : leftover q [] = q := rfl

@[simp] theorem leftover_cons (q : List α) (x : α) (s : List α) : leftover q (x :: s) = leftover (strike q x) s := rfl

/-- A stream in two parts serves the queue with one part after the other. -/
theorem leftover_append (q s t : List α) : leftover q (s ++ t) = leftover (leftover q s) t := List.foldl_append

/-- A queue is a subsequence of a stream when what the first item leaves of it is one of the rest. -/
theorem sublist_cons_iff_strike (q : List α) (x : α) (s : List α) :
    q.Sublist (x :: s) ↔ (strike q x).Sublist s := by
  unfold strike
  cases q with
  | nil => simp
  | cons y q =>
    simp only [List.head?_cons, Option.some.injEq, List.tail_cons]
    by_cases hxy : y = x
    · rw [if_pos hxy, hxy, List.cons_sublist_cons]
    · rw [if_neg hxy]
      constructor
      · intro h
        cases h with
        | cons _ h => exact h
        | cons_cons _ h => exact absurd rfl hxy
      · intro h
        exact h.cons x

/-- A stream empties exactly the queues that are subsequences of it. -/
theorem leftover_eq_nil_iff (q s : List α) : leftover q s = [] ↔ q.Sublist s := by
  induction s generalizing q with
  | nil => simp
  | cons x s ih => rw [leftover_cons, ih, sublist_cons_iff_strike]

/-- A stream without the front of the queue leaves the queue as it is. -/
theorem leftover_of_head_not_mem {q s : List α} (h : ∀ x ∈ s, q.head? ≠ some x) : leftover q s = q := by
  induction s with
  | nil => rfl
  | cons x s ih =>
    have hx : strike q x = q := if_neg (h x List.mem_cons_self)
    rw [leftover_cons, hx]
    exact ih (fun y hy => h y (List.mem_cons_of_mem _ hy))

end Lib
