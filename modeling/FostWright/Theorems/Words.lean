import FostWright.Words
import FostWright.Lemmas.Registry

/-!
# When the arithmetic of the capacities wraps

The limit in its word is always the true number of slots modulo `2 ^ 64` (`Congruent`). So it is the true number, and what
`out::version` announces is the true sum, exactly while the true sum fits a word. Nothing in the code keeps a peer from announcing
a capacity with which it does not.
-/

namespace FostWright

open Lib

namespace Control

/-- The limit is the number of slots modulo `2 ^ 64`, for the `n` children and the capacities of the connections. -/
structure Congruent (n : Nat) (s : Control) : Prop where
  limit : s.cap.limiter.limit = ((bufferSize * n + s.cap.totalCap : Nat) : Int) % (wordSize : Int)
  children : s.cap.pool.children.length = n

theorem congruent_init (peer : Peering) (n : Nat) : (systemWord peer n).init.Congruent n := by
  refine ⟨?_, List.length_replicate⟩
  have hinit := (Capacity.accounted_init n).limit
  exact congrArg (· % (wordSize : Int)) hinit

/-- One event keeps the congruence: it changes the limit by as much as the sum of the capacities. -/
theorem Congruent.step {peer : Peering} {n : Nat} {s s' : Control} {e : Event} (h : s.Congruent n)
    (hs : s.stepWord peer e = some s') : s'.Congruent n := by
  obtain ⟨-, hs⟩ := Option.ite_none_right_eq_some.mp hs
  obtain ⟨t, hstep, rfl⟩ := Option.map_eq_some_iff.mp hs
  refine ⟨?_, (count_step hstep).trans h.children⟩
  have hsurplus := surplus_step hstep
  have hlimit := h.limit
  simp only [Capacity.surplus] at hsurplus
  change t.cap.limiter.limit % (wordSize : Int) = ((bufferSize * n + t.cap.totalCap : Nat) : Int) % (wordSize : Int)
  simp only [wordSize] at hlimit ⊢
  omega

theorem congruent_of_reachable {peer : Peering} {n : Nat} {s : Control} (h : (systemWord peer n).Reachable s) : s.Congruent n :=
  h.invariant (congruent_init peer n) (fun _ _ _ hc _ hs => hc.step hs)

/-- In every state of the books with words, whatever capacities the peers announce: the limit is the true number of slots, it is at
least that of the children, and the total that is announced is the true sum with the overspill allowance, exactly while that sum
fits a word. -/
theorem no_wrap_iff (peer : Peering) (n overspillCap : Nat) (s : Control) (h : (systemWord peer n).Reachable s) :
    (s.cap.limiter.limit = (bufferSize * n + s.cap.totalCap : Nat) ∧
      ((bufferSize * n : Nat) : Int) ≤ s.cap.limiter.limit ∧
      s.cap.totalCapacityWord overspillCap = bufferSize * n + s.cap.totalCap + overspillCap * n) ↔
        bufferSize * n + s.cap.totalCap + overspillCap * n < wordSize := by
  obtain ⟨hlimit, hchildren⟩ := congruent_of_reachable h
  unfold Capacity.totalCapacityWord
  rw [hchildren]
  generalize overspillCap * n = allowance
  simp only [wordSize] at hlimit ⊢
  constructor
  · rintro ⟨-, -, htotal⟩
    omega
  · intro hfits
    refine ⟨?_, ?_, ?_⟩ <;> omega

/-- Two connections with a capacity of five and one of them closed again. -/
theorem no_wrap_run :
    ∃ s : Control, s.cap.totalCap = 5 ∧ s.cap.limiter.limit = 8 ∧ s.cap.totalCapacityWord 1 = 9 := by
  obtain ⟨s, hs, hp⟩ := System.reachable_of_run (S := systemWord .serverSide 1)
    [.packet 7 (.version 1 (some 5)), .packet 8 (.version 1 (some 5)), .overspillWork 7]
    (fun s => s.cap.totalCap == 5) (by decide)
  rw [beq_iff_eq] at hp
  obtain ⟨hlimit, -, htotal⟩ := (no_wrap_iff .serverSide 1 1 s hs).mpr (by rw [hp]; decide)
  rw [hp] at hlimit htotal
  exact ⟨s, hp, hlimit, htotal⟩

/-- A capacity of `2 ^ 64 - 1` takes the limit below the slots of the only child. -/
theorem limit_wraps :
    ¬ ∀ (peer : Peering) (n : Nat) (s : Control), (systemWord peer n).Reachable s →
      ((bufferSize * n : Nat) : Int) ≤ s.cap.limiter.limit := by
  intro h
  obtain ⟨s, hs, hp⟩ := System.reachable_of_run (S := systemWord .serverSide 1)
    [.packet 7 (.version 1 (some 18446744073709551615))] (fun s => s.cap.limiter.limit == 2) (by decide)
  rw [beq_iff_eq] at hp
  have hle := h .serverSide 1 s hs
  rw [hp] at hle
  exact absurd hle (by decide)

end Control

end FostWright
