import Mathlib.Data.List.Nodup
import Mathlib.Data.List.Perm.Subperm
import Mathlib.Data.Nat.ModEq

/-!
# Round robin

A cursor goes round `n` places. Each full turn comes to each place once, so in any stretch of its way it comes to two places equally often,
up to one time.
-/

namespace Lib

/-- The places that a cursor at `start` comes to in `len` steps. -/
def turns (n start len : Nat) : List Nat := (List.range len).map (fun t => (start + 1 + t) % n)

@[simp]
theorem turns_zero (n start : Nat) : turns n start 0 = [] := rfl

@[simp]
theorem length_turns (n start len : Nat) : (turns n start len).length = len := by
  rw [turns, List.length_map, List.length_range]

/-- The way goes on from where it has come to. -/
theorem turns_add (n start a b : Nat) : turns n start (a + b) = turns n start a ++ turns n (start + a) b := by
  unfold turns
  rw [List.range_add, List.map_append, List.map_map]
  congr 1
  refine List.map_congr_left (fun t _ => ?_)
  rw [Function.comp_apply]
  congr 1
  omega

/-- Only the place of the cursor counts. -/
theorem turns_mod (n start len : Nat) : turns n (start % n) len = turns n start len := by
  refine List.map_congr_left (fun t _ => ?_)
  rw [Nat.add_assoc, Nat.add_assoc, Nat.mod_add_mod]

theorem turns_succ (n start len : Nat) : turns n start (len + 1) = (start + 1) % n :: turns n (start + 1) len := by
  rw [Nat.add_comm len 1, turns_add]
  rfl

/-- A full turn comes to each place once. -/
theorem perm_turns (n start : Nat) : (turns n start n).Perm (List.range n) := by
  have hnodup : (turns n start n).Nodup := by
    refine List.Nodup.map_on ?_ List.nodup_range
    intro t ht u hu heq
    have hsame : t % n = u % n := Nat.ModEq.add_left_cancel' (start + 1) heq
    rwa [Nat.mod_eq_of_lt (List.mem_range.mp ht), Nat.mod_eq_of_lt (List.mem_range.mp hu)] at hsame
  have hsubset : turns n start n ⊆ List.range n := by
    intro k hk
    obtain ⟨t, ht, rfl⟩ := List.mem_map.mp hk
    exact List.mem_range.mpr (Nat.mod_lt _ (Nat.zero_lt_of_lt (List.mem_range.mp ht)))
  refine (List.subperm_of_subset hnodup hsubset).perm_of_length_le ?_
  rw [length_turns, List.length_range]

theorem count_turn {n k : Nat} (hk : k < n) (start : Nat) : (turns n start n).count k = 1 := by
  rw [(perm_turns n start).count_eq]
  exact List.count_eq_one_of_mem List.nodup_range (List.mem_range.mpr hk)

/-- In any stretch two places come up equally often, up to one time. -/
theorem count_turns_le {n k m : Nat} (hk : k < n) (hm : m < n) (start len : Nat) :
    (turns n start len).count k ≤ (turns n start len).count m + 1 := by
  induction len using Nat.strong_induction_on generalizing start with
  | _ len ih =>
    by_cases hle : n ≤ len
    · obtain ⟨rest, rfl⟩ := Nat.exists_eq_add_of_le hle
      have hrest := ih rest (by omega) (start + n)
      rw [turns_add, List.count_append, List.count_append, count_turn hk, count_turn hm]
      omega
    · have hshort : (turns n start len).count k ≤ (turns n start n).count k := by
        rw [← Nat.add_sub_cancel' (Nat.le_of_not_le hle), turns_add, List.count_append]
        exact Nat.le_add_right _ _
      rw [count_turn hk] at hshort
      exact hshort.trans (Nat.le_add_left _ _)

end Lib
