import Mathlib.Order.Basic
import Mathlib.Tactic.SplitIfs

/-!
# Timers

A timer has at most one wait, which a new wait cancels. When a wait has expired its handler is queued; a handler that is queued is not
called off any more and runs some time later. `ready` counts the steps that the handlers of a timer are away at a given time, so that it is a
measure of what there is to do before the time goes on.
-/

namespace Lib

/-- When the wait of a timer expires, if there is one, and how many handlers of waits that have expired are queued. -/
structure Timer where
  pending : Option Nat
  queued : Nat

namespace Timer

/-- A timer without a wait. -/
def idle : Timer := { pending := none, queued := 0 }

/-- A new wait, which cancels the one that there is. -/
def wait (t : Timer) (expiry : Nat) : Timer := { t with pending := some expiry }

/-- The wait has expired: its handler is queued. -/
def expire (t : Timer) (now : Nat) : Option Timer :=
  match t.pending with
  | some expiry => if expiry ≤ now then some { pending := none, queued := t.queued + 1 } else none
  | none => none

/-- A handler runs. -/
def run (t : Timer) : Option Timer :=
  match t.queued with
  | queued + 1 => some { t with queued := queued }
  | 0 => none

/-- How many steps the handlers are away. -/
def ready (t : Timer) (now : Nat) : Nat := (t.pending.elim 0 (fun expiry => if expiry ≤ now then 2 else 0)) + t.queued

theorem expire_eq_some {t t' : Timer} {now : Nat} (h : t.expire now = some t') :
    ∃ expiry ≤ now, t.pending = some expiry ∧ t' = { pending := none, queued := t.queued + 1 } := by
  unfold expire at h
  split at h
  · rename_i expiry hpending
    obtain ⟨hle, rfl⟩ := (Option.ite_none_right_eq_some.mp h).imp_right Option.some.inj
    exact ⟨expiry, hle, hpending, rfl⟩
  · cases h

theorem run_eq_some {t t' : Timer} (h : t.run = some t') : t.queued = t'.queued + 1 ∧ t'.pending = t.pending := by
  unfold run at h
  split at h
  · rename_i queued hqueued
    obtain rfl := Option.some.inj h
    exact ⟨hqueued, rfl⟩
  · cases h

theorem expire_isSome {t : Timer} {now expiry : Nat} (hpending : t.pending = some expiry) (hle : expiry ≤ now) :
    ∃ t', t.expire now = some t' := by
  refine ⟨{ pending := none, queued := t.queued + 1 }, ?_⟩
  unfold expire
  rw [hpending]
  exact if_pos hle

theorem run_isSome {t : Timer} (h : 0 < t.queued) : ∃ t', t.run = some t' := by
  obtain ⟨queued, hqueued⟩ := Nat.exists_eq_succ_of_ne_zero (Nat.ne_of_gt h)
  refine ⟨{ t with queued := queued }, ?_⟩
  unfold run
  rw [hqueued]

/-- A wait that expires is a step. -/
theorem ready_expire {t t' : Timer} {now : Nat} (h : t.expire now = some t') : t'.ready now < t.ready now := by
  obtain ⟨expiry, hle, hpending, rfl⟩ := expire_eq_some h
  simp only [ready, hpending, Option.elim_none, Option.elim_some, if_pos hle]
  omega

/-- A handler that runs is a step. -/
theorem ready_run {t t' : Timer} (now : Nat) (h : t.run = some t') : t'.ready now < t.ready now := by
  obtain ⟨hqueued, hpending⟩ := run_eq_some h
  simp only [ready, hpending, hqueued]
  omega

/-- A wait that has not expired is nothing to do. -/
theorem ready_wait (t : Timer) {now expiry : Nat} (h : now < expiry) : (t.wait expiry).ready now ≤ t.ready now := by
  simp only [ready, wait, Option.elim_some, if_neg (Nat.not_le.mpr h)]
  omega

/-- The time may make a wait expire, which is two steps. -/
theorem ready_le (t : Timer) (now later : Nat) : t.ready later ≤ t.ready now + 2 := by
  unfold ready
  cases t.pending with
  | none =>
    simp only [Option.elim_none]
    omega
  | some expiry =>
    simp only [Option.elim_some]
    split_ifs <;> omega

end Timer

end Lib
