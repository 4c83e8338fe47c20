import FostWright.Supervisor
import Mathlib.Data.List.TakeWhile

/-!
# When a supervisor restarts its worker

The code looks at `WEXITSTATUS` alone. It is the exit code when the worker exited, and 0 when it died by a signal: to the supervisor a
worker that was killed is a worker that is done. Each turn of the loop is three effects, and a trace is taken apart turn by turn.
-/

namespace FostWright

namespace Termination

/-- The exit code of a worker that exited. -/
theorem wexitstatus_exited (code : Fin 256) : wexitstatus (exited code).status = code := by
  simp only [wexitstatus, status, Nat.shiftRight_and_distrib, Nat.shiftLeft_shiftRight]
  change code.val &&& (2 ^ 8 - 1) = code.val
  rw [Nat.and_two_pow_sub_one_eq_mod, Nat.mod_eq_of_lt code.isLt]

/-- A signal leaves the bits of the exit code zero. -/
theorem wexitstatus_signaled (signal : Fin 126) (core : Bool) : wexitstatus (signaled signal core).status = 0 := by
  have hlt : (signaled signal core).status < 2 ^ 8 := by
    have hsignal := signal.isLt
    refine Nat.or_lt_two_pow (by omega) ?_
    cases core <;> decide
  simp only [wexitstatus, Nat.shiftRight_and_distrib]
  rw [Nat.shiftRight_eq_div_pow (signaled signal core).status, Nat.div_eq_of_lt hlt, Nat.zero_and]

/-- What the supervisor takes for done: a worker that is done, and one that was killed. -/
theorem wexitstatus_eq_zero_iff (t : Termination) : wexitstatus t.status = 0 ↔ t.Done ∨ t.Killed := by
  cases t with
  | exited code =>
    rw [wexitstatus_exited]
    simp only [Done, Killed, or_false]
  | signaled signal core =>
    simp [wexitstatus_signaled, Done, Killed]

end Termination

/-! ## One turn of the loop -/

/-- A turn after which the supervisor returns. -/
theorem forkWorker_returns {t : Termination} (ht : wexitstatus t.status = 0) (ts : List Termination) :
    forkWorker ((t :: ts).map Attempt.started) = [.forked, .waited t, .returned] := by
  simp [forkWorker, Attempt.started, ht]

/-- A turn after which the supervisor goes on. -/
theorem forkWorker_resends {t : Termination} (ht : wexitstatus t.status ≠ 0) (ts : List Termination) :
    forkWorker ((t :: ts).map Attempt.started) =
      .forked :: .waited t :: .wrote resendByte :: forkWorker (ts.map Attempt.started) := by
  simp [forkWorker, Attempt.started, ht]

/-- Where an effect stands in a trace that begins with a turn of the loop. -/
theorem turn_eq_append {a b c x : Effect} {trace pre post : List Effect} (h : a :: b :: c :: trace = pre ++ x :: post) :
    (pre = [] ∧ x = a ∧ post = b :: c :: trace) ∨ (pre = [a] ∧ x = b ∧ post = c :: trace) ∨
      (pre = [a, b] ∧ x = c ∧ post = trace) ∨ ∃ rest, pre = a :: b :: c :: rest ∧ trace = rest ++ x :: post := by
  rcases pre with _ | ⟨_, _ | ⟨_, _ | ⟨_, rest⟩⟩⟩ <;> simp at h
  · obtain ⟨rfl, rfl⟩ := h
    exact Or.inl ⟨rfl, rfl, rfl⟩
  · obtain ⟨rfl, rfl, rfl⟩ := h
    exact Or.inr (Or.inl ⟨rfl, rfl, rfl⟩)
  · obtain ⟨rfl, rfl, rfl, rfl⟩ := h
    exact Or.inr (Or.inr (Or.inl ⟨rfl, rfl, rfl⟩))
  · obtain ⟨rfl, rfl, rfl, rfl⟩ := h
    exact Or.inr (Or.inr (Or.inr ⟨rest, rfl, rfl⟩))

/-- Where an effect stands in the last turn of the loop. -/
theorem last_turn_eq_append {a b c x : Effect} {pre post : List Effect} (h : [a, b, c] = pre ++ x :: post) :
    (pre = [] ∧ x = a) ∨ (pre = [a] ∧ x = b) ∨ (pre = [a, b] ∧ x = c) := by
  obtain ⟨hpre, hx, -⟩ | ⟨hpre, hx, -⟩ | ⟨hpre, hx, -⟩ | ⟨rest, -, hnil⟩ := turn_eq_append h
  · exact Or.inl ⟨hpre, hx⟩
  · exact Or.inr (Or.inl ⟨hpre, hx⟩)
  · exact Or.inr (Or.inr ⟨hpre, hx⟩)
  · simp at hnil

theorem restarts_nil : Restarts [] [] := by
  refine ⟨rfl, ?_, ?_, ?_, ?_, ?_⟩ <;> intro pre post <;> simp

/-- A supervisor may return after a worker that is done. -/
theorem restarts_done {t : Termination} (ht : t.Done) (ts : List Termination) : Restarts (t :: ts) [.forked, .waited t, .returned] := by
  refine ⟨?_, ?_, ?_, ?_, ?_, ?_⟩
  · rw [untilDone, if_pos ht]
    rfl
  · intro pre post u h
    obtain ⟨-, heq⟩ | ⟨rfl, -⟩ | ⟨-, heq⟩ := last_turn_eq_append h
    · cases heq
    · exact ⟨[], rfl⟩
    · cases heq
  · intro pre post h
    obtain ⟨-, heq⟩ | ⟨-, heq⟩ | ⟨rfl, -⟩ := last_turn_eq_append h
    · cases heq
    · cases heq
    · exact ⟨t, [.forked], ht, rfl⟩
  · intro pre post u h hu
    obtain ⟨-, heq⟩ | ⟨-, heq⟩ | ⟨-, heq⟩ := last_turn_eq_append h
    · cases heq
    · cases heq
      exact absurd ht hu
    · cases heq
  · intro pre post h
    obtain ⟨-, heq⟩ | ⟨-, heq⟩ | ⟨-, heq⟩ := last_turn_eq_append h <;> cases heq
  · intro pre post h
    obtain ⟨rfl, -⟩ | ⟨-, heq⟩ | ⟨-, heq⟩ := last_turn_eq_append h
    · exact Or.inl rfl
    · cases heq
    · cases heq

/-- A supervisor may go on after any other worker, once it has written its `r`. -/
theorem Restarts.crashed {t : Termination} {ts : List Termination} {trace : List Effect} (ht : ¬ t.Done) (h : Restarts ts trace) :
    Restarts (t :: ts) (.forked :: .waited t :: .wrote resendByte :: trace) := by
  refine ⟨?_, ?_, ?_, ?_, ?_, ?_⟩
  · rw [untilDone, if_neg ht, ← h.attends]
    rfl
  · intro pre post u hsplit
    obtain ⟨-, heq, -⟩ | ⟨rfl, -, -⟩ | ⟨-, heq, -⟩ | ⟨rest, rfl, heq⟩ := turn_eq_append hsplit
    · cases heq
    · exact ⟨[], rfl⟩
    · cases heq
    · obtain ⟨pre', rfl⟩ := h.starts heq
      exact ⟨.forked :: .waited t :: .wrote resendByte :: pre', rfl⟩
  · intro pre post hsplit
    obtain ⟨-, heq, -⟩ | ⟨-, heq, -⟩ | ⟨-, heq, -⟩ | ⟨rest, rfl, heq⟩ := turn_eq_append hsplit
    · cases heq
    · cases heq
    · cases heq
    · obtain ⟨u, pre', hu, rfl⟩ := h.returns heq
      exact ⟨u, .forked :: .waited t :: .wrote resendByte :: pre', hu, rfl⟩
  · intro pre post u hsplit hu
    obtain ⟨-, heq, -⟩ | ⟨-, -, rfl⟩ | ⟨-, heq, -⟩ | ⟨rest, -, heq⟩ := turn_eq_append hsplit
    · cases heq
    · exact ⟨trace, rfl⟩
    · cases heq
    · exact h.resends heq hu
  · intro pre post hsplit
    obtain ⟨-, heq, -⟩ | ⟨-, heq, -⟩ | ⟨rfl, -, -⟩ | ⟨rest, rfl, heq⟩ := turn_eq_append hsplit
    · cases heq
    · cases heq
    · exact ⟨t, [.forked], ht, rfl⟩
    · obtain ⟨u, pre', hu, rfl⟩ := h.only heq
      exact ⟨u, .forked :: .waited t :: .wrote resendByte :: pre', hu, rfl⟩
  · intro pre post hsplit
    obtain ⟨rfl, -, -⟩ | ⟨-, heq, -⟩ | ⟨-, heq, -⟩ | ⟨rest, rfl, heq⟩ := turn_eq_append hsplit
    · exact Or.inl rfl
    · cases heq
    · cases heq
    · right
      rcases h.restarts heq with rfl | ⟨pre', rfl⟩
      · exact ⟨[.forked, .waited t], rfl⟩
      · exact ⟨.forked :: .waited t :: .wrote resendByte :: pre', rfl⟩

/-- What is left of a trace after one turn of the loop. -/
theorem Resends.tail {a b c : Effect} {trace : List Effect} (h : Resends (a :: b :: c :: trace)) : Resends trace := by
  intro pre post t heq ht
  have hsplit : a :: b :: c :: trace = (a :: b :: c :: pre) ++ .waited t :: post := by
    rw [heq]
    rfl
  exact h hsplit ht

/-! ## The loop -/

/-- A supervisor that answers the end of every worker that is not done has none that was killed before one that is done. -/
theorem not_killed_of_resends {ts : List Termination} (h : Resends (forkWorker (ts.map Attempt.started))) :
    ∀ t ∈ ts.takeWhile (fun t => ¬ t.Done), ¬ t.Killed := by
  induction ts with
  | nil => simp
  | cons t ts ih =>
    by_cases hdone : t.Done
    · simp [hdone]
    · have hkilled : ¬ t.Killed := by
        intro hkilled
        have hzero := (Termination.wexitstatus_eq_zero_iff t).mpr (Or.inr hkilled)
        rw [forkWorker_returns hzero] at h
        have hsplit : [Effect.forked, .waited t, .returned] = [.forked] ++ .waited t :: [.returned] := rfl
        obtain ⟨post', heq⟩ := h hsplit hdone
        cases heq
      have hne : wexitstatus t.status ≠ 0 := by
        rw [ne_eq, Termination.wexitstatus_eq_zero_iff]
        simp [hdone, hkilled]
      rw [forkWorker_resends hne] at h
      intro u hu
      simp only [hdone, not_false_eq_true, decide_true, List.takeWhile_cons_of_pos, List.mem_cons] at hu
      rcases hu with rfl | hu
      · exact hkilled
      · exact ih h.tail u hu

/-- When no worker is killed before one that is done, the supervisor restarts its worker after every crash. -/
theorem restarts_of_not_killed {ts : List Termination} (h : ∀ t ∈ ts.takeWhile (fun t => ¬ t.Done), ¬ t.Killed) :
    Restarts ts (forkWorker (ts.map Attempt.started)) := by
  induction ts with
  | nil => exact restarts_nil
  | cons t ts ih =>
    by_cases hdone : t.Done
    · rw [forkWorker_returns ((Termination.wexitstatus_eq_zero_iff t).mpr (Or.inl hdone))]
      exact restarts_done hdone ts
    · simp only [hdone, not_false_eq_true, decide_true, List.takeWhile_cons_of_pos, List.mem_cons, forall_eq_or_imp] at h
      obtain ⟨hkilled, h⟩ := h
      have hne : wexitstatus t.status ≠ 0 := by
        rw [ne_eq, Termination.wexitstatus_eq_zero_iff]
        simp [hdone, hkilled]
      rw [forkWorker_resends hne]
      exact (ih h).crashed hdone

/-- For every sequence of terminations, every `fork` and `execvp` succeeding: the supervisor restarts its worker after every crash, by
an `r` and then a fork, exactly when no worker is killed by a signal before one that is done. -/
theorem restarts_iff (ts : List Termination) :
    Restarts ts (forkWorker (ts.map Attempt.started)) ↔ ∀ t ∈ ts.takeWhile (fun t => ¬ t.Done), ¬ t.Killed :=
  ⟨fun h => not_killed_of_resends h.resends, restarts_of_not_killed⟩

/-- A worker that dies by the signal SIGKILL is not restarted. -/
theorem killed_not_restarted : ¬ ∀ ts : List Termination, Restarts ts (forkWorker (ts.map Attempt.started)) := by
  intro h
  have hsplit : forkWorker ([.signaled 8 false].map Attempt.started) = [.forked, .waited (.signaled 8 false)] ++ [.returned] := by decide
  obtain ⟨t, pre', ht, heq⟩ := (h [.signaled 8 false]).returns hsplit
  rcases pre' with _ | ⟨a, _ | ⟨b, pre'⟩⟩ <;> simp at heq
  obtain ⟨-, rfl⟩ := heq
  cases ht

end FostWright
