import FostWright.Resubmission
import FostWright.Theorems.Draining

/-!
# The jobs that come back go first

The overspill is a queue, and the stdin coroutine only goes on to read a line when it has found it empty. So a job that has come back is
submitted again after one line of stdin at most, however many come in, and before `input_complete` is set.
-/

namespace FostWright

open Lib

namespace ExecHelper

/-- An action takes the front of the overspill, or adds to its end. -/
theorem overspill_step {s s' : ExecHelper} {a : Action} (hs : s.step a = some s') :
    ∃ arrived, s.control.cap.overspill ++ arrived = s.takes a ++ s'.control.cap.overspill := by
  have hadds : ∀ {e : Event}, s.takes a = [] → e.calls = false → s.control.step .serverSide e = some s'.control →
      ∃ arrived, s.control.cap.overspill ++ arrived = s.takes a ++ s'.control.cap.overspill := by
    intro e htakes hcalls hc
    rw [htakes]
    exact Control.overspill_step hcalls hc
  cases steps_of_step hs with
  | consume _ hc =>
    obtain ⟨job, rest, -, hover, rfl⟩ := Control.step_consume hc
    refine ⟨[], ?_⟩
    simp only [takes, hover, List.append_nil, List.take_succ_cons, List.take_zero, List.singleton_append]
  | drained => exact ⟨[], List.append_nil _⟩
  | drainedLast _ _ _ hc => exact hadds rfl rfl hc
  | line _ hc =>
    obtain ⟨-, rfl⟩ := Control.step_nextJob hc
    exact ⟨[], List.append_nil _⟩
  | eof => exact ⟨[], List.append_nil _⟩
  | allDone => exact ⟨[], List.append_nil _⟩
  | @inbound c packet _ _ hd =>
    refine hadds (e := .packet c packet) rfl rfl ?_
    simp only [Control.step, hd]
  | @thrown c => exact hadds (e := .overspillWork c) rfl rfl rfl
  | @closed c => exact hadds (e := .overspillWork c) rfl rfl rfl
  | expire _ hc => exact hadds rfl rfl hc
  | internal he hc =>
    refine ⟨[], ?_⟩
    rw [List.append_nil]
    exact (Control.overspill_internal he hc).symm

/-- What an action does to the loop of the stdin coroutine: nothing; or it finds the overspill empty, reads a line, or goes on from another
place than `clear_overspill`. -/
theorem loop_step {s s' : ExecHelper} {a : Action} (hs : s.step a = some s') :
    (s'.read = s.read ∧ s.control.cap.overspill = []) ∨
      (s'.control.cap.inputComplete = s.control.cap.inputComplete ∧
        ((s'.stage = s.stage ∧ s'.read = s.read) ∨
          (∀ last, s.stage ≠ .clearOverspill last) ∧
            (s'.read = s.read ∨ s'.read.length = s.read.length + 1 ∧ ∃ last, s'.stage = .clearOverspill last))) := by
  have hsame : ∀ {e : Event}, e ≠ .inputComplete → s.control.step .serverSide e = some s'.control →
      s'.control.cap.inputComplete = s.control.cap.inputComplete := fun he hc => Control.inputComplete_step he hc
  cases steps_of_step hs with
  | consume _ hc => exact Or.inr ⟨hsame (e := .consume) (fun he => by cases he) hc, Or.inl ⟨rfl, rfl⟩⟩
  | drained _ _ hempty => exact Or.inl ⟨rfl, hempty⟩
  | drainedLast _ _ hempty => exact Or.inl ⟨rfl, hempty⟩
  | @line l _ hstage hc =>
    refine Or.inr ⟨hsame (e := .nextJob l) (fun he => by cases he) hc, Or.inr ⟨?_, Or.inr ⟨List.length_append, false, rfl⟩⟩⟩
    intro last hlast
    rw [hstage] at hlast
    cases hlast
  | eof hstage =>
    refine Or.inr ⟨rfl, Or.inr ⟨?_, Or.inl rfl⟩⟩
    intro last hlast
    rw [hstage] at hlast
    cases hlast
  | allDone hstage =>
    refine Or.inr ⟨rfl, Or.inr ⟨?_, Or.inl rfl⟩⟩
    intro last hlast
    rw [hstage] at hlast
    cases hlast
  | @inbound c packet _ _ hd =>
    refine Or.inr ⟨hsame (e := .packet c packet) (fun he => by cases he) ?_, Or.inl ⟨rfl, rfl⟩⟩
    simp only [Control.step, hd]
  | @thrown c => exact Or.inr ⟨hsame (e := .overspillWork c) (fun he => by cases he) rfl, Or.inl ⟨rfl, rfl⟩⟩
  | @closed c => exact Or.inr ⟨hsame (e := .overspillWork c) (fun he => by cases he) rfl, Or.inl ⟨rfl, rfl⟩⟩
  | @expire c _ _ hc => exact Or.inr ⟨hsame (e := .expire c) (fun he => by cases he) hc, Or.inl ⟨rfl, rfl⟩⟩
  | @internal e _ he hc =>
    refine Or.inr ⟨hsame ?_ hc, Or.inl ⟨rfl, rfl⟩⟩
    rintro rfl
    cases he

end ExecHelper

namespace Resubmission

/-- The jobs in the overspill. -/
def waiting (s : Resubmission) : List Line := s.helper.control.cap.overspill

/-- Since the state `s` the jobs `taken` have been taken. No line has been read since then, or one and the overspill is being cleared after
it, or all the jobs that were waiting have been taken; and they have been if `input_complete` has been set since then. -/
structure Since (s t : Resubmission) (taken : List Line) : Prop where
  takes : t.taken = s.taken ++ taken
  queue : ∃ arrived, s.waiting ++ arrived = taken ++ t.waiting
  lines : t.helper.read = s.helper.read ∨
    (t.helper.read.length = s.helper.read.length + 1 ∧ ∃ last, t.helper.stage = .clearOverspill last) ∨ s.waiting <+: taken
  complete : t.helper.control.cap.inputComplete = s.helper.control.cap.inputComplete ∨ s.waiting <+: taken

theorem since_refl (s : Resubmission) : Since s s [] :=
  ⟨(List.append_nil _).symm, ⟨[], List.append_nil _⟩, Or.inl rfl, Or.inl rfl⟩

/-- When the overspill is found empty, all that were waiting have been taken. -/
theorem Since.all_taken {s t : Resubmission} {taken : List Line} (h : Since s t taken) (hempty : t.waiting = []) : s.waiting <+: taken := by
  obtain ⟨arrived, hqueue⟩ := h.queue
  rw [hempty, List.append_nil] at hqueue
  exact ⟨arrived, hqueue⟩

/-- One action more. -/
theorem Since.step {s t u : Resubmission} {taken : List Line} {a : ExecHelper.Action} (h : Since s t taken) (hs : t.step a = some u) :
    Since s u (taken ++ t.helper.takes a) := by
  obtain ⟨helper, hhelper, rfl⟩ := Option.map_eq_some_iff.mp hs
  have htaken : s.waiting <+: taken → s.waiting <+: taken ++ t.helper.takes a := fun hall => hall.trans (List.prefix_append _ _)
  have hqueue : ∃ arrived, s.waiting ++ arrived = taken ++ t.helper.takes a ++ helper.control.cap.overspill := by
    obtain ⟨before, hbefore⟩ := h.queue
    obtain ⟨after, hafter⟩ := ExecHelper.overspill_step hhelper
    refine ⟨before ++ after, ?_⟩
    rw [← List.append_assoc, hbefore, List.append_assoc, List.append_assoc, waiting, hafter]
  refine ⟨by rw [← List.append_assoc, ← h.takes], hqueue, ?_, ?_⟩
  · rcases ExecHelper.loop_step hhelper with ⟨-, hempty⟩ | ⟨-, ⟨hstage, hread⟩ | ⟨hplace, hread⟩⟩
    · exact Or.inr (Or.inr (htaken (h.all_taken hempty)))
    · rw [hstage, hread]
      exact h.lines.imp_right (Or.imp_right htaken)
    · rcases h.lines with hnone | ⟨-, last, hlast⟩ | hall
      · rw [hnone] at hread
        exact hread.imp_right Or.inl
      · exact absurd hlast (hplace last)
      · exact Or.inr (Or.inr (htaken hall))
  · rcases ExecHelper.loop_step hhelper with ⟨-, hempty⟩ | ⟨hsame, -⟩
    · exact Or.inr (htaken (h.all_taken hempty))
    · rw [hsame]
      exact h.complete.imp_right htaken

/-- In any stretch of a run of the manager, whatever is done meanwhile: the jobs come off the overspill in the order in which they went
there; and when two lines have been read in it, or `input_complete` has been set, all the jobs that were waiting at its start have been
submitted again. -/
theorem given_back_goes_first (n : Nat) (s t : Resubmission) (h : (system n).ReachFrom System.anyStep s t) :
    ∃ taken arrived, t.taken = s.taken ++ taken ∧ s.waiting ++ arrived = taken ++ t.waiting ∧
      (s.helper.read.length + 2 ≤ t.helper.read.length → s.waiting <+: taken) ∧
      (s.helper.control.cap.inputComplete = false → t.helper.control.cap.inputComplete = true → s.waiting <+: taken) := by
  have hsince : ∃ taken, Since s t taken := by
    refine h.invariant (I := fun t => ∃ taken, Since s t taken) ⟨[], since_refl s⟩ ?_
    rintro u a v ⟨taken, hu⟩ - hs
    exact ⟨_, hu.step hs⟩
  obtain ⟨taken, hsince⟩ := hsince
  obtain ⟨arrived, hqueue⟩ := hsince.queue
  refine ⟨taken, arrived, hsince.takes, hqueue, ?_, ?_⟩
  · intro hread
    rcases hsince.lines with hnone | ⟨hone, -⟩ | hall
    · rw [hnone] at hread
      omega
    · omega
    · exact hall
  · intro hbefore hafter
    rcases hsince.complete with hsame | hall
    · rw [hbefore, hafter] at hsame
      cases hsame
    · exact hall

/-- A connection is closed with two jobs while the coroutine waits for a line: they are submitted after that line and before the next. -/
theorem given_back_goes_first_run :
    ∃ s t : Resubmission, s.waiting = [[97], [98]] ∧ s.helper.read = [[97], [98]] ∧ t.helper.read = [[97], [98], [99], [100]] ∧
      ∃ taken, t.taken = s.taken ++ taken ∧ [[97], [98]] <+: taken := by
  obtain ⟨s, -, hp⟩ := System.reachable_of_run (S := system 1)
    [.drained, .inbound 7 (.version 1 (some 2)), .line [97], .internal .token, .drained, .line [98], .internal .token, .drained, .closed 7]
    (fun s => s.waiting == [[97], [98]] && s.helper.read == [[97], [98]] &&
      (((system 1).run s [.line [99], .internal .token, .internal .written, .consume, .internal .token, .internal .written, .consume,
        .internal .token, .internal .written, .drained, .line [100]]).map (fun t => t.helper.read) == some [[97], [98], [99], [100]]))
    (by decide)
  simp only [Bool.and_eq_true, beq_iff_eq] at hp
  obtain ⟨⟨hwaiting, hread⟩, hrun⟩ := hp
  obtain ⟨t, ht, hreads⟩ := Option.map_eq_some_iff.mp hrun
  obtain ⟨taken, -, htaken, -, hall, -⟩ := given_back_goes_first 1 s t (System.reachFrom_of_run .refl (System.meets_anyStep _ _ _) ht)
  rw [hread, hreads, hwaiting] at hall
  exact ⟨s, t, hwaiting, hread, hreads, taken, htaken, hall (by decide)⟩

end Resubmission

end FostWright
