import FostWright.Lemmas.Pipe
import Mathlib.Data.List.Nodup

/-!
# When pipe objects own their descriptors

0 stands for a descriptor that is closed, and is also the number of one: a pipe end with that number is never closed, and an object
that was closed, or moved from, before its stream descriptor was made takes descriptor 0 for its parent end.
-/

namespace FostWright

open Lib

namespace Pipes

/-- The three invariants in the states that proper actions reach. -/
theorem invariants_of_reach {inherited : Fd → Bool} {s : Pipes} (h : (system inherited).Reach Proper s) :
    s.Held ∧ s.Serials ∧ s.Refers := by
  refine h.invariant (I := fun s => s.Held ∧ s.Serials ∧ s.Refers)
    ⟨held_start inherited, serials_start inherited, refers_start inherited⟩ ?_
  rintro s a s' ⟨hheld, hserials, hrefers⟩ ha hs
  refine ⟨hheld.step ?_ hs, hserials.step hheld hs, hrefers.step hheld ha hs⟩
  rintro d readFd writeFd rfl
  exact ha

/-- In every state that a run of proper actions reaches, on any number of pipe objects, in any order and with any descriptor numbers
for `::pipe` and `dup`: the pipe objects own their descriptors. -/
theorem own_descriptors (inherited : Fd → Bool) (s : Pipes) (h : (system inherited).Reach Proper s) : s.OwnDescriptors := by
  obtain ⟨hheld, hserials, hrefers⟩ := invariants_of_reach h
  refine ⟨hserials.closes, hserials.nodup, ?_, hrefers.parents⟩
  intro hnone n hn
  rcases (hserials.issued n).mp hn with ⟨fd, e, he, k, hk, -⟩ | hmem
  · obtain ⟨p, hp, -⟩ := (hheld.holds fd k.owner k.role).mp ⟨e, he, k, hk, rfl, rfl⟩
    rw [hnone] at hp
    cases hp
  · exact List.count_eq_one_of_mem hserials.nodup hmem

/-- A pipe whose stream descriptor is made is moved, closed and asked for again, and both objects are destroyed. -/
theorem own_descriptors_run : ∃ s : Pipes, s.released.length = 3 ∧ s.returns.length = 3 ∧ s.OwnDescriptors := by
  obtain ⟨s, hs, hp⟩ := System.reach_of_restrict_run (S := system (fun fd => decide (fd < 3))) Proper
    [.construct .pipeIn 3 4, .child 0, .parent 0 5, .move 0, .parent 0 6, .close 1, .parent 1 6, .destroy 0, .destroy 1]
    (fun s => s.released.length == 3 && s.returns.length == 3) (by decide)
  rw [Bool.and_eq_true, beq_iff_eq, beq_iff_eq] at hp
  exact ⟨s, hp.1, hp.2, own_descriptors _ s hs⟩

/-- A pipe that is closed before it is asked for its parent end returns a copy of the standard input; and a pipe end whose descriptor
is 0 is not closed. -/
theorem zero_not_owned :
    ¬ (∀ (inherited : Fd → Bool) (s : Pipes), (system inherited).Reachable s → s.OwnDescriptors) ∧
      ¬ (∀ (inherited : Fd → Bool) (s : Pipes), (system inherited).Reachable s → (∀ o < s.created, s.objects o = none) →
        ∀ serial < s.issued, s.released.count serial = 1) := by
  constructor
  · intro h
    obtain ⟨s, hs, hp⟩ := System.reachable_of_run (S := system (fun fd => decide (fd < 3)))
      [.construct .pipeIn 3 4, .close 0, .parent 0 3] (fun s => s.returns == [{ own := some (.pipe 0 .write), refers := some .other }])
      (by decide)
    rw [beq_iff_eq] at hp
    have hown := (h _ s hs).parents _ (by rw [hp]; exact List.mem_singleton_self _) _ rfl
    cases hown
  · intro h
    obtain ⟨s, hs, hp⟩ := System.reachable_of_run (S := system (fun _ => false)) [.construct .pipeIn 0 1, .destroy 0]
      (fun s => s.created == 1 && s.objects 0 == none && s.issued == 2 && s.released.count 1 == 0) (by decide)
    simp only [Bool.and_eq_true, beq_iff_eq] at hp
    obtain ⟨⟨⟨hcreated, hnone⟩, hissued⟩, hcount⟩ := hp
    have hall : ∀ o < s.created, s.objects o = none := by
      intro o ho
      obtain rfl : o = 0 := by omega
      exact hnone
    have hone := h _ s hs hall 1 (by omega)
    omega

end Pipes

end FostWright
