import FostWright.Rotation
import FostWright.Lemmas.Registry
import FostWright.Lib.RoundRobin

/-!
# The children have their turns

The loop of `next_job` goes on round the pool from job to job, whatever happens between two jobs. So in any stretch of a run it looks at two
children equally often, up to one time, and where one has been given more jobs than that, the other one was full when it was looked at.
-/

namespace FostWright

open Lib

/-! ## What is counted -/

/-- A place is come to with a full queue or with room. -/
theorem count_looked (looked : List (Nat × Bool)) (k : Nat) :
    (looked.map Prod.fst).count k = looked.count (k, false) + looked.count (k, true) := by
  induction looked with
  | nil => rfl
  | cons look looked ih =>
    obtain ⟨j, full⟩ := look
    simp only [List.map_cons, List.count_cons, ih, beq_iff_eq, Prod.mk.injEq]
    by_cases hj : j = k <;> rcases full <;> simp [hj] <;> omega

/-- Those with room. -/
theorem count_roomy (looked : List (Nat × Bool)) (k : Nat) :
    ((looked.filter (fun look => !look.2)).map Prod.fst).count k = looked.count (k, false) := by
  induction looked with
  | nil => rfl
  | cons look looked ih =>
    obtain ⟨j, full⟩ := look
    rcases full
    · simp only [List.filter_cons, Bool.not_false, if_true, List.map_cons, List.count_cons, ih, beq_iff_eq, Prod.mk.injEq, and_true]
    · simp only [List.filter_cons, Bool.not_true, Bool.false_eq_true, if_false, List.count_cons, ih, beq_iff_eq, Prod.mk.injEq,
        reduceCtorEq, and_false, Nat.add_zero]

/-! ## The loop -/

/-- The loop looks at one child after the other, at full ones until the one that it ends on. -/
theorem Capacity.looksAt_of_rotate {children : List Childproc} {index fuel k : Nat} (h : rotate children index fuel = some k) :
    (looksAt children index fuel).map Prod.fst = turns children.length index (looksAt children index fuel).length ∧
      k = (index + (looksAt children index fuel).length) % children.length ∧
      (looksAt children index fuel).filter (fun look => !look.2) = [(k, false)] := by
  induction fuel generalizing index with
  | zero => cases h
  | succ fuel ih =>
    rcases hchild : children[(index + 1) % children.length]? with _ | child
    · simp only [rotate, hchild, reduceCtorEq] at h
    · simp only [rotate, hchild] at h
      simp only [looksAt, hchild]
      by_cases hfull : child.commands.full = true
      · rw [if_pos hfull] at h
        obtain ⟨hway, hk, hroomy⟩ := ih h
        rw [turns_mod] at hway
        simp only [hfull, if_true, List.map_cons, List.length_cons, List.filter_cons, Bool.not_true, Bool.false_eq_true, if_false]
        refine ⟨?_, ?_, hroomy⟩
        · rw [turns_succ, hway]
        · rw [hk, Nat.mod_add_mod, Nat.add_assoc, Nat.add_comm 1]
      · rw [if_neg hfull] at h
        obtain rfl := Option.some.inj h
        rw [if_neg hfull]
        exact ⟨rfl, rfl, rfl⟩

/-! ## One event -/

namespace Control

/-- Only the token event moves the index. -/
theorem childIndex_step {peer : Peering} {s s' : Control} {e : Event} (he : e ≠ .token) (hs : s.step peer e = some s') :
    s'.cap.childIndex = s.cap.childIndex := by
  cases e with
  | nextJob job =>
    obtain ⟨-, rfl⟩ := step_nextJob hs
    rfl
  | consume =>
    obtain ⟨_, _, -, -, rfl⟩ := step_consume hs
    rfl
  | token => exact absurd rfl he
  | written =>
    obtain ⟨_, _, _, -, rfl⟩ := step_written hs
    exact (Capacity.steady_pushCommand _ _ _ _).childIndex
  | stdout k ret =>
    obtain rfl := Option.some.inj hs
    exact (Capacity.steady_handleStdout _ _ _ _).childIndex
  | resend k =>
    obtain rfl := Option.some.inj hs
    exact (Capacity.steady_resendJobs _ _).childIndex
  | packet c packet =>
    rcases step_packet hs with ⟨cap, hd, rfl⟩ | ⟨-, rfl⟩
    · exact (Capacity.steady_dispatch hd).childIndex
    · rfl
  | overspillWork c =>
    obtain rfl := Option.some.inj hs
    exact (Capacity.steady_overspillWork _ _).childIndex
  | _ =>
    obtain rfl := Option.some.inj hs
    rfl

/-- What an event adds: the children that it looks at follow the index, the index follows them, and the child chosen is the one with room. -/
theorem looks_step {peer : Peering} {s s' : Control} {e : Event} (hs : s.step peer e = some s') :
    (s.looks e).map Prod.fst = turns s.cap.pool.children.length s.cap.childIndex (s.looks e).length ∧
      s'.cap.childIndex % s.cap.pool.children.length = (s.cap.childIndex + (s.looks e).length) % s.cap.pool.children.length ∧
      s'.chooses e = ((s.looks e).filter (fun look => !look.2)).map Prod.fst := by
  by_cases he : e = .token
  · subst he
    obtain ⟨job, task, limiter, hcall, hlim, hplace⟩ := step_token hs
    rcases placeJob_cases hplace with ⟨c, remote, hspare, rfl⟩ | ⟨hspare, k, hk, rfl⟩
    · simp only [looks, hcall, hlim, hspare]
      exact ⟨rfl, rfl, rfl⟩
    · obtain ⟨hway, hindex, hroomy⟩ := Capacity.looksAt_of_rotate hk
      simp only [looks, hcall, hlim, hspare]
      refine ⟨hway, ?_, ?_⟩
      · rw [hindex]
        exact Nat.mod_mod _ _
      · change [k] = _
        rw [show (Capacity.looksAt s.cap.pool.children s.cap.childIndex s.cap.pool.children.length).filter _ = _ from hroomy]
        rfl
  · have hlooks : s.looks e = [] := by
      rcases e
      case token => exact absurd rfl he
      all_goals rfl
    have hchooses : s'.chooses e = [] := by
      rcases e
      case token => exact absurd rfl he
      all_goals rfl
    rw [hlooks, hchooses, childIndex_step he hs]
    exact ⟨rfl, rfl, rfl⟩

end Control

namespace Rotation

/-! ## A stretch of a run -/

/-- What a stretch of a run from `s` has added in `t`. -/
structure Stretch (n : Nat) (s t : Rotation) (looked : List (Nat × Bool)) (chosen : List Nat) : Prop where
  looks : t.looked = s.looked ++ looked
  chooses : t.chosen = s.chosen ++ chosen
  way : looked.map Prod.fst = turns n s.control.cap.childIndex looked.length
  index : t.control.cap.childIndex % n = (s.control.cap.childIndex + looked.length) % n
  roomy : chosen = (looked.filter (fun look => !look.2)).map Prod.fst

theorem stretch_refl (n : Nat) (s : Rotation) : Stretch n s s [] [] :=
  ⟨(List.append_nil _).symm, (List.append_nil _).symm, rfl, rfl, rfl⟩

/-- One event more. -/
theorem Stretch.step {peer : Peering} {n : Nat} {s t u : Rotation} {looked : List (Nat × Bool)} {chosen : List Nat} {e : Event}
    (h : Stretch n s t looked chosen) (hcount : t.control.cap.pool.children.length = n) (hs : t.step peer e = some u) :
    Stretch n s u (looked ++ t.control.looks e) (chosen ++ u.control.chooses e) := by
  obtain ⟨control, hcontrol, rfl⟩ := Option.map_eq_some_iff.mp hs
  obtain ⟨hway, hindex, hroomy⟩ := Control.looks_step hcontrol
  rw [hcount] at hway hindex
  refine ⟨?_, ?_, ?_, ?_, ?_⟩
  · rw [← List.append_assoc, ← h.looks]
  · rw [← List.append_assoc, ← h.chooses]
  · rw [List.map_append, List.length_append, turns_add, h.way, hway, ← turns_mod n t.control.cap.childIndex, h.index, turns_mod]
  · rw [hindex, List.length_append, ← Nat.add_assoc, Nat.add_mod, h.index, ← Nat.add_mod]
  · rw [List.filter_append, List.map_append, ← h.roomy, hroomy]

/-- The number of children does not change. -/
theorem children_of_reach {peer : Peering} {n : Nat} {s : Rotation} (h : (system peer n).Reachable s) :
    s.control.cap.pool.children.length = n := by
  refine h.invariant (I := fun s => s.control.cap.pool.children.length = n) (List.length_replicate) ?_
  intro s e s' hn _ hs
  obtain ⟨control, hcontrol, rfl⟩ := Option.map_eq_some_iff.mp hs
  exact (Control.count_step hcontrol).trans hn

/-- A stretch of a run adds what `Stretch` says. -/
theorem exists_stretch {peer : Peering} {n : Nat} {s t : Rotation} (h : (system peer n).Reachable s)
    (ht : (system peer n).ReachFrom System.anyStep s t) : ∃ looked chosen, Stretch n s t looked chosen := by
  induction ht with
  | refl => exact ⟨[], [], stretch_refl n s⟩
  | step e hreach _ hs ih =>
    obtain ⟨looked, chosen, hstretch⟩ := ih
    exact ⟨_, _, hstretch.step (children_of_reach (h.trans hreach)) hs⟩

/-- In any stretch of a run, of a manager or of a client, with whatever happens meanwhile: the loop of `next_job` goes round the children, and
a child is chosen at most once more than another one is chosen or found full. -/
theorem children_have_turns (peer : Peering) (n : Nat) (s t : Rotation) (h : (system peer n).Reachable s)
    (ht : (system peer n).ReachFrom System.anyStep s t) :
    ∃ looked chosen, t.looked = s.looked ++ looked ∧ t.chosen = s.chosen ++ chosen ∧
      looked.map Prod.fst = turns n s.control.cap.childIndex looked.length ∧
      ∀ k m, k < n → m < n → chosen.count k ≤ chosen.count m + looked.count (m, true) + 1 := by
  obtain ⟨looked, chosen, hstretch⟩ := exists_stretch h ht
  refine ⟨looked, chosen, hstretch.looks, hstretch.chooses, hstretch.way, ?_⟩
  intro k m hk hm
  have hturns := count_turns_le hk hm s.control.cap.childIndex looked.length
  rw [← hstretch.way, count_looked, count_looked] at hturns
  rw [hstretch.roomy, count_roomy, count_roomy]
  omega

/-- Child 1 is full when it is looked at, so that child 0 is chosen twice in a row. -/
theorem children_have_turns_run :
    ∃ s : Rotation, s.chosen = [1, 0, 1, 0, 1, 0, 0] ∧ s.looked.count (1, true) = 1 ∧
      s.chosen.count 0 ≤ s.chosen.count 1 + s.looked.count (1, true) + 1 := by
  obtain ⟨s, hs, hp⟩ := System.reachable_of_run (S := system .serverSide 2)
    [.nextJob [97], .token, .written, .nextJob [98], .token, .written, .nextJob [99], .token, .written, .nextJob [100], .token, .written,
      .nextJob [101], .token, .written, .stdout 0 [98], .nextJob [102], .token, .written, .nextJob [103], .token]
    (fun s => s.chosen == [1, 0, 1, 0, 1, 0, 0] && s.looked.count (1, true) == 1) (by decide)
  simp only [Bool.and_eq_true, beq_iff_eq] at hp
  obtain ⟨looked, chosen, hlooked, hchosen, -, hturns⟩ := children_have_turns .serverSide 2 _ s .refl hs
  have hle := hturns 0 1 (by decide) (by decide)
  obtain rfl : s.looked = looked := hlooked
  obtain rfl : s.chosen = chosen := hchosen
  exact ⟨s, hp.1, hp.2, hle⟩

end Rotation

end FostWright
