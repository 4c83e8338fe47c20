import FostWright.Lemmas.InFlight

/-!
# Every job once

What becomes of the jobs of a manager over a whole run. The manager follows the abstract ledger: the lines read and the jobs of
`execute` packets enter it, the lines printed are done and the rest is in flight. That gives for every run that no job is printed
or kept more often than it came in. That none is lost needs two conditions that the code does not secure: a job is not given to a
connection that has one with an equal text, and a connection with outstanding work is not lost after the overspill has been
cleared for the last time.
-/

namespace FostWright

open Lib

namespace ExecHelper

/-! ## The manager follows the ledger -/

/-- The books of the manager are accounted for, and the ledger shows its jobs. -/
structure Tracks (n : Nat) (s : ExecHelper) (l : Ledger Line) : Prop where
  books : s.control.Accounted n
  shows : s.control.Shows l
  entered : l.entered = s.submitted

/-- Every run of the manager is a run of the ledger. A condition on the actions of the ledger that every undropped job meets, and
dropped ones as far as `ok` leaves them, holds of that run. -/
theorem tracks_of_reach {n : Nat} {ok : ExecHelper → Action → Prop} (ok' : Ledger Line → Ledger.Action Line → Prop)
    (hok : ∀ s a l b, ok s a → (s.GivesFresh a → Ledger.Lossless l b) → ok' l b) {s : ExecHelper}
    (h : (system n).Reach ok s) : ∃ l, Ledger.system.Reach ok' l ∧ s.Tracks n l := by
  refine h.simulation ?_ ?_
  · have hinit : (system n).init.control.Accounted n :=
      Control.accounted_of_reachable .serverSide System.ReachFrom.refl
    refine ⟨hinit, ⟨?_, rfl⟩, rfl⟩
    unfold Control.inFlight Capacity.inFlight Capacity.weigh Capacity.weighChildren
    simp [system, Ledger.system, Ledger.empty, Capacity.init, Childproc.weigh, Capacity.weighConnections, NextJob.text]
  · intro s a s' l ht hmeets hs
    rcases step_event hs with ⟨hc, hsub⟩ | ⟨e, hc, -, hsub, hfresh⟩
    · refine ⟨l, System.ReachFrom.refl, ?_, ⟨?_, ?_⟩, ?_⟩
      · exact hc ▸ ht.books
      · rw [hc]
        exact ht.shows.outstanding
      · rw [hc]
        exact ht.shows.done
      · exact ht.entered.trans hsub.symm
    · obtain ⟨l', hshows, hentered, hmove⟩ := Control.step_follows ht.books ht.shows hc
      refine ⟨l', ?_, ht.books.step hc, hshows, by rw [hentered, ht.entered, hsub]⟩
      rcases hmove with rfl | ⟨b, hb, hlossless⟩
      · exact System.ReachFrom.refl
      · exact System.ReachFrom.single b (hok s a l b hmeets (fun hg => hlossless (hfresh hg))) hb

/-- In any run no job is printed or in flight more often than it came in. -/
theorem count_le_submitted {n : Nat} {ok : ExecHelper → Action → Prop} {s : ExecHelper} (h : (system n).Reach ok s) (j : Line) :
    s.control.cap.stdout.count j + s.control.inFlight.count j ≤ s.submitted.count j := by
  obtain ⟨l, hl, ht⟩ := tracks_of_reach System.anyStep (fun _ _ _ _ _ _ => trivial) h
  have := Ledger.count_le_of_reach hl j
  rwa [ht.shows.done, ht.shows.outstanding, ht.entered, count_coe] at this

/-- In a run that never puts a job in the place of an equal text, every job is printed or in flight as often as it came in. -/
theorem count_eq_submitted {n : Nat} {s : ExecHelper} (h : (system n).Reach GivesFresh s) (j : Line) :
    s.submitted.count j = s.control.cap.stdout.count j + s.control.inFlight.count j := by
  obtain ⟨l, hl, ht⟩ := tracks_of_reach Ledger.Lossless (fun _ _ _ _ hf himp => himp hf) h
  have := Ledger.count_eq_of_lossless hl j
  rwa [ht.shows.done, ht.shows.outstanding, ht.entered, count_coe] at this

/-! ## No job is reported more often than it was submitted -/

/-- Whatever the children write and the connections send: the lines printed and the jobs in flight with a text are together at
most the lines read and the jobs of `execute` packets with that text. -/
theorem printed_at_most_submitted (n : Nat) (s : ExecHelper) (h : (system n).Reachable s) (j : Line) :
    s.control.cap.stdout.count j + s.control.inFlight.count j ≤ s.read.count j + s.executed.count j := by
  have := count_le_submitted h j
  rwa [submitted, Multiset.count_add, count_coe, count_coe] at this

/-- A job that is answered, resent and answered again, and a `completed` packet that nobody asked for: one line is printed. -/
theorem printed_at_most_submitted_run :
    ∃ s : ExecHelper, s.control.cap.stdout = [[97]] ∧
      s.control.cap.stdout.count [97] + s.control.inFlight.count [97] ≤ s.read.count [97] + s.executed.count [97] := by
  obtain ⟨s, hs, hp⟩ := System.reachable_of_run (S := system 1)
    [.drained, .line [97], .internal .token, .internal .written, .internal (.resend 0), .internal (.stdout 0 [97]),
      .internal (.stdout 0 [97]), .inbound 7 (.completed [97])]
    (fun s => s.control.cap.stdout == [[97]]) (by decide)
  exact ⟨s, by simpa using hp, printed_at_most_submitted 1 s hs [97]⟩

/-! ## No job disappears -/

/-- The lines read are among the jobs that came in. -/
theorem read_le_of_fresh {n : Nat} {s : ExecHelper} (h : (system n).Reach GivesFresh s) (j : Line) :
    s.read.count j ≤ s.control.cap.stdout.count j + s.control.inFlight.count j := by
  have := count_eq_submitted h j
  rw [submitted, Multiset.count_add, count_coe] at this
  omega

/-- While no job is given to a connection that has one with an equal text, every line read is printed or in flight, as often as it
was read. -/
theorem read_printed_or_in_flight (n : Nat) (s : ExecHelper) (h : (system n).Reach GivesFresh s) (j : Line) :
    s.read.count j ≤ s.control.cap.stdout.count j + s.control.inFlight.count j :=
  read_le_of_fresh h j

/-- Two equal lines, one with a connection of capacity one and the other with the child. -/
theorem read_printed_or_in_flight_run :
    ∃ s : ExecHelper, s.read = [[97], [97]] ∧
      s.read.count [97] ≤ s.control.cap.stdout.count [97] + s.control.inFlight.count [97] := by
  obtain ⟨s, hs, hp⟩ := System.reach_of_restrict_run (S := system 1) GivesFresh
    [.inbound 7 (.version 1 (some 1)), .drained, .line [97], .internal .token, .drained, .line [97], .internal .token,
      .internal .written]
    (fun s => s.read == [[97], [97]]) (by decide)
  exact ⟨s, by simpa using hp, read_printed_or_in_flight 1 s hs [97]⟩

/-- Without that condition it fails: of two equal lines given to one connection only one is left, and only one completion is
printed. -/
theorem equal_lines_lost :
    ¬ ∀ (n : Nat) (s : ExecHelper), (system n).Reachable s → ∀ j,
      s.read.count j ≤ s.control.cap.stdout.count j + s.control.inFlight.count j := by
  intro h
  obtain ⟨s, hs, hp⟩ := System.reachable_of_run (S := system 1)
    [.inbound 7 (.version 1 (some 2)), .drained, .line [97], .internal .token, .drained, .line [97], .internal .token,
      .inbound 7 (.completed [97]), .inbound 7 (.completed [97])]
    (fun s => decide (s.control.cap.stdout.count [97] + s.control.inFlight.count [97] < s.read.count [97])) (by decide)
  have hle := h 1 s hs [97]
  have hlt := of_decide_eq_true hp
  omega

/-! ## No job is lost when the manager is done -/

/-- The lines of stdin are not empty and pairwise different, and jobs come from nowhere else. -/
def DistinctLines (s : ExecHelper) : Action → Prop
  | .line l => l ≠ [] ∧ l ∉ s.read
  | .inbound _ packet => packet.jobs = []
  | _ => True

instance (s : ExecHelper) (a : Action) : Decidable (s.DistinctLines a) := by
  unfold DistinctLines
  split <;> infer_instance

/-- The stdin coroutine is past its last `clear_overspill`. -/
def pastClearing (s : ExecHelper) : Bool :=
  match s.stage with
  | .waitUntilAllDone => true
  | .returned => true
  | _ => false

/-- The connection that an action loses: it is closed, or the handler of its packet throws. -/
def loses (s : ExecHelper) : Action → Option ConnId
  | .closed c => some c
  | .inbound c packet =>
    match s.control.cap.dispatch .serverSide c packet with
    | .ok _ => none
    | .error _ => some c
  | _ => none

/-- A connection that is lost after the last `clear_overspill` has no outstanding work. -/
def LosesInTime (s : ExecHelper) (a : Action) : Prop :=
  s.pastClearing = true → ∀ remote ∈ (s.loses a).bind s.control.cap.connections.find?, remote.work.size = 0

instance (s : ExecHelper) (a : Action) : Decidable (s.LosesInTime a) := inferInstanceAs (Decidable (_ → _))

/-- In runs on distinct lines, the lines read are distinct and no other job came in. -/
theorem nodup_read {n : Nat} {s : ExecHelper} (h : (system n).Reach DistinctLines s) : s.read.Nodup ∧ s.executed = [] := by
  refine h.invariant (I := fun s => s.read.Nodup ∧ s.executed = []) ⟨List.nodup_nil, rfl⟩ ?_
  rintro s a s' ⟨hnodup, hexec⟩ hok hs
  cases steps_of_step hs with
  | @line l =>
    refine ⟨?_, hexec⟩
    rw [List.nodup_append]
    refine ⟨hnodup, List.nodup_singleton l, ?_⟩
    intro x hx y hy hxy
    rw [List.mem_singleton] at hy
    exact hok.2 (hy ▸ hxy ▸ hx)
  | inbound =>
    refine ⟨hnodup, ?_⟩
    simp only [hexec, List.nil_append]
    exact hok
  | _ => exact ⟨hnodup, hexec⟩

/-- In runs on distinct lines no job is given to a connection that has one with an equal text: there is no second copy. -/
theorem givesFresh_of_distinct {n : Nat} {s : ExecHelper} (h : (system n).Reach DistinctLines s) (a : Action) :
    s.GivesFresh a := by
  obtain ⟨hnodup, hexec⟩ := nodup_read h
  cases a with
  | internal e =>
    change s.control.GivesFresh e
    unfold Control.GivesFresh
    split
    · rename_i job c remote hcall hsp
      obtain ⟨hc, -, -⟩ := Capacity.spare_eq_some hsp
      cases hj : remote.work.find? job with
      | none => rfl
      | some task =>
        have hpos := Capacity.count_weigh_pos hc hj
        have hle := count_le_submitted h job
        have hone : s.read.count job ≤ 1 := List.nodup_iff_count_le_one.mp hnodup job
        rw [submitted, hexec, Multiset.coe_nil, add_zero, count_coe] at hle
        unfold Control.inFlight Capacity.inFlight at hle
        rw [hcall, NextJob.text, Multiset.count_add, Multiset.count_add, Multiset.count_singleton_self] at hle
        omega
    · trivial
  | _ => trivial

/-- Past the last `clear_overspill`: `next_job` is not called again, the overspill stays empty, and once the wait is over no token
is alive. -/
structure Settled (s : ExecHelper) : Prop where
  call : s.pastClearing = true → s.control.call = .idle
  empty : s.pastClearing = true → s.control.cap.overspill = []
  done : s.stage = .returned → s.control.cap.limiter.live = 0

/-- What puts nothing new on the books and calls no `next_job` keeps the manager settled. -/
theorem Settled.keep {s s' : ExecHelper} (h : s.Settled) (hstage : s'.stage = s.stage) (hcall : s'.control.call = s.control.call)
    (hnew : s.pastClearing = true → s.control.cap.NothingNew s'.control.cap) : s'.Settled := by
  have hpast : s'.pastClearing = s.pastClearing := by
    unfold pastClearing
    rw [hstage]
  refine ⟨?_, ?_, ?_⟩
  · intro hp
    rw [hpast] at hp
    exact hcall.trans (h.call hp)
  · intro hp
    rw [hpast] at hp
    exact (hnew hp).overspill.trans (h.empty hp)
  · intro hr
    rw [hstage] at hr
    have hp : s.pastClearing = true := by
      unfold pastClearing
      rw [hr]
    have hle := (hnew hp).live
    rw [h.done hr] at hle
    exact Multiset.le_zero.mp hle

/-- One step on distinct lines that loses no work too late. -/
theorem Settled.step {s s' : ExecHelper} {a : Action} (h : s.Settled) (hlines : s.DistinctLines a) (htime : s.LosesInTime a)
    (hs : s.step a = some s') : s'.Settled := by
  -- before the last `clear_overspill` is over there is nothing to keep
  have hearly : ∀ last, s'.stage = .clearOverspill last → s'.Settled := by
    intro last hstage
    have hp : s'.pastClearing = false := by
      unfold pastClearing
      rw [hstage]
    exact ⟨fun hp' => by simp [hp] at hp', fun hp' => by simp [hp] at hp', fun hr => by simp [hstage] at hr⟩
  have hwork : ∀ c, s.loses a = some c → s.pastClearing = true → s.control.cap.NothingNew (s.control.cap.overspillWork c) := by
    intro c hc hp
    refine Capacity.nothingNew_overspillWork (fun remote hr => htime hp remote ?_)
    rw [hc]
    exact hr
  cases steps_of_step hs with
  | consume hstage => exact hearly _ hstage
  | drained => exact ⟨fun hp => by simp [pastClearing] at hp, fun hp => by simp [pastClearing] at hp, fun hr => by simp at hr⟩
  | drainedLast _ hcall hempty hc =>
    cases hc
    exact ⟨fun _ => hcall, fun _ => hempty, fun hr => by simp at hr⟩
  | line => exact hearly _ rfl
  | eof => exact hearly _ rfl
  | allDone hstage hdone =>
    have hp : s.pastClearing = true := by
      unfold pastClearing
      rw [hstage]
    exact ⟨fun _ => h.call hp, fun _ => h.empty hp, fun _ => Multiset.card_eq_zero.mp hdone⟩
  | inbound _ hd => exact h.keep rfl rfl (fun _ => Capacity.nothingNew_dispatch hd hlines)
  | @thrown c _ _ _ hd => exact h.keep rfl rfl (hwork c (by simp only [loses, hd]))
  | @closed c => exact h.keep rfl rfl (hwork c rfl)
  | expire _ hc =>
    cases hc
    exact h.keep rfl rfl (fun _ => ⟨rfl, le_rfl⟩)
  | internal he hc =>
    by_cases hp : s.pastClearing = true
    · obtain ⟨hcall, hnew⟩ := Control.nothingNew_internal he (h.call hp) hc
      exact h.keep rfl (hcall.trans (h.call hp).symm) (fun _ => hnew)
    · refine ⟨fun hp' => absurd hp' hp, fun hp' => absurd hp' hp, fun hr => absurd ?_ hp⟩
      unfold pastClearing
      rw [hr]

/-- No token alive, no call of `next_job` and an empty overspill mean that no job is in flight. -/
theorem inFlight_eq_zero {n : Nat} {s : Control} (ha : s.Accounted n) (hlive : s.cap.limiter.live = 0) (hcall : s.call = .idle)
    (hempty : s.cap.overspill = []) : s.inFlight = 0 := by
  have htokens := congrArg Multiset.card ha.books.tokens
  rw [hlive, Multiset.card_zero, Multiset.card_add] at htokens
  have hcard : Multiset.card (s.cap.weigh textOf) = Multiset.card (s.cap.weigh tokenOf) :=
    (s.cap.card_weigh (fun _ _ => rfl)).trans (s.cap.card_weigh (fun _ _ => rfl)).symm
  have hweigh : s.cap.weigh textOf = 0 := by
    rw [← Multiset.card_eq_zero]
    omega
  unfold Control.inFlight Capacity.inFlight
  rw [hweigh, hempty, hcall]
  rfl

/-- When `wait_until_all_done` has returned in a run on distinct lines in which no connection is lost with outstanding work after
the last `clear_overspill`, the overspill is empty and every line read has been printed. -/
theorem all_printed_when_done (n : Nat) (s : ExecHelper)
    (h : (system n).Reach (fun s a => s.DistinctLines a ∧ s.LosesInTime a) s) (hreturned : s.stage = .returned) :
    s.control.cap.overspill = [] ∧ ∀ l ∈ s.read, l ∈ s.control.cap.stdout := by
  have hdistinct : ∀ u, (system n).Reach (fun s a => s.DistinctLines a ∧ s.LosesInTime a) u →
      (system n).Reach DistinctLines u := fun u hu => hu.mono (fun _ _ hok => hok.1)
  have hfresh : (system n).Reach GivesFresh s :=
    (hdistinct s h).strengthen (J := fun u => (system n).Reach DistinctLines u) (fun u hu => hu)
      (fun u a hu _ => givesFresh_of_distinct hu a)
  have hsettled : s.Settled :=
    h.invariant ⟨(fun hp => by cases hp), (fun hp => by cases hp), (fun hr => by cases hr)⟩
      (fun _ _ _ hi hok hs => hi.step hok.1 hok.2 hs)
  have hpast : s.pastClearing = true := by
    unfold pastClearing
    rw [hreturned]
  obtain ⟨l, -, ht⟩ := tracks_of_reach System.anyStep (fun _ _ _ _ _ _ => trivial) h
  have hzero := inFlight_eq_zero ht.books (hsettled.done hreturned) (hsettled.call hpast) (hsettled.empty hpast)
  refine ⟨hsettled.empty hpast, ?_⟩
  intro line hline
  have hle := read_le_of_fresh hfresh line
  rw [hzero, Multiset.count_zero, add_zero] at hle
  have hpos : 0 < s.read.count line := List.count_pos_iff.mpr hline
  exact List.count_pos_iff.mp (hpos.trans_le hle)

/-- One line is given to a connection and completed, the connection closes and the manager is done. -/
theorem all_printed_when_done_run :
    ∃ s : ExecHelper, s.read = [[97]] ∧ s.control.cap.overspill = [] ∧ ∀ l ∈ s.read, l ∈ s.control.cap.stdout := by
  obtain ⟨s, hs, hp⟩ := System.reach_of_restrict_run (S := system 1) (fun s a => s.DistinctLines a ∧ s.LosesInTime a)
    [.inbound 7 (.version 1 (some 1)), .drained, .line [97], .internal .token, .drained, .eof, .drained,
      .inbound 7 (.completed [97]), .closed 7, .allDone]
    (fun s => decide (s.stage = .returned) && s.read == [[97]]) (by decide)
  simp only [Bool.and_eq_true, decide_eq_true_eq, beq_iff_eq] at hp
  exact ⟨s, hp.2, all_printed_when_done 1 s hs hp.1⟩

/-- Without that condition it fails: a connection that is lost with a job while the manager waits for the last jobs moves it to an
overspill that nobody clears. -/
theorem job_lost_when_done :
    ¬ ∀ (n : Nat) (s : ExecHelper), (system n).Reach DistinctLines s → s.stage = .returned →
      s.control.cap.overspill = [] ∧ ∀ l ∈ s.read, l ∈ s.control.cap.stdout := by
  intro h
  obtain ⟨s, hs, hp⟩ := System.reach_of_restrict_run (S := system 1) DistinctLines
    [.inbound 7 (.version 1 (some 1)), .drained, .line [97], .internal .token, .drained, .eof, .drained, .closed 7, .allDone]
    (fun s => decide (s.stage = .returned) && s.control.cap.overspill == [[97]]) (by decide)
  simp only [Bool.and_eq_true, decide_eq_true_eq, beq_iff_eq] at hp
  have hempty := (h 1 s hs hp.1).1
  rw [hp.2] at hempty
  cases hempty

end ExecHelper

end FostWright
