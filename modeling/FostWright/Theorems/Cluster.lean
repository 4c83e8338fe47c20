import FostWright.Lemmas.Queues
import FostWright.Theorems.Jobs
import FostWright.Theorems.Network

/-!
# Every line in one place

A manager with clients is a manager: what it does never depends on its queues, and all the rest that its clients do to it is to send packets
and to close. So what holds of the jobs of a manager holds of those of a network, and on lines that are pairwise different each is printed,
with the manager, or at one connection, where it has exactly one copy as long as the connection is open.
-/

namespace FostWright

open Lib

namespace ExecHelper

/-- What is printed stays printed. -/
theorem stdout_prefix {s s' : ExecHelper} {a : Action} (hs : s.step a = some s') : s.control.cap.stdout <+: s'.control.cap.stdout := by
  rcases step_event hs with ⟨hc, -⟩ | ⟨e, hc, -⟩
  · rw [hc]
  · rcases Control.steady_step hc with hsteady | hissues | ⟨_, -, hexpire⟩
    · exact hsteady.stdout
    · rw [hissues.stdout]
    · rw [hexpire]

/-- On distinct lines the job that `next_job` was called with is nowhere else. -/
theorem fresh_of_waiting {n : Nat} {s : ExecHelper} (h : (system n).Reach DistinctLines s) {job : Line}
    (hcall : s.control.call = .waiting job) : job ∉ s.control.cap.stdout ∧ ∀ c, job ∉ s.control.cap.outstanding c := by
  obtain ⟨hnodup, hexec⟩ := nodup_read h
  have hle := count_le_submitted h job
  have hone : s.read.count job ≤ 1 := List.nodup_iff_count_le_one.mp hnodup job
  rw [submitted, hexec, Multiset.coe_nil, add_zero, count_coe] at hle
  unfold Control.inFlight at hle
  rw [hcall, NextJob.text, Multiset.count_add, Multiset.count_singleton_self] at hle
  refine ⟨?_, ?_⟩
  · intro hprinted
    have hpos := List.count_pos_iff.mpr hprinted
    omega
  · intro c hjob
    have hpos := Multiset.count_pos.mpr (Multiset.mem_of_le (Capacity.outstanding_le_inFlight s.control.cap c) hjob)
    omega

/-- A job that is given away by an action that is not about its connection was waiting in `next_job`. -/
theorem waiting_of_queue {s s' : ExecHelper} {a : Action} (hs : s.step a = some s') {c : ConnId} {job : Line}
    (hqueue : s'.control.cap.queue c = s.control.cap.queue c ++ [.execute job]) : s.control.call = .waiting job := by
  have hgrown : s'.control.cap.queue ≠ s.control.cap.queue := by
    intro hsame
    rw [hsame] at hqueue
    simp at hqueue
  rcases step_event hs with ⟨hc, -⟩ | ⟨e, hc, -⟩
  · exact absurd (by rw [hc]) hgrown
  · rcases Control.queue_of_step hc with hsame | ⟨other, d, _, -, hcall, -, hgiven⟩ | ⟨_, _, _, hpeer, -⟩
    · exact absurd hsame hgrown
    · by_cases hd : c = d
      · subst hd
        rw [congrFun hgiven c, Function.update_self] at hqueue
        simp only [List.append_cancel_left_eq, List.cons.injEq, Packet.execute.injEq, and_true] at hqueue
        rwa [hqueue] at hcall
      · rw [congrFun hgiven c, Function.update_of_ne hd] at hqueue
        simp at hqueue
    · cases hpeer

end ExecHelper

/-! ## What was given to a connection -/

/-- A job that is outstanding is printed when it is completed. -/
theorem Capacity.printed_jobDoneFrom {s : Capacity} {c : ConnId} {job : Line} (h : job ∈ s.outstanding c) :
    (s.jobDoneFrom c job).stdout = s.stdout ++ [job] := by
  cases hfind : s.connections.find? c with
  | none =>
    rw [outstanding, hfind] at h
    exact absurd h (Multiset.notMem_zero job)
  | some remote =>
    rw [outstanding, hfind, Option.elim_some, Remote.mem_weigh_textOf] at h
    obtain ⟨task, htask⟩ := h
    have hat : s.remoteAt c = (s, remote) := by
      unfold remoteAt
      rw [hfind]
    rcases s.jobDoneFrom_cases c job with ⟨hnone, -⟩ | ⟨_, -, hdone⟩
    · rw [hat, htask] at hnone
      cases hnone
    · rw [hdone, hat]

namespace Net

/-- Each text was given to the connection once, and as long as the server reads from it, it is outstanding there or printed. -/
structure Given (c : ConnId) (s : Net) : Prop where
  once : s.dispatched.Nodup
  kept : c ∉ s.server.ended → ∀ j ∈ s.dispatched, j ∈ s.server.control.cap.outstanding c ∨ j ∈ s.server.control.cap.stdout

/-- An action of the server that is not about the connection, where the job of `next_job` is new to it. -/
theorem Given.server {n m overspillCap : Nat} {c : ConnId} {s : Net} (hsound : s.Sound n m overspillCap c) (h : s.Given c)
    {a : ExecHelper.Action} {server : ExecHelper} (habout : a.about ≠ some c) (hs : s.server.step a = some server)
    (hfresh : ∀ job, s.server.control.call = .waiting job →
      job ∉ s.server.control.cap.stdout ∧ job ∉ s.server.control.cap.outstanding c) :
    ({ s with
        server := server
        dispatched := s.dispatched ++
          ((server.control.cap.queue c).drop (s.server.control.cap.queue c).length).flatMap Packet.jobs } : Net).Given c := by
  have hended := ExecHelper.ended_of_step habout hs
  have hprinted := (ExecHelper.stdout_prefix hs).subset
  rcases ExecHelper.step_frame habout hs with ⟨hfind, hqueue⟩ | ⟨remote, job, task, hfind, hfind', hqueue⟩
  · have hnone : ((server.control.cap.queue c).drop (s.server.control.cap.queue c).length).flatMap Packet.jobs = [] := by
      rw [hqueue, List.drop_length, List.flatMap_nil]
    rw [hnone, List.append_nil]
    refine ⟨h.once, fun halive j hj => ?_⟩
    refine (h.kept (halive ∘ hended.mpr) j hj).imp ?_ (fun hp => hprinted hp)
    unfold Capacity.outstanding
    rw [hfind]
    exact id
  · have hgiven : ((server.control.cap.queue c).drop (s.server.control.cap.queue c).length).flatMap Packet.jobs = [job] := by
      rw [hqueue, List.drop_left]
      rfl
    obtain ⟨-, halive⟩ := hsound.inv.registered (by rw [hfind]; exact Option.some_ne_none _)
    obtain ⟨hnew, hother⟩ := hfresh job (ExecHelper.waiting_of_queue hs hqueue)
    have hwork : server.control.cap.outstanding c = (s.server.control.cap.outstanding c).ndinsert job := by
      unfold Capacity.outstanding
      rw [hfind, hfind', Option.elim_some, Option.elim_some, Remote.weigh_insert]
    rw [hgiven]
    refine ⟨?_, fun _ j hj => ?_⟩
    · refine List.nodup_append.mpr ⟨h.once, List.nodup_singleton job, ?_⟩
      rintro j hj k hk rfl
      obtain rfl := List.mem_singleton.mp hk
      exact (h.kept halive j hj).elim hother hnew
    · simp only [hwork, Multiset.mem_ndinsert]
      rcases List.mem_append.mp hj with hj | hj
      · exact (h.kept halive j hj).imp Or.inr (fun hp => hprinted hp)
      · exact Or.inl (Or.inl (List.mem_singleton.mp hj))

/-- A packet of the connection, without a job: what it completes is printed. -/
theorem Given.inbound {c : ConnId} {s : Net} (h : s.Given c) {packet : Packet} {server : ExecHelper}
    (hs : s.server.step (.inbound c packet) = some server) {t : Net} (hserver : t.server = server)
    (hdispatched : t.dispatched = s.dispatched) : t.Given c := by
  have hprinted := (ExecHelper.stdout_prefix hs).subset
  refine ⟨hdispatched ▸ h.once, ?_⟩
  rw [hserver, hdispatched]
  cases ExecHelper.steps_of_step hs with
  | @inbound _ _ cap halive hd =>
    intro _ j hj
    rcases h.kept halive j hj with hwork | hp
    · rcases packet.results_cases with hnone | ⟨job, rfl⟩
      · exact Or.inl ((Capacity.outstanding_dispatch hd hnone).symm ▸ hwork)
      · cases hd
        simp only [Capacity.outstanding_jobDoneFrom]
        by_cases hjob : j = job
        · subst hjob
          rw [Capacity.printed_jobDoneFrom hwork]
          exact Or.inr (List.mem_append_right _ (List.mem_singleton_self j))
        · exact Or.inl ((Multiset.mem_erase_of_ne hjob).mpr hwork)
    · exact Or.inr (hprinted hp)
  | thrown => exact fun halive => absurd List.mem_cons_self halive

/-- What happens at the connection itself. -/
theorem Given.own {n m overspillCap : Nat} {c : ConnId} {s t : Net} (hsound : s.Sound n m overspillCap c) (h : s.Given c) {a : Action}
    (hown : ∀ b, a ≠ .server b) (hs : s.step overspillCap c a = some t) : t.Given c := by
  have hdispatched : t.dispatched = s.dispatched := by
    cases steps_of_step hs with
    | server => exact absurd rfl (hown _)
    | _ => rfl
  rcases server_of_step hsound.handshake hown hs with ⟨queue, -, hserver⟩ | ⟨b, rfl | ⟨packet, -, rfl⟩, hstep, -⟩
  · refine ⟨hdispatched ▸ h.once, ?_⟩
    rw [hserver, hdispatched]
    exact h.kept
  · refine ⟨hdispatched ▸ h.once, fun halive => absurd ?_ halive⟩
    obtain ⟨server, hserver⟩ : ∃ server, t.server = server := ⟨_, rfl⟩
    rw [hserver] at hstep ⊢
    cases ExecHelper.steps_of_step hstep with
    | closed => exact List.mem_cons_self
  · exact h.inbound hstep rfl hdispatched

/-- What happens at another connection. -/
theorem Given.other {c d : ConnId} {s : Net} (h : s.Given c) (hd : d ≠ c) {b : ExecHelper.Action}
    (hb : b = .closed d ∨ ∃ packet : Packet, packet.jobs = [] ∧ b = .inbound d packet) {server : ExecHelper}
    (hs : s.server.step b = some server) (hqueue : server.control.cap.queue = s.server.control.cap.queue) :
    ({ s with server := server } : Net).Given c := by
  have habout : b.about ≠ some c := by
    rcases hb with rfl | ⟨packet, -, rfl⟩ <;> exact fun hdc => hd (Option.some.inj hdc)
  have hended := ExecHelper.ended_of_step habout hs
  have hprinted := (ExecHelper.stdout_prefix hs).subset
  refine ⟨h.once, fun halive j hj => ?_⟩
  refine (h.kept (halive ∘ hended.mpr) j hj).imp ?_ (fun hp => hprinted hp)
  rcases ExecHelper.step_frame habout hs with ⟨hfind, -⟩ | ⟨_, _, _, -, -, hgrown⟩
  · unfold Capacity.outstanding
    rw [hfind]
    exact id
  · rw [hqueue] at hgrown
    simp at hgrown

end Net

namespace Network

/-- The lines of stdin are not empty and pairwise different. -/
def DistinctLines (s : Network) : Action → Prop
  | .server a => s.server.DistinctLines a
  | .link _ _ => True

instance (s : Network) : ∀ a, Decidable (s.DistinctLines a)
  | .server a => inferInstanceAs (Decidable (s.server.DistinctLines a))
  | .link _ _ => inferInstanceAs (Decidable True)

theorem nonEmptyJobs_of_distinct (s : Network) (a : Action) (h : s.DistinctLines a) : s.NonEmptyJobs a := by
  cases a with
  | server a =>
    cases a with
    | line l => exact h.1
    | inbound c packet =>
      have hjobs : packet.jobs = [] := h
      change [] ∉ packet.jobs
      rw [hjobs]
      exact List.not_mem_nil
    | _ => trivial
  | link => trivial

/-! ## The server is a manager -/

/-- The server of a network does what a manager can do. -/
theorem server_of_reach {n : Nat} {m : ConnId → Nat} {overspillCap : Nat} {clients : Finset ConnId} {s : Network}
    (h : (system n m overspillCap clients).Reach DistinctLines s) :
    ∃ queue, (ExecHelper.system n).Reach ExecHelper.DistinctLines (s.server.withQueue queue) := by
  refine h.invariant₂ (J := Sound n m overspillCap)
    (I := fun s => ∃ queue, (ExecHelper.system n).Reach ExecHelper.DistinctLines (s.server.withQueue queue))
    (fun u hu => sound_of_reach (hu.mono nonEmptyJobs_of_distinct)) ⟨_, .refl⟩ ?_
  rintro s a s' hsound ⟨queue, hreach⟩ hok hs
  cases steps_of_step hs with
  | @server a server _ hstep =>
    obtain ⟨queue', hstep'⟩ := ExecHelper.step_withQueue hstep queue
    exact ⟨queue', .step a hreach hok hstep'⟩
  | @link c a t hown _ hstep =>
    rcases Net.server_of_step (hsound c).handshake hown hstep with ⟨_, -, hserver⟩ | ⟨b, hb, hstep, -⟩
    · refine ⟨queue, ?_⟩
      change (ExecHelper.system n).Reach _ (t.server.withQueue queue)
      rw [hserver]
      exact hreach
    · obtain ⟨queue', hstep'⟩ := ExecHelper.step_withQueue hstep queue
      refine ⟨queue', .step b hreach ?_ hstep'⟩
      rcases hb with rfl | ⟨packet, hjobs, rfl⟩
      · trivial
      · exact hjobs

/-! ## Every line in one place -/

/-- What was given to each connection, in every run on distinct lines. -/
theorem given_of_reach {n : Nat} {m : ConnId → Nat} {overspillCap : Nat} {clients : Finset ConnId} {s : Network}
    (h : (system n m overspillCap clients).Reach DistinctLines s) : ∀ c, (s.link c).Given c := by
  refine h.invariant₂
    (J := fun s => s.Sound n m overspillCap ∧ ∃ queue, (ExecHelper.system n).Reach ExecHelper.DistinctLines (s.server.withQueue queue))
    (I := fun s => ∀ c, (s.link c).Given c)
    (fun u hu => ⟨sound_of_reach (hu.mono nonEmptyJobs_of_distinct), server_of_reach hu⟩)
    (fun c => ⟨List.nodup_nil, fun _ => nofun⟩) ?_
  rintro s a s' ⟨hsound, queue, hreach⟩ hgiven hok hs d
  cases steps_of_step hs with
  | @server a server habout hstep =>
    have hne : a.about ≠ some d := by
      rw [habout]
      exact nofun
    refine (hgiven d).server (hsound d) hne hstep ?_
    intro job hcall
    have hcall' : (s.server.withQueue queue).control.call = .waiting job := hcall
    obtain ⟨hprinted, hother⟩ := ExecHelper.fresh_of_waiting hreach hcall'
    exact ⟨hprinted, hother d⟩
  | @link c a t hown _ hstep =>
    by_cases hd : d = c
    · subst hd
      rw [relink_self]
      exact (hgiven d).own (hsound d) hown hstep
    · rw [relink_other s hd]
      rcases Net.server_of_step (hsound c).handshake hown hstep with ⟨_, -, hserver⟩ | ⟨b, hb, hstep, hqueue⟩
      · rw [hserver]
        exact ⟨(hgiven d).once, (hgiven d).kept⟩
      · exact (hgiven d).other (fun hcd => hd hcd.symm) hb hstep hqueue

/-- In runs on distinct lines, the lines read are distinct, and each is printed or in flight, once. -/
theorem read_of_distinct {n : Nat} {m : ConnId → Nat} {overspillCap : Nat} {clients : Finset ConnId} {s : Network}
    (h : (system n m overspillCap clients).Reach DistinctLines s) :
    s.server.read.Nodup ∧ (s.server.read : Multiset Line) = (s.server.control.cap.stdout : Multiset Line) + s.server.control.inFlight := by
  obtain ⟨queue, hreach⟩ := server_of_reach h
  obtain ⟨hnodup, hexec⟩ := ExecHelper.nodup_read hreach
  refine ⟨hnodup, ?_⟩
  have hfresh : (ExecHelper.system n).Reach ExecHelper.GivesFresh (s.server.withQueue queue) :=
    hreach.strengthen (J := fun u => ∀ a, u.GivesFresh a) (fun u hu => ExecHelper.givesFresh_of_distinct hu) (fun u a hJ _ => hJ a)
  ext j
  have hcount := ExecHelper.count_eq_submitted hfresh j
  rw [ExecHelper.submitted, hexec, Multiset.coe_nil, add_zero, count_coe] at hcount
  rw [count_coe, Multiset.count_add, count_coe]
  exact hcount

/-- In every state of a network on lines that are not empty and pairwise different: each line read is once in what is printed, what the
manager has (its overspill, the job of `next_job` and its children) and the work of the connections; and the jobs outstanding for a
connection that is open are those that have a copy there, in a packet or with the client, and each has one copy. -/
theorem each_line_in_one_place (n : Nat) (m : ConnId → Nat) (overspillCap : Nat) (clients : Finset ConnId) (s : Network)
    (h : (system n m overspillCap clients).Reach DistinctLines s) :
    s.server.read.Nodup ∧
      (s.server.read : Multiset Line) = (s.server.control.cap.stdout : Multiset Line) +
        ((s.server.control.cap.overspill : Multiset Line) + s.server.control.call.text + s.server.control.cap.weighChildren textOf) +
          s.server.control.cap.weighConnections textOf ∧
      ∀ c, (s.side c).closed = false → (s.link c).copies c = s.server.control.cap.outstanding c := by
  have hsound := sound_of_reach (h.mono nonEmptyJobs_of_distinct)
  obtain ⟨hnodup, hread⟩ := read_of_distinct h
  refine ⟨hnodup, ?_, ?_⟩
  · have hflight : s.server.control.inFlight =
        ((s.server.control.cap.overspill : Multiset Line) + s.server.control.call.text + s.server.control.cap.weighChildren textOf) +
          s.server.control.cap.weighConnections textOf := by
      unfold Control.inFlight Capacity.inFlight Capacity.weigh
      abel
    rw [hread, hflight, ← add_assoc]
  · intro c hopen
    obtain ⟨t, ht, hshows⟩ := (hsound c).mirror
    have hs := hshows ((hsound c).open hopen)
    rw [← hs.copies, (Mirror.agree_of_reach ht).exact ?_, hs.work]
    · rfl
    · rw [hs.sent]
      exact (given_of_reach h c).once

/-- The first line was with a client whose connection has closed and is printed by the child of the manager; the second is with the other
client, whose connection is open. -/
theorem each_line_in_one_place_run :
    ∃ s : Network, (s.side 7).closed = true ∧ s.server.control.cap.stdout = [[97]] ∧ s.server.read.Nodup ∧
      (s.server.read : Multiset Line) = (s.server.control.cap.stdout : Multiset Line) +
        ((s.server.control.cap.overspill : Multiset Line) + s.server.control.call.text + s.server.control.cap.weighChildren textOf) +
          s.server.control.cap.weighConnections textOf ∧
      (s.link 8).dispatched = [[98]] ∧ (s.link 8).copies 8 = s.server.control.cap.outstanding 8 := by
  obtain ⟨s, hs, hp⟩ := System.reach_of_restrict_run (S := system 1 (fun _ => 1) 0 {7, 8}) DistinctLines
    [.link 7 .accepted, .link 7 .connected, .link 7 .clientSends, .link 7 .serverReceives, .server .drained, .server (.line [97]),
      .server (.internal .token), .link 7 .close, .link 7 .serverCloses, .server .consume, .server (.internal .token),
      .server (.internal .written), .link 8 .accepted, .link 8 .connected, .link 8 .clientSends, .link 8 .serverReceives,
      .server .drained, .server (.line [98]), .server (.internal .token), .link 8 .serverSends,
      .link 8 .serverSends, .server (.internal (.stdout 0 [97])), .link 8 .clientReceives, .link 8 .clientReceives]
    (fun s => (s.side 7).closed && s.server.control.cap.stdout == [[97]] && decide ((s.side 8).closed = false) &&
      (s.link 8).dispatched == [[98]]) (by decide)
  simp only [Bool.and_eq_true, decide_eq_true_eq, beq_iff_eq] at hp
  obtain ⟨⟨⟨hclosed, hprinted⟩, hopen⟩, hdispatched⟩ := hp
  obtain ⟨hnodup, hplaces, hcopies⟩ := each_line_in_one_place 1 (fun _ => 1) 0 {7, 8} s hs
  exact ⟨s, hclosed, hprinted, hnodup, hplaces, hdispatched, hcopies 8 hopen⟩

end Network

end FostWright
