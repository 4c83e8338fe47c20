import FostWright.Lemmas.Net
import FostWright.Lemmas.Progress
import FostWright.Netvisor
import FostWright.Theorems.Net
import FostWright.Theorems.Progress

/-!
# A client reports each job once

Whatever packets the other end sends, each `execute` is one job of the client until it is one `completed`: its own connection never gets
any capacity, so that no job leaves it another way, and equal texts stay different jobs. Its jobs are taken up in the order in which they
came, and its reports leave in the order in which they were made.
-/

namespace FostWright

open Lib

namespace Netvisor

/-- What holds of a client in every run: its accounts, no connection with a capacity, and each job received is reported or in flight. -/
structure Inv (m : Nat) (s : Netvisor) : Prop where
  books : s.control.Accounted m
  bare : s.control.cap.Bare
  alive : s.control.cap.expired = []
  order : s.received = s.started ++ s.control.cap.overspill
  balance : (s.received : Multiset Line) = (s.reported : Multiset Line) + s.control.inFlight

/-- Only a queue changes, and what has been sent. -/
theorem Inv.queue {m : Nat} {s : Netvisor} (h : s.Inv m) (queue : ConnId → List Packet) (sent : List Packet) :
    ({ s.withCap { s.control.cap with queue := queue } with sent := sent } : Netvisor).Inv m :=
  ⟨h.books.queue queue, h.bare, h.alive, h.order, h.balance⟩

theorem inv_init (m overspillCap : Nat) (c : ConnId) : (system m overspillCap c).init.Inv m := by
  have hinit : ({ cap := Capacity.init m, call := .idle } : Control).Accounted m :=
    Control.accounted_of_reachable .serverSide .refl
  refine ⟨hinit.queue _, fun _ _ hd => (nomatch hd), rfl, rfl, ?_⟩
  have hbooks : (system m overspillCap c).init.control.Accounted m := hinit.queue _
  have hzero : (system m overspillCap c).init.control.inFlight = 0 := by
    rw [Control.inFlight_eq_overspill hbooks rfl rfl]
    rfl
  rw [hzero]
  rfl

/-- A packet from the server: the job of an `execute` goes to the overspill. -/
theorem Inv.inbound {m : Nat} {s : Netvisor} (h : s.Inv m) (c : ConnId) (packet : Packet) :
    ({ s.withCap (s.control.cap.processInbound (.clientSide c) c packet) with received := s.received ++ packet.jobs } : Netvisor).Inv
      m := by
  obtain ⟨hover, hpool, hqueue⟩ := s.control.cap.processInbound_client c packet
  have hbare := Capacity.bare_processInbound h.bare c packet
  have hbooks := h.books.processInbound c packet
  refine ⟨hbooks, hbare, ?_, ?_, ?_⟩
  · exact (s.control.cap.expired_processInbound c packet).trans h.alive
  · simp only [withCap, hover, h.order, List.append_assoc]
  · have hflight := Control.inFlight_of_bare hbooks hbare
    have hbefore := Control.inFlight_of_bare h.books h.bare
    simp only [withCap]
    rw [← Multiset.coe_add, h.balance, hflight, hbefore]
    unfold Capacity.weighChildren
    simp only [hover, hpool, ← Multiset.coe_add]
    abel

/-- What goes on in the client moves a job on, or reports one. -/
theorem Inv.event {m : Nat} {s : Netvisor} (h : s.Inv m) {c : ConnId} {e : Event} {control : Control} (he : e.ofClient = true)
    (hs : s.control.step (.clientSide c) e = some control) :
    ({ s with
        control := control
        started := s.started ++ s.starts e
        reported := s.reported ++
          ((control.cap.queue c).drop (s.control.cap.queue c).length).flatMap Packet.results } : Netvisor).Inv m := by
  obtain ⟨hconn, hmove⟩ := Control.step_client h.books h.bare he hs
  refine ⟨h.books.step hs, fun d remote hd => h.bare d remote (hconn ▸ hd), ?_, ?_, ?_⟩
  · rcases Control.steady_step hs with hsteady | hissues | ⟨d, rfl, -⟩
    · exact hsteady.expired.trans h.alive
    · exact hissues.expired.trans h.alive
    · cases he
  · by_cases hconsume : e = .consume
    · subst hconsume
      obtain ⟨job, rest, -, hover, rfl⟩ := Control.step_consume hs
      simp only [starts, hover, List.head?_cons, Option.toList_some, h.order, List.append_assoc]
      rfl
    · have hinternal : e.internal = true := by
        cases e with
        | consume => exact absurd rfl hconsume
        | _ => exact he
      have hnone : s.starts e = [] := by
        cases e with
        | consume => exact absurd rfl hconsume
        | _ => rfl
      simp only [hnone, List.append_nil, Control.overspill_internal hinternal hs]
      exact h.order
  · rcases hmove with ⟨hflight, hqueue⟩ | ⟨ret, hflight, hqueue⟩
    · simp only [hflight, hqueue, List.drop_length, List.flatMap_nil, List.append_nil]
      exact h.balance
    · simp only [hqueue, List.drop_left, List.flatMap_cons, List.flatMap_nil, Packet.results, List.append_nil]
      rw [h.balance, ← hflight, ← Multiset.coe_add, Multiset.coe_singleton]
      abel

/-- One action. -/
theorem Inv.step {m : Nat} {c : ConnId} {s s' : Netvisor} {a : Action} (h : s.Inv m) (hs : s.step c a = some s') : s'.Inv m := by
  cases steps_of_step hs with
  | inbound => exact h.inbound c _
  | event he hc => exact h.event he hc
  | sends htaken =>
    obtain ⟨-, hcap⟩ := Capacity.consumePacket_eq_some htaken
    rw [hcap]
    exact h.queue _ _
  | logs => exact h.queue _ _

theorem inv_of_reach {m overspillCap : Nat} {c : ConnId} {ok : Netvisor → Action → Prop} {s : Netvisor}
    (h : (system m overspillCap c).Reach ok s) : s.Inv m :=
  h.invariant (inv_init m overspillCap c) (fun _ _ _ hi _ hs => hi.step hs)

/-- In every run of a client, whatever the server sends: its jobs are taken up in the order in which they came; as often as a text came,
it has been reported or is in flight; and its own slots are all that it has. -/
theorem reports_each_job_once (m overspillCap : Nat) (c : ConnId) (s : Netvisor) (h : (system m overspillCap c).Reachable s) :
    s.received = s.started ++ s.control.cap.overspill ∧
      (∀ j, s.received.count j = s.reported.count j + s.control.inFlight.count j) ∧
      s.control.cap.limiter.limit = (bufferSize * m : Nat) := by
  have hinv := inv_of_reach h
  refine ⟨hinv.order, ?_, Capacity.limit_of_bare hinv.books.books hinv.bare⟩
  intro j
  rw [← count_coe, ← count_coe, ← Multiset.count_add, hinv.balance]

/-- The same text came twice: once it has been reported, and once it waits in the overspill. -/
theorem reports_each_job_once_run :
    ∃ s : Netvisor, s.received = [[97], [97]] ∧ s.reported = [[97]] ∧ s.received = s.started ++ s.control.cap.overspill ∧
      (∀ j, s.received.count j = s.reported.count j + s.control.inFlight.count j) ∧ s.control.cap.limiter.limit = 3 := by
  obtain ⟨s, hs, hp⟩ := System.reachable_of_run (S := system 1 2 7)
    [.inbound (.version 1 (some 5)), .inbound (.execute [97]), .inbound (.execute [97]), .event .consume, .event .token,
      .event .written, .event (.stdout 0 [97])]
    (fun s => s.received == [[97], [97]] && s.reported == [[97]]) (by decide)
  rw [Bool.and_eq_true, beq_iff_eq, beq_iff_eq] at hp
  exact ⟨s, hp.1, hp.2, reports_each_job_once 1 2 7 s hs⟩

/-! ## What leaves the client -/

/-- The reports of the packets that have left and then of those that are queued are all that the client has made, in order. -/
def Flushes (c : ConnId) (s : Netvisor) : Prop := s.reported = (s.sent ++ s.control.cap.queue c).flatMap Packet.results

/-- An event only adds packets to the end of the queue. -/
theorem queue_event {m : Nat} {s : Netvisor} (h : s.Inv m) {c : ConnId} {e : Event} {control : Control} (he : e.ofClient = true)
    (hs : s.control.step (.clientSide c) e = some control) :
    ∃ added, control.cap.queue c = s.control.cap.queue c ++ added := by
  obtain ⟨-, ⟨-, hqueue⟩ | ⟨ret, -, hqueue⟩⟩ := Control.step_client h.books h.bare he hs
  · exact ⟨[], by rw [hqueue, List.append_nil]⟩
  · exact ⟨_, hqueue⟩

/-- One action drops no report and moves none past another. -/
theorem Flushes.step {m : Nat} {c : ConnId} {s s' : Netvisor} {a : Action} (h : s.Flushes c) (hinv : s.Inv m)
    (hs : s.step c a = some s') : s'.Flushes c := by
  unfold Flushes at h
  cases steps_of_step hs with
  | @inbound packet =>
    have hqueue := (s.control.cap.processInbound_client c packet).2.2
    simp only [Flushes, withCap, hqueue]
    exact h
  | event he hc =>
    obtain ⟨added, hadded⟩ := queue_event hinv he hc
    simp only [Flushes, hadded, List.drop_left, h, List.flatMap_append, List.append_assoc]
  | sends htaken =>
    obtain ⟨hqueue, -⟩ := Capacity.consumePacket_eq_some htaken
    simp only [Flushes, withCap, h, hqueue, List.append_assoc, List.singleton_append]
  | logs =>
    simp only [Flushes, withCap, Capacity.produce, Function.update_self, h, List.flatMap_append, List.flatMap_cons, List.flatMap_nil,
      Packet.results, List.append_nil]

theorem flushes_of_reach {m overspillCap : Nat} {c : ConnId} {ok : Netvisor → Action → Prop} {s : Netvisor}
    (h : (system m overspillCap c).Reach ok s) : s.Flushes c := by
  refine h.invariant₂ (J := Inv m) (I := Flushes c) (fun _ hu => inv_of_reach hu) ?_ ?_
  · simp only [Flushes, system, Capacity.established, Capacity.produce, Function.update_self, List.nil_append]
    rfl
  · intro s a s' hinv hi _ hs
    exact hi.step hinv hs

/-! ## Progress -/

/-- No job of the client is empty. -/
theorem nonEmpty_of_reach {m overspillCap : Nat} {c : ConnId} {s : Netvisor} (h : (system m overspillCap c).Reach NonEmptyJobs s) :
    [] ∉ s.received := by
  refine h.invariant (I := fun s => [] ∉ s.received) List.not_mem_nil ?_
  intro s a s' hi hok hs
  cases steps_of_step hs with
  | inbound =>
    intro hempty
    exact (List.mem_append.mp hempty).elim hi hok
  | event => exact hi
  | sends => exact hi
  | logs => exact hi

/-- The client can go on until every job received has been reported in a packet that has left. -/
theorem exists_productive {m : Nat} (hm : 0 < m) {c : ConnId} {s : Netvisor} (h : s.Inv m) (hflushes : s.Flushes c)
    (hempty : [] ∉ s.received) (hopen : ¬s.Finished c) : ∃ a s', s.Productive a ∧ s.step c a = some s' := by
  cases hqueue : s.control.cap.queue c with
  | cons packet rest =>
    have hs : (s.step c .sends).isSome := by
      simp [step, Capacity.consumePacket, hqueue]
    exact ⟨.sends, _, trivial, (Option.some_get hs).symm⟩
  | nil =>
    have hsent : s.reported = s.sent.flatMap Packet.results := by
      unfold Flushes at hflushes
      rw [hflushes, hqueue, List.append_nil]
    have hflight : [] ∉ s.control.inFlight := by
      intro hin
      refine hempty (Multiset.mem_coe.mp ?_)
      rw [h.balance]
      exact Multiset.mem_add.mpr (Or.inr hin)
    have hsome : s.control.inFlight ≠ 0 := by
      intro hnone
      refine hopen ⟨hqueue, Multiset.coe_eq_coe.mp ?_⟩
      rw [h.balance, hnone, hsent]
      exact add_zero _
    obtain ⟨e, control, he, hp, hc⟩ := Control.exists_productive_client (c := c) hm h.books h.bare h.alive hflight hsome
    have hs : (s.step c (.event e)).isSome := by
      simp [step, he, hc]
    exact ⟨.event e, _, hp, (Option.some_get hs).symm⟩

/-- What takes a job of the client forward brings in no job. -/
theorem Productive.received {c : ConnId} {s s' : Netvisor} {a : Action} (h : s.Productive a) (hs : s.step c a = some s') :
    s'.received = s.received := by
  cases steps_of_step hs with
  | inbound => exact h.elim
  | event | sends | logs => rfl

/-- What takes a job of the client forward leaves less to do. -/
theorem Productive.remaining_lt {m : Nat} {c : ConnId} {s s' : Netvisor} {a : Action} (h : s.Productive a) (hinv : s.Inv m)
    (hs : s.step c a = some s') : s'.remaining c < s.remaining c := by
  cases steps_of_step hs with
  | inbound => exact h.elim
  | event he hc => exact Control.remaining_reported_lt hinv.books hinv.bare h hc
  | @sends packet cap htaken =>
    obtain ⟨hqueue, hcap⟩ := Capacity.consumePacket_eq_some htaken
    have hsame : (s.withCap cap).control.remaining 3 0 = s.control.remaining 3 0 := by
      rw [hcap]
      rfl
    have hqueued := Capacity.queued_consumePacket hqueue
    simp only [remaining, hsame, hqueued]
    exact Nat.add_lt_add_left (Nat.lt_add_of_pos_right (Nat.succ_pos _)) _
  | logs => exact h.elim

/-- From every state that a client with a child gets to, whatever the server sends as long as no job is empty, it comes to rest if its
children answer: there is only so much to do, and when nothing is left to do all its packets have left, and each job received has been
reported in one of them, and no other. -/
theorem comes_to_rest (m overspillCap : Nat) (hm : 0 < m) (c : ConnId) (s : Netvisor)
    (h : (system m overspillCap c).Reach NonEmptyJobs s) :
    (system m overspillCap c).ComesTo Productive (s.remaining c) (Finished c) s := by
  have hlowers : (system m overspillCap c).Lowers Productive (fun s => s.Inv m ∧ s.Flushes c ∧ [] ∉ s.received) (remaining c) := by
    refine ⟨?_, ?_⟩
    · rintro s a t ⟨hinv, hflushes, hempty⟩ hp hs
      exact ⟨hinv.step hs, hflushes.step hinv hs, hp.received hs ▸ hempty⟩
    · rintro s a t ⟨hinv, -, -⟩ hp hs
      exact hp.remaining_lt hinv hs
  refine hlowers.comesTo ⟨inv_of_reach h, flushes_of_reach h, nonEmpty_of_reach h⟩ ?_
  rintro t ⟨hinv, hflushes, hempty⟩ hstuck
  by_contra hopen
  obtain ⟨a, u, hp, hs⟩ := exists_productive hm hinv hflushes hempty hopen
  exact absurd ((hstuck a hp).symm.trans hs) nofun

/-- One job with the child, one that waits in the overspill, and the version packet on its way. -/
theorem comes_to_rest_run :
    ∃ s : Netvisor, s.received = [[97], [98]] ∧ s.started = [[97]] ∧ s.sent.length = 1 ∧
      (system 1 2 7).ComesTo Productive (s.remaining 7) (Finished 7) s := by
  obtain ⟨s, hs, hp⟩ := System.reach_of_restrict_run (S := system 1 2 7) NonEmptyJobs
    [.inbound (.execute [97]), .inbound (.execute [98]), .sends, .event .consume, .event .token, .event .written]
    (fun s => s.received == [[97], [98]] && s.started == [[97]] && s.sent.length == 1) (by decide)
  rw [Bool.and_eq_true, Bool.and_eq_true, beq_iff_eq, beq_iff_eq, beq_iff_eq] at hp
  exact ⟨s, hp.1.1, hp.1.2, hp.2, comes_to_rest 1 2 (by decide) 7 s hs⟩

end Netvisor

end FostWright
