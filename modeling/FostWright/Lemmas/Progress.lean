import FostWright.Lemmas.Net
import FostWright.Progress
import FostWright.Theorems.NextJob
import Mathlib.Data.Multiset.OrderedMonoid

/-!
# Jobs go forward

An event that takes a job forward lowers what the jobs cost (`remaining_lt`), and there is always one to wait for: while `next_job` has
a job, or a token is alive, `next_job` can go on, a child has a job to answer or a connection has one to complete (`exists_productive`).
-/

namespace FostWright

open Lib

/-! ## Tokens alive -/

namespace Capacity

/-- The tokens alive are those of the jobs with the children and the connections, and those held. -/
theorem Accounted.tokens_eq {n : Nat} {s : Capacity} {held : Multiset Token} (h : s.Accounted n held) :
    s.limiter.outstanding = Multiset.card (s.weigh tokenOf) + Multiset.card held := by
  unfold Limiter.outstanding
  rw [h.tokens, Multiset.card_add]

/-- A job that is answered gives its token back. -/
theorem tokens_handleStdout {n : Nat} {s : Capacity} {held : Multiset Token} (h : s.Accounted n held) (peer : Peering) {k : Nat}
    {ret : Line} (ha : s.IsAnswer k ret) : (s.handleStdout peer k ret).limiter.outstanding + 1 = s.limiter.outstanding := by
  obtain ⟨child, hk, hsome⟩ := ha
  obtain ⟨⟨job, child'⟩, hc⟩ := Option.isSome_iff_exists.mp hsome
  have hw := congrArg Multiset.card (weigh_handleStdout peer hk hc tokenOf)
  rw [Multiset.card_add, tokenOf, Multiset.card_singleton] at hw
  rw [(h.handleStdout peer k ret).tokens_eq, h.tokens_eq, ← hw, Nat.add_right_comm]

/-- A job that a connection completes gives its token back. -/
theorem tokens_jobDoneFrom {n : Nat} {s : Capacity} {held : Multiset Token} (h : s.Accounted n held) {c : ConnId} {job : Line}
    (ho : s.IsOutstanding c job) : (s.jobDoneFrom c job).limiter.outstanding + 1 = s.limiter.outstanding := by
  obtain ⟨remote, hc, hsome⟩ := ho
  obtain ⟨task, hj⟩ := Option.isSome_iff_exists.mp hsome
  have hr : s.remoteAt c = (s, remote) := by
    unfold remoteAt
    rw [hc]
  have hw := congrArg Multiset.card (weigh_erase hc hj tokenOf)
  rw [Multiset.card_add, tokenOf, Multiset.card_singleton] at hw
  rw [(h.jobDoneFrom c job).tokens_eq, h.tokens_eq, ← hw, Nat.add_right_comm]
  rcases s.jobDoneFrom_cases c job with ⟨hnone, -⟩ | ⟨task', -, hdone⟩
  · rw [hr, hj] at hnone
    cases hnone
  · rw [hdone, hr]
    rfl

end Capacity

/-! ## What is left to do -/

namespace Control

/-- Where no job is added to the overspill and no token made, and `next_job` stays where it is, nothing costs more. -/
theorem remaining_le (d x : Nat) {s s' : Control} (hover : s'.cap.overspill = s.cap.overspill) (hcall : s'.call = s.call)
    (hlive : s'.cap.limiter.live ≤ s.cap.limiter.live) : s'.remaining d x ≤ s.remaining d x := by
  have hmul := Nat.mul_le_mul_left d (Multiset.card_le_card hlive)
  unfold remaining Limiter.outstanding
  rw [hover, hcall]
  omega

/-- A job of the overspill that is taken up costs less. -/
theorem remaining_consume {peer : Peering} (d x : Nat) {s s' : Control} (hs : s.step peer .consume = some s') :
    s'.remaining d x + 1 = s.remaining d x := by
  obtain ⟨job, rest, hcall, hover, rfl⟩ := step_consume hs
  unfold remaining
  rw [hcall, hover, List.length_cons, Nat.mul_succ]
  simp only [NextJob.remaining]
  omega

/-- A job that has got its token and a place costs less, also with what it costs more at a connection. -/
theorem remaining_token {peer : Peering} (d x : Nat) {s s' : Control} (hs : s.step peer .token = some s') :
    s'.remaining d x + x + 1 ≤ s.remaining d x := by
  obtain ⟨job, task, limiter, hcall, hlim, hplace⟩ := step_token hs
  have hlive : limiter.outstanding = s.cap.limiter.outstanding + 1 := by
    unfold Limiter.outstanding
    rw [(Limiter.nextJob_eq_some hlim).2.2, Multiset.card_cons]
  rcases placeJob_cases hplace with ⟨c, remote, -, rfl⟩ | ⟨-, k, -, rfl⟩
  · have hle : (limiter.releaseAll (remote.work.find? job).toList).outstanding ≤ limiter.outstanding :=
      Multiset.card_le_card (Limiter.live_releaseAll_le _ _)
    have hmul := Nat.mul_le_mul_left d hle
    rw [hlive, Nat.mul_succ] at hmul
    unfold remaining
    rw [hcall]
    simp only [NextJob.remaining, Capacity.giveRemote, Capacity.produce, Capacity.accept]
    omega
  · unfold remaining
    rw [hcall]
    simp only [NextJob.remaining, Capacity.accept, hlive, Nat.mul_succ]
    omega

/-- A job that has been written costs less. -/
theorem remaining_written {peer : Peering} (d x : Nat) {s s' : Control} (hs : s.step peer .written = some s') :
    s'.remaining d x + 1 ≤ s.remaining d x := by
  obtain ⟨job, task, k, hcall, rfl⟩ := step_written hs
  have hover : (s.cap.pushCommand k job task).overspill = s.cap.overspill := by
    unfold Capacity.pushCommand
    split <;> rfl
  have hmul := Nat.mul_le_mul_left d (Multiset.card_le_card (s.cap.steady_pushCommand k job task).live)
  unfold remaining Limiter.outstanding
  rw [hcall, hover]
  simp only [NextJob.remaining]
  omega

/-- A job that is answered costs nothing any more. -/
theorem remaining_stdout {peer : Peering} {n : Nat} (d x : Nat) {s s' : Control} (ha : s.Accounted n) {k : Nat} {ret : Line}
    (hans : s.cap.IsAnswer k ret) (hs : s.step peer (.stdout k ret) = some s') : s'.remaining d x + d = s.remaining d x := by
  cases hs
  have hover : (s.cap.handleStdout peer k ret).overspill = s.cap.overspill := by
    rcases Capacity.handleStdout_cases peer s.cap k ret with hsame | ⟨_, _, _, -, -, hdone⟩
    · rw [hsame]
    · rw [hdone, (Capacity.jobDoneCallback_keeps _ _ _).2.1]
  unfold remaining
  simp only [hover]
  rw [← Capacity.tokens_handleStdout ha.books peer hans, Nat.mul_succ, ← Nat.add_assoc]

/-- A job that a connection completes costs nothing any more. -/
theorem remaining_completed {peer : Peering} {n : Nat} (d x : Nat) {s s' : Control} (ha : s.Accounted n) {c : ConnId} {job : Line}
    (ho : s.cap.IsOutstanding c job) (hs : s.step peer (.packet c (.completed job)) = some s') :
    s'.remaining d x + d = s.remaining d x := by
  cases hs
  unfold remaining
  simp only [(s.cap.jobDoneFrom_keeps c job).2.1]
  rw [← Capacity.tokens_jobDoneFrom ha.books ho, Nat.mul_succ, ← Nat.add_assoc]

/-- What takes a job forward leaves less to do. -/
theorem remaining_lt {peer : Peering} {n d : Nat} (hd : 0 < d) (x : Nat) {s s' : Control} (ha : s.Accounted n) {e : Event}
    (he : s.Productive e) (hs : s.step peer e = some s') : s'.remaining d x < s.remaining d x := by
  cases e with
  | consume =>
    have := remaining_consume d x hs
    omega
  | token =>
    have := remaining_token d x hs
    omega
  | written =>
    have := remaining_written d x hs
    omega
  | stdout k ret =>
    have := remaining_stdout d x ha he hs
    omega
  | packet c packet =>
    cases packet with
    | completed job =>
      have := remaining_completed d x ha he hs
      omega
    | _ => exact he.elim
  | _ => exact he.elim

end Control

/-! ## There is something to wait for -/

/-- A child with a job in its queue that is not empty has something to answer. -/
theorem Capacity.exists_isAnswer {s : Capacity} {k : Nat} {child : Childproc} (hk : s.pool.children[k]? = some child)
    (hjobs : child.commands.elems ≠ []) (hnonempty : [] ∉ s.inFlight) : ∃ ret, s.IsAnswer k ret := by
  obtain ⟨front, rest, hfront⟩ := List.exists_cons_of_ne_nil hjobs
  have hmem : front.command ∈ s.inFlight := by
    unfold inFlight weigh weighChildren
    refine Multiset.mem_add.mpr (Or.inl (Multiset.mem_add.mpr (Or.inl ?_)))
    refine Multiset.mem_of_le (List.le_sum_of_mem (List.mem_map.mpr ⟨child, List.mem_of_getElem? hk, rfl⟩)) ?_
    unfold Childproc.weigh
    rw [hfront, List.map_cons, List.sum_cons]
    exact Multiset.mem_add.mpr (Or.inl (Multiset.mem_singleton_self _))
  have hne : front.command ≠ [] := fun h => hnonempty (h ▸ hmem)
  refine ⟨front.command, child, hk, ?_⟩
  simp [Childproc.handleStdout, CircularBuffer.front?, hfront, hne]

/-- A connection with work has a job to complete. -/
theorem Capacity.exists_isOutstanding {s : Capacity} {c : ConnId} {remote : Remote} (hc : s.connections.find? c = some remote)
    (hwork : remote.work.size ≠ 0) : ∃ job, s.IsOutstanding c job := by
  obtain ⟨e, he⟩ := List.exists_mem_of_length_pos (Nat.pos_of_ne_zero hwork)
  have hfind := (OrdMap.mem_entries_iff _ e.1 e.2).mp he
  exact ⟨e.1, remote, hc, by rw [hfind]; rfl⟩

/-- While a token is alive that `next_job` does not hold, a child or a connection has a job. -/
theorem Capacity.exists_busy {n : Nat} {s : Capacity} (ha : s.Accounted n 0) (hlive : 0 < s.limiter.outstanding)
    (hnonempty : [] ∉ s.inFlight) : (∃ k ret, s.IsAnswer k ret) ∨ ∃ c job, s.IsOutstanding c job := by
  have hcard := s.card_weigh (w := tokenOf) (fun _ _ => rfl)
  rw [ha.tokens_eq, Multiset.card_zero, Nat.add_zero, hcard] at hlive
  rcases Nat.eq_zero_or_pos (s.pool.children.map (fun child => child.commands.size)).sum with hzero | hpos
  · rw [hzero, Nat.zero_add] at hlive
    obtain ⟨m, hm, hne⟩ := List.exists_mem_ne_zero_of_sum_ne_zero hlive.ne'
    obtain ⟨e, he, rfl⟩ := List.mem_map.mp hm
    obtain ⟨job, hjob⟩ := exists_isOutstanding ((OrdMap.mem_entries_iff _ e.1 e.2).mp he) hne
    exact Or.inr ⟨e.1, job, hjob⟩
  · obtain ⟨m, hm, hne⟩ := List.exists_mem_ne_zero_of_sum_ne_zero hpos.ne'
    obtain ⟨child, hchild, rfl⟩ := List.mem_map.mp hm
    obtain ⟨k, hk⟩ := List.getElem?_of_mem hchild
    obtain ⟨ret, hret⟩ := exists_isAnswer hk (fun h => hne (congrArg List.length h)) hnonempty
    exact Or.inl ⟨k, ret, hret⟩

namespace Control

/-- A token that the limiter can hand out finds a place for its job. -/
theorem exists_token (peer : Peering) {n : Nat} {s : Control} (ha : s.Accounted n) (halive : s.KnownAlive) {job : Line}
    (hcall : s.call = .waiting job) (hlt : (s.cap.limiter.outstanding : Int) < s.cap.limiter.limit) :
    ∃ s', s.step peer .token = some s' := by
  obtain ⟨task, limiter, hlim⟩ : ∃ task limiter, s.cap.limiter.nextJob = some (task, limiter) := ⟨_, _, if_pos hlt⟩
  by_cases hspare : ∃ c remote, s.cap.connections.find? c = some remote ∧ remote.HasSpare
  · obtain ⟨_, _, s', -, -, hs', -⟩ := @token_of_spare peer s halive _ _ _ hcall hlim hspare
    exact ⟨s', hs'⟩
  · obtain ⟨_, _, -, -, -, -, -, hs'⟩ :=
      token_of_no_spare peer ha hcall hlim (fun c remote hc hroom => hspare ⟨c, remote, hc, hroom⟩)
    exact ⟨_, hs'⟩

/-- While `next_job` has a job or a token is alive, there is something to wait for. -/
theorem exists_productive (peer : Peering) {n : Nat} (hn : 0 < n) {s : Control} (ha : s.Accounted n) (halive : s.KnownAlive)
    (hnonempty : [] ∉ s.cap.inFlight) (hbusy : s.call ≠ .idle ∨ 0 < s.cap.limiter.outstanding) :
    (∃ e s', e.internal = true ∧ s.Productive e ∧ s.step peer e = some s') ∨ ∃ c job, s.cap.IsOutstanding c job := by
  have hchild : s.call.held = 0 → 0 < s.cap.limiter.outstanding →
      (∃ e s', e.internal = true ∧ s.Productive e ∧ s.step peer e = some s') ∨ ∃ c job, s.cap.IsOutstanding c job := by
    intro hheld hlive
    have hbooks := ha.books
    rw [hheld] at hbooks
    rcases Capacity.exists_busy hbooks hlive hnonempty with ⟨k, ret, hans⟩ | hout
    · exact Or.inl ⟨.stdout k ret, _, rfl, hans, rfl⟩
    · exact Or.inr hout
  cases hcall : s.call with
  | idle => exact hchild (by rw [hcall]; rfl) (hbusy.resolve_left (fun h => h hcall))
  | waiting job =>
    by_cases hlt : (s.cap.limiter.outstanding : Int) < s.cap.limiter.limit
    · obtain ⟨s', hs'⟩ := exists_token peer ha halive hcall hlt
      exact Or.inl ⟨.token, s', rfl, trivial, hs'⟩
    · refine hchild (by rw [hcall]; rfl) ?_
      have hlimit := ha.books.limit
      unfold bufferSize at hlimit
      omega
  | writing job task k =>
    refine Or.inl ⟨.written, { cap := s.cap.pushCommand k job task, call := .idle }, rfl, trivial, ?_⟩
    simp only [step, hcall]

/-- Without a token alive and outside `next_job`, the jobs in flight are those of the overspill. -/
theorem inFlight_eq_overspill {n : Nat} {s : Control} (ha : s.Accounted n) (hlive : s.cap.limiter.live = 0) (hcall : s.call = .idle) :
    s.inFlight = (s.cap.overspill : Multiset Line) := by
  have htokens := congrArg Multiset.card ha.books.tokens
  rw [hlive, Multiset.card_zero, Multiset.card_add] at htokens
  have hcard : Multiset.card (s.cap.weigh textOf) = Multiset.card (s.cap.weigh tokenOf) :=
    (s.cap.card_weigh (fun _ _ => rfl)).trans (s.cap.card_weigh (fun _ _ => rfl)).symm
  have hweigh : s.cap.weigh textOf = 0 := by
    rw [← Multiset.card_eq_zero]
    omega
  unfold inFlight Capacity.inFlight
  rw [hweigh, hcall, zero_add]
  exact add_zero _

/-- A client with a job in flight has something to wait for, and no connection to wait for. -/
theorem exists_productive_client {m : Nat} (hm : 0 < m) {c : ConnId} {s : Control} (ha : s.Accounted m) (hb : s.cap.Bare)
    (halive : s.cap.expired = []) (hnonempty : [] ∉ s.inFlight) (hflight : s.inFlight ≠ 0) :
    ∃ e s', e.ofClient = true ∧ s.Productive e ∧ s.step (.clientSide c) e = some s' := by
  by_cases hbusy : s.call ≠ .idle ∨ 0 < s.cap.limiter.outstanding
  · have hknown : s.KnownAlive := by
      intro d _
      rw [halive]
      exact List.not_mem_nil
    have hbooks : [] ∉ s.cap.inFlight := fun hin => hnonempty (Multiset.mem_add.mpr (Or.inl hin))
    rcases exists_productive (.clientSide c) hm ha hknown hbooks hbusy with ⟨e, s', he, hp, hs⟩ | ⟨d, job, remote, hd, hj⟩
    · refine ⟨e, s', ?_, hp, hs⟩
      cases e <;> first | exact he | cases he
    · -- a connection without capacity has no job
      have hsize := ha.books.bounded d remote hd
      rw [hb d remote hd] at hsize
      have hnil : remote.work.entries = [] := List.length_eq_zero_iff.mp (Nat.le_zero.mp hsize)
      simp [OrdMap.find?, hnil] at hj
  · rw [not_or, not_not, Nat.pos_iff_ne_zero, not_not] at hbusy
    obtain ⟨hcall, hlive⟩ := hbusy
    have hover := inFlight_eq_overspill ha (Multiset.card_eq_zero.mp hlive) hcall
    cases hlist : s.cap.overspill with
    | nil =>
      rw [hover, hlist] at hflight
      exact absurd rfl hflight
    | cons job rest =>
      refine ⟨.consume, { cap := { s.cap with overspill := rest }, call := .waiting job }, rfl, trivial, ?_⟩
      simp only [step, hcall, hlist]

end Control

/-! ## Packets -/

/-- A packet costs its way to the other end. -/
theorem Packet.remaining_pos (packet : Packet) : 0 < packet.remaining := by
  cases packet <;> exact Nat.succ_pos _

theorem Capacity.queued_of_eq {s s' : Capacity} {c : ConnId} (h : s'.queue c = s.queue c) : s'.queued c = s.queued c := by
  unfold queued
  rw [h]

/-- A packet that is queued costs one step more than in the socket. -/
theorem Capacity.queued_append {s s' : Capacity} {c : ConnId} {packet : Packet} (h : s'.queue c = s.queue c ++ [packet]) :
    s'.queued c = s.queued c + (packet.remaining + 1) := by
  unfold queued
  rw [h, List.map_append, List.sum_append]
  rfl

/-- A packet that `process_outbound` takes. -/
theorem Capacity.queued_consumePacket {s cap : Capacity} {c : ConnId} {packet : Packet} (h : s.queue c = packet :: cap.queue c) :
    s.queued c = cap.queued c + (packet.remaining + 1) := by
  unfold queued
  rw [h, List.map_cons, List.sum_cons, add_comm]

namespace Control

/-- An event queues no packet, or an `execute` packet for a connection with room, or on a client a `completed` packet. -/
theorem queue_of_step {peer : Peering} {s s' : Control} {e : Event} (hs : s.step peer e = some s') :
    s'.cap.queue = s.cap.queue ∨
      (∃ job d remote, e = .token ∧ s.call = .waiting job ∧ s.cap.spare = some (d, remote) ∧
        s'.cap.queue = Function.update s.cap.queue d (s.cap.queue d ++ [.execute job])) ∨
      (∃ d k ret, peer = .clientSide d ∧ e = .stdout k ret ∧
        s'.cap.queue = Function.update s.cap.queue d (s.cap.queue d ++ [.completed ret])) := by
  cases e with
  | nextJob job =>
    obtain ⟨-, rfl⟩ := step_nextJob hs
    exact Or.inl rfl
  | consume =>
    obtain ⟨_, _, _, _, rfl⟩ := step_consume hs
    exact Or.inl rfl
  | token =>
    obtain ⟨job, task, limiter, hcall, -, hplace⟩ := step_token hs
    rcases placeJob_cases hplace with ⟨d, remote, hsp, rfl⟩ | ⟨-, k, -, rfl⟩
    · exact Or.inr (Or.inl ⟨job, d, remote, rfl, hcall, hsp, rfl⟩)
    · exact Or.inl rfl
  | written =>
    obtain ⟨job, task, k, -, rfl⟩ := step_written hs
    refine Or.inl ?_
    unfold Capacity.pushCommand
    split <;> rfl
  | stdout k ret =>
    cases hs
    rcases Capacity.handleStdout_cases peer s.cap k ret with hsame | ⟨_, _, _, -, -, hdone⟩
    · exact Or.inl (by rw [hsame])
    · simp only [hdone]
      cases peer with
      | serverSide => exact Or.inl rfl
      | clientSide d => exact Or.inr (Or.inr ⟨d, k, ret, rfl, rfl, rfl⟩)
  | resend k =>
    cases hs
    refine Or.inl ?_
    unfold Capacity.resendJobs
    split
    · split <;> rfl
    · rfl
  | packet d packet =>
    rcases step_packet hs with ⟨cap, hd, rfl⟩ | ⟨-, rfl⟩
    · exact Or.inl (Capacity.queue_dispatch hd)
    · exact Or.inl rfl
  | overspillWork d =>
    cases hs
    exact Or.inl (Capacity.queue_overspillWork s.cap d)
  | _ =>
    cases hs
    exact Or.inl rfl

/-- What takes a job of the client forward leaves less to do, with the packet that reports it. -/
theorem remaining_reported_lt {m : Nat} {c : ConnId} {s s' : Control} (ha : s.Accounted m) (hb : s.cap.Bare) {e : Event}
    (he : s.Productive e) (hs : s.step (.clientSide c) e = some s') :
    s'.remaining 3 0 + s'.cap.queued c < s.remaining 3 0 + s.cap.queued c := by
  rcases queue_of_step hs with hqueue | ⟨_, _, _, -, -, hspare, -⟩ | ⟨d, k, ret, hpeer, rfl, hqueue⟩
  · rw [Capacity.queued_of_eq (congrFun hqueue c)]
    exact Nat.add_lt_add_right (remaining_lt (by decide) 0 ha he hs) _
  · rw [Capacity.spare_of_bare hb] at hspare
    cases hspare
  · cases hpeer
    have hdone := remaining_stdout 3 0 ha he hs
    rw [Capacity.queued_append ((congrFun hqueue c).trans (Function.update_self _ _ _))]
    simp only [Packet.remaining]
    omega

/-- A packet that brings no job in costs nothing more when the server has handled it. -/
theorem remaining_dispatch (d x : Nat) {s : Control} {cap : Capacity} {c : ConnId} {packet : Packet}
    (hd : s.cap.dispatch .serverSide c packet = .ok cap) (hjobs : packet.jobs = []) :
    ({ s with cap := cap } : Control).remaining d x ≤ s.remaining d x := by
  refine remaining_le d x ?_ rfl (Capacity.steady_dispatch hd).live
  cases packet with
  | version v capacity =>
    rcases Capacity.dispatch_version hd with rfl | ⟨_, hadd⟩
    · rfl
    · rw [(Capacity.additional_eq_ok hadd).2]
  | execute job => cases hjobs
  | completed job =>
    cases hd
    exact (s.cap.jobDoneFrom_keeps c job).2.1
  | logMessage message =>
    cases hd
    rfl

/-- A packet that the client has handled costs no more than it did in the socket. -/
theorem remaining_processInbound (s : Control) (c : ConnId) (packet : Packet) :
    ({ s with cap := s.cap.processInbound (.clientSide c) c packet } : Control).remaining 3 0 < s.remaining 3 0 + packet.remaining := by
  have hlive : (s.cap.processInbound (.clientSide c) c packet).limiter.live ≤ s.cap.limiter.live := by
    unfold Capacity.processInbound
    split
    · rename_i s' hd
      exact (Capacity.steady_dispatch hd).live
    · exact le_rfl
  have hmul := Nat.mul_le_mul_left 3 (Multiset.card_le_card hlive)
  obtain ⟨hover, -⟩ := s.cap.processInbound_client c packet
  have hcost : 6 * packet.jobs.length < packet.remaining := by
    cases packet <;> exact Nat.lt_of_succ_le (le_of_eq rfl)
  unfold remaining Limiter.outstanding
  simp only [hover, List.length_append]
  omega

end Control

end FostWright
