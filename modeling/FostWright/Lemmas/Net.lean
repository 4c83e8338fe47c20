import FostWright.Net
import FostWright.Lemmas.InFlight
import FostWright.Lib.Mirror

/-!
# The two ends of a connection

What each end does to the jobs of one connection. An action of the server that is not about the connection leaves its registration
and its queue as they are, or enters a job in its work and queues the `execute` packet (`ExecHelper.step_frame`). What goes on in
the client moves its jobs about, or finishes one and queues the `completed` packet (`Control.step_client`).
-/

namespace FostWright

open Lib

/-! ## The work of a connection -/

namespace Remote

theorem mem_weigh_textOf (remote : Remote) (job : Line) :
    job ∈ remote.weigh textOf ↔ ∃ task, remote.work.find? job = some task := by
  rw [weigh_textOf, Multiset.mem_coe, OrdMap.mem_keys_iff]

/-- Entering a job in the work puts its text in the bag unless it is there. -/
theorem weigh_insert (remote : Remote) (job : Line) (task : Token) :
    ({ remote with work := remote.work.insert job task } : Remote).weigh textOf = (remote.weigh textOf).ndinsert job := by
  have hmem := remote.mem_weigh_textOf job
  have htotal := remote.work.total_insert textOf job task
  cases hf : remote.work.find? job with
  | none =>
    rw [hf] at hmem htotal
    rw [Multiset.ndinsert_of_notMem (by simp [hmem])]
    rw [Option.elim_none, add_zero] at htotal
    exact htotal.trans ((add_comm _ _).trans (Multiset.singleton_add job _))
  | some old =>
    rw [hf] at hmem htotal
    rw [Multiset.ndinsert_of_mem (hmem.mpr ⟨old, rfl⟩)]
    rw [Option.elim_some] at htotal
    exact add_right_cancel htotal

/-- Erasing a job from the work takes its text out of the bag. -/
theorem weigh_erase (remote : Remote) (job : Line) :
    ({ remote with work := remote.work.erase job } : Remote).weigh textOf = (remote.weigh textOf).erase job := by
  have hmem := remote.mem_weigh_textOf job
  have htotal := remote.work.total_erase textOf job
  cases hf : remote.work.find? job with
  | none =>
    rw [hf] at hmem htotal
    rw [Multiset.erase_of_notMem (by simp [hmem])]
    rwa [Option.elim_none, add_zero] at htotal
  | some task =>
    rw [hf] at htotal
    rw [Option.elim_some] at htotal
    unfold Remote.weigh
    rw [← htotal, add_comm, textOf, Multiset.singleton_add, Multiset.erase_cons_head]

end Remote

/-- The texts of the work outstanding for a connection. -/
def Capacity.outstanding (s : Capacity) (c : ConnId) : Multiset Line := (s.connections.find? c).elim 0 (Remote.weigh textOf)

/-- A packet brings no job back, or it is a `completed` packet. -/
theorem Packet.results_cases (packet : Packet) : packet.results = [] ∨ ∃ job, packet = .completed job := by
  cases packet with
  | completed job => exact Or.inr ⟨job, rfl⟩
  | _ => exact Or.inl rfl

/-! ## The server, seen from one connection -/

/-- The registration and the queue of `c` stay as they are, or a job is entered in its work and queued for it. -/
def Capacity.Frame (c : ConnId) (s s' : Capacity) : Prop :=
  (s'.connections.find? c = s.connections.find? c ∧ s'.queue c = s.queue c) ∨
    ∃ remote job task, s.connections.find? c = some remote ∧
      s'.connections.find? c = some { remote with work := remote.work.insert job task } ∧
      s'.queue c = s.queue c ++ [.execute job]

namespace Capacity

/-- A packet of another connection. -/
theorem frame_dispatch {s s' : Capacity} {c d : ConnId} {packet : Packet} (hd : d ≠ c)
    (h : s.dispatch .serverSide d packet = .ok s') : Frame c s s' := by
  refine Or.inl ?_
  cases packet with
  | version v capacity =>
    rcases dispatch_version h with rfl | ⟨cap, ha⟩
    · exact ⟨rfl, rfl⟩
    · rw [(additional_eq_ok ha).2]
      exact ⟨(OrdMap.find?_insert _ _ _ _).trans (if_neg hd.symm), rfl⟩
  | execute job =>
    cases h
    exact ⟨rfl, rfl⟩
  | completed job =>
    cases h
    have hr : (s.remoteAt d).1.connections.find? c = s.connections.find? c := by
      unfold remoteAt
      split
      · rfl
      · exact (OrdMap.find?_insert _ _ _ _).trans (if_neg hd.symm)
    refine ⟨?_, congrFun (s.jobDoneFrom_keeps d job).2.2 c⟩
    rcases s.jobDoneFrom_cases d job with ⟨-, hdone⟩ | ⟨task, -, hdone⟩
    · rw [hdone, hr]
    · rw [hdone, ← hr]
      exact (OrdMap.find?_insert _ _ _ _).trans (if_neg hd.symm)
  | logMessage m =>
    cases h
    exact ⟨rfl, rfl⟩

/-- `overspill_work` forgets its connection and no other. -/
theorem find?_overspillWork (s : Capacity) (c d : ConnId) :
    (s.overspillWork d).connections.find? c = if c = d then none else s.connections.find? c := by
  unfold overspillWork
  split
  · exact OrdMap.find?_erase _ _ _
  · rename_i hnone
    split
    · rename_i hcd
      rw [hcd, hnone]
    · rfl

theorem queue_overspillWork (s : Capacity) (d : ConnId) : (s.overspillWork d).queue = s.queue := by
  unfold overspillWork
  split <;> rfl

/-- A `completed` packet takes its job out of the work of its connection. -/
theorem outstanding_jobDoneFrom (s : Capacity) (c : ConnId) (job : Line) :
    (s.jobDoneFrom c job).outstanding c = (s.outstanding c).erase job := by
  have hf := find?_remoteAt s c
  have hr : (s.remoteAt c).1.outstanding c = s.outstanding c := by
    unfold remoteAt
    cases hc : s.connections.find? c with
    | some remote => rfl
    | none => simp [outstanding, hc, Remote.weigh]
  have hwork : s.outstanding c = (s.remoteAt c).2.weigh textOf := by
    rw [← hr, outstanding, hf, Option.elim_some]
  have hmem := (s.remoteAt c).2.mem_weigh_textOf job
  rcases s.jobDoneFrom_cases c job with ⟨hj, hdone⟩ | ⟨task, hj, hdone⟩
  · rw [hj] at hmem
    rw [hdone, hr, hwork, Multiset.erase_of_notMem (by simp [hmem])]
  · rw [hdone, outstanding, OrdMap.find?_insert_self, Option.elim_some, Remote.weigh_erase, hwork]

/-- No handler queues a packet. -/
theorem queue_dispatch {peer : Peering} {s s' : Capacity} {c : ConnId} {packet : Packet} (h : s.dispatch peer c packet = .ok s') :
    s'.queue = s.queue := by
  cases packet with
  | version v capacity =>
    rcases dispatch_version h with rfl | ⟨cap, ha⟩
    · rfl
    · rw [(additional_eq_ok ha).2]
  | execute job =>
    cases h
    rfl
  | completed job =>
    cases h
    exact (s.jobDoneFrom_keeps c job).2.2
  | logMessage m =>
    cases h
    rfl

/-- A packet that brings nothing back leaves the work of its connection as it is. -/
theorem outstanding_dispatch {s s' : Capacity} {c : ConnId} {packet : Packet}
    (h : s.dispatch .serverSide c packet = .ok s') (hnone : packet.results = []) : s'.outstanding c = s.outstanding c := by
  cases packet with
  | version v capacity =>
    rcases dispatch_version h with rfl | ⟨cap, ha⟩
    · rfl
    · obtain ⟨hf, rfl⟩ := additional_eq_ok ha
      simp [outstanding, hf, Remote.weigh]
  | execute job =>
    cases h
    rfl
  | completed job => cases hnone
  | logMessage m =>
    cases h
    rfl

end Capacity

/-- One event of the server that is not about `c`. -/
theorem Control.step_frame {s s' : Control} {e : Event} {c : ConnId} (he : e.about ≠ some c)
    (hs : s.step .serverSide e = some s') : Capacity.Frame c s.cap s'.cap := by
  cases e with
  | nextJob job =>
    obtain ⟨-, rfl⟩ := step_nextJob hs
    exact Or.inl ⟨rfl, rfl⟩
  | consume =>
    obtain ⟨_, _, _, _, rfl⟩ := step_consume hs
    exact Or.inl ⟨rfl, rfl⟩
  | token =>
    obtain ⟨job, task, limiter, -, -, hplace⟩ := step_token hs
    rcases placeJob_cases hplace with ⟨d, remote, hsp, rfl⟩ | ⟨-, k, -, rfl⟩
    · obtain ⟨hd, -, -⟩ := Capacity.spare_eq_some hsp
      by_cases hdc : d = c
      · subst hdc
        exact Or.inr ⟨remote, job, task, hd, OrdMap.find?_insert_self _ _ _, Function.update_self _ _ _⟩
      · refine Or.inl ⟨?_, Function.update_of_ne (Ne.symm hdc) _ _⟩
        exact (OrdMap.find?_insert _ _ _ _).trans (if_neg (Ne.symm hdc))
    · exact Or.inl ⟨rfl, rfl⟩
  | written =>
    obtain ⟨job, task, k, -, rfl⟩ := step_written hs
    unfold Capacity.pushCommand
    split <;> exact Or.inl ⟨rfl, rfl⟩
  | stdout k ret =>
    cases hs
    rcases Capacity.handleStdout_cases .serverSide s.cap k ret with hsame | ⟨_, _, _, -, -, hdone⟩
    · exact Or.inl ⟨by rw [hsame], by rw [hsame]⟩
    · exact Or.inl ⟨by rw [hdone]; rfl, by rw [hdone]; rfl⟩
  | resend k =>
    cases hs
    unfold Capacity.resendJobs
    split
    · split <;> exact Or.inl ⟨rfl, rfl⟩
    · exact Or.inl ⟨rfl, rfl⟩
  | packet d packet =>
    rcases step_packet hs with ⟨cap, hd, rfl⟩ | ⟨-, rfl⟩
    · exact Capacity.frame_dispatch (fun hdc => he (congrArg some hdc)) hd
    · exact Or.inl ⟨rfl, rfl⟩
  | overspillWork d =>
    cases hs
    have hdc : c ≠ d := fun hcd => he (congrArg some hcd.symm)
    refine Or.inl ⟨?_, congrFun (Capacity.queue_overspillWork s.cap d) c⟩
    rw [Capacity.find?_overspillWork, if_neg hdc]
  | expire d =>
    cases hs
    exact Or.inl ⟨rfl, rfl⟩
  | inputComplete =>
    cases hs
    exact Or.inl ⟨rfl, rfl⟩
  | tick d =>
    cases hs
    exact Or.inl ⟨rfl, rfl⟩

namespace ExecHelper

/-- One action of the server that is not about `c`. -/
theorem step_frame {s s' : ExecHelper} {a : Action} {c : ConnId} (ha : a.about ≠ some c) (hs : s.step a = some s') :
    Capacity.Frame c s.control.cap s'.control.cap := by
  rcases step_event hs with ⟨hc, -⟩ | ⟨e, hc, habout, -⟩
  · rw [hc]
    exact Or.inl ⟨rfl, rfl⟩
  · exact Control.step_frame (habout ▸ ha) hc

/-- An action that is not about `c` does not end it. -/
theorem ended_of_step {s s' : ExecHelper} {a : Action} {c : ConnId} (ha : a.about ≠ some c) (hs : s.step a = some s') :
    c ∈ s'.ended ↔ c ∈ s.ended := by
  have hne : ∀ d : ConnId, some d ≠ some c → (c ∈ d :: s.ended ↔ c ∈ s.ended) := by
    intro d hd
    rw [List.mem_cons, or_iff_right]
    intro hcd
    exact hd (congrArg some hcd.symm)
  cases steps_of_step hs with
  | @thrown d => exact hne d ha
  | @closed d => exact hne d ha
  | _ => exact Iff.rfl

/-- An action keeps the accounts. -/
theorem accounted_step {n : Nat} {s s' : ExecHelper} {a : Action} (h : s.control.Accounted n) (hs : s.step a = some s') :
    s'.control.Accounted n := by
  rcases step_event hs with ⟨hc, -⟩ | ⟨e, hc, -⟩
  · exact hc ▸ h
  · exact h.step hc

end ExecHelper

/-! ## The client -/

/-- No connection has any capacity: a client does not give its jobs on. -/
def Capacity.Bare (s : Capacity) : Prop := ∀ d remote, s.connections.find? d = some remote → remote.cap = 0

namespace Capacity

theorem spare_of_bare {s : Capacity} (h : s.Bare) : s.spare = none := by
  cases hsp : s.spare with
  | none => rfl
  | some e =>
    obtain ⟨d, remote⟩ := e
    obtain ⟨hd, -, hlt⟩ := spare_eq_some hsp
    rw [h d remote hd] at hlt
    exact absurd hlt (Nat.not_lt_zero _)

/-- A connection without capacity has no work. -/
theorem weighConnections_of_bare {n : Nat} {s : Capacity} {held : Multiset Token} (ha : s.Accounted n held) (h : s.Bare) :
    s.weighConnections textOf = 0 := by
  unfold weighConnections OrdMap.total
  refine List.sum_eq_zero ?_
  intro w hw
  obtain ⟨⟨d, remote⟩, hmem, rfl⟩ := List.mem_map.mp hw
  have hd := (OrdMap.mem_entries_iff _ _ _).mp hmem
  have hsize := ha.bounded d remote hd
  rw [h d remote hd] at hsize
  have hnil : remote.work.entries = [] := List.length_eq_zero_iff.mp (Nat.le_zero.mp hsize)
  simp [Remote.weigh, OrdMap.total, hnil]

/-- Without any capacity of a connection the limit is that of the children. -/
theorem limit_of_bare {m : Nat} {s : Capacity} {held : Multiset Token} (ha : s.Accounted m held) (h : s.Bare) :
    s.limiter.limit = (bufferSize * m : Nat) := by
  have hzero : s.totalCap = 0 := by
    refine List.sum_eq_zero ?_
    intro w hw
    obtain ⟨e, he, rfl⟩ := List.mem_map.mp hw
    exact h e.1 e.2 ((OrdMap.mem_entries_iff _ e.1 e.2).mp he)
  rw [ha.limit, hzero, Nat.add_zero]

/-- The handler of a packet at a client: the job of an `execute` goes to the overspill. -/
theorem processInbound_client (s : Capacity) (c : ConnId) (packet : Packet) :
    (s.processInbound (.clientSide c) c packet).overspill = s.overspill ++ packet.jobs ∧
      (s.processInbound (.clientSide c) c packet).pool = s.pool ∧
      (s.processInbound (.clientSide c) c packet).queue = s.queue := by
  cases packet with
  | version v capacity => cases capacity <;> exact ⟨(List.append_nil _).symm, rfl, rfl⟩
  | execute job => exact ⟨rfl, rfl, rfl⟩
  | completed job =>
    obtain ⟨hpool, hover, hqueue⟩ := s.jobDoneFrom_keeps c job
    exact ⟨hover.trans (List.append_nil _).symm, hpool, hqueue⟩
  | logMessage m => exact ⟨(List.append_nil _).symm, rfl, rfl⟩

/-- A packet leaves the connections that are gone as they are. -/
theorem expired_processInbound (s : Capacity) (c : ConnId) (packet : Packet) :
    (s.processInbound (.clientSide c) c packet).expired = s.expired := by
  unfold processInbound
  split
  · rename_i s' hd
    exact (steady_dispatch hd).expired
  · rfl

/-- A client registers nobody. -/
theorem bare_processInbound {s : Capacity} (h : s.Bare) (c : ConnId) (packet : Packet) :
    (s.processInbound (.clientSide c) c packet).Bare := by
  cases packet with
  | version v capacity => cases capacity <;> exact h
  | execute job => exact h
  | completed job =>
    change (s.jobDoneFrom c job).Bare
    have hr : (s.remoteAt c).1.Bare := by
      unfold remoteAt
      split
      · exact h
      · intro d remote hd
        simp only [OrdMap.find?_insert] at hd
        split at hd
        · cases hd
          rfl
        · exact h d remote hd
    have hcap := hr c _ (find?_remoteAt s c)
    rcases s.jobDoneFrom_cases c job with ⟨-, hdone⟩ | ⟨task, -, hdone⟩
    · rw [hdone]
      exact hr
    · rw [hdone]
      intro d remote hd
      simp only [OrdMap.find?_insert] at hd
      split at hd
      · cases hd
        exact hcap
      · exact hr d remote hd
  | logMessage m => exact h

end Capacity

namespace Control

/-- What is in flight in a client: the overspill, the job of `next_job` and the commands of the children. -/
theorem inFlight_of_bare {m : Nat} {s : Control} (ha : s.Accounted m) (h : s.cap.Bare) :
    s.inFlight = (s.cap.overspill : Multiset Line) + s.call.text + s.cap.weighChildren textOf := by
  unfold inFlight Capacity.inFlight Capacity.weigh
  rw [Capacity.weighConnections_of_bare ha.books h]
  abel

/-- What goes on in a client moves its jobs about, or finishes one and queues a `completed` packet for it. -/
theorem step_client {m : Nat} {s s' : Control} {e : Event} {c : ConnId} (ha : s.Accounted m) (hb : s.cap.Bare)
    (he : e.ofClient = true) (hs : s.step (.clientSide c) e = some s') :
    s'.cap.connections = s.cap.connections ∧
      ((s'.inFlight = s.inFlight ∧ s'.cap.queue c = s.cap.queue c) ∨
        ∃ ret, s'.inFlight + {ret} = s.inFlight ∧ s'.cap.queue c = s.cap.queue c ++ [.completed ret]) := by
  cases e with
  | consume =>
    have hflight := inFlight_consume hs
    obtain ⟨_, _, _, _, rfl⟩ := step_consume hs
    exact ⟨rfl, Or.inl ⟨hflight, rfl⟩⟩
  | token =>
    obtain ⟨job, task, limiter, hcall, -, hplace⟩ := step_token hs
    rcases placeJob_cases hplace with ⟨d, remote, hsp, -⟩ | ⟨-, k, -, rfl⟩
    · have hnone : s.cap.spare = none := Capacity.spare_of_bare hb
      have hsome : s.cap.spare = some (d, remote) := hsp
      rw [hnone] at hsome
      cases hsome
    · refine ⟨rfl, Or.inl ⟨?_, rfl⟩⟩
      unfold inFlight
      rw [hcall]
      rfl
  | written =>
    have hflight := inFlight_written ha hs
    obtain ⟨job, task, k, -, rfl⟩ := step_written hs
    have hrest : (s.cap.pushCommand k job task).connections = s.cap.connections ∧
        (s.cap.pushCommand k job task).queue = s.cap.queue := by
      unfold Capacity.pushCommand
      split <;> exact ⟨rfl, rfl⟩
    exact ⟨hrest.1, Or.inl ⟨hflight, congrFun hrest.2 c⟩⟩
  | stdout k ret =>
    cases hs
    have hconn : (s.cap.handleStdout (.clientSide c) k ret).connections = s.cap.connections := by
      rcases Capacity.handleStdout_cases (.clientSide c) s.cap k ret with hsame | ⟨_, _, _, -, -, hdone⟩
      · rw [hsame]
      · rw [hdone, (Capacity.jobDoneCallback_keeps _ _ _).2.2.1]
    refine ⟨hconn, ?_⟩
    rcases Capacity.inFlight_handleStdout (.clientSide c) s.cap k ret with h | ⟨hflight, -, hqueue⟩
    · refine Or.inl ⟨?_, ?_⟩
      · unfold inFlight
        rw [h]
      · rw [h]
    · refine Or.inr ⟨ret, ?_, ?_⟩
      · unfold inFlight
        rw [← hflight, add_right_comm]
      · rw [hqueue]
        exact Function.update_self _ _ _
  | resend k =>
    cases hs
    have hrest : (s.cap.resendJobs k).connections = s.cap.connections ∧ (s.cap.resendJobs k).queue = s.cap.queue := by
      unfold Capacity.resendJobs
      split
      · split <;> exact ⟨rfl, rfl⟩
      · exact ⟨rfl, rfl⟩
    refine ⟨hrest.1, Or.inl ⟨?_, congrFun hrest.2 c⟩⟩
    unfold inFlight
    rw [(Capacity.inFlight_resendJobs s.cap k).1]
  | tick d =>
    cases hs
    exact ⟨rfl, Or.inl ⟨rfl, rfl⟩⟩
  | _ => cases he

/-- What is internal to a process leaves the overspill as it is. -/
theorem overspill_internal {peer : Peering} {s s' : Control} {e : Event} (he : e.internal = true)
    (hs : s.step peer e = some s') : s'.cap.overspill = s.cap.overspill := by
  cases e with
  | token =>
    obtain ⟨job, task, limiter, -, -, hplace⟩ := step_token hs
    rcases placeJob_cases hplace with ⟨c, remote, -, rfl⟩ | ⟨-, k, -, rfl⟩ <;> rfl
  | written =>
    obtain ⟨job, task, k, -, rfl⟩ := step_written hs
    unfold Capacity.pushCommand
    split <;> rfl
  | stdout k ret =>
    cases hs
    rcases Capacity.handleStdout_cases peer s.cap k ret with hsame | ⟨_, _, _, -, -, hdone⟩
    · exact congrArg Capacity.overspill hsame
    · exact (congrArg Capacity.overspill hdone).trans (Capacity.jobDoneCallback_keeps _ _ _).2.1
  | resend k =>
    cases hs
    unfold Capacity.resendJobs
    split
    · split <;> rfl
    · rfl
  | tick d =>
    cases hs
    rfl
  | _ => cases he

/-- A packet keeps the accounts of the client. -/
theorem Accounted.processInbound {m : Nat} {s : Control} (ha : s.Accounted m) (c : ConnId) (packet : Packet) :
    ({ s with cap := s.cap.processInbound (.clientSide c) c packet } : Control).Accounted m := by
  have hstep : s.step (.clientSide c) (.packet c packet) =
      some { s with cap := s.cap.processInbound (.clientSide c) c packet } := by
    simp only [Control.step, Capacity.processInbound]
    cases s.cap.dispatch (.clientSide c) c packet <;> rfl
  exact ha.step hstep

/-- The outbound queues are not part of the accounts. -/
theorem Accounted.queue {n : Nat} {s : Control} (ha : s.Accounted n) (queue : ConnId → List Packet) :
    ({ s with cap := { s.cap with queue := queue } } : Control).Accounted n :=
  ⟨⟨ha.books.tokens, ha.books.limit, ha.books.children, ha.books.bounded⟩, ha.room⟩

end Control

end FostWright
