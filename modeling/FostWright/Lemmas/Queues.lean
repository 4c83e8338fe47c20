import FostWright.Accounting
import FostWright.ExecHelper

/-!
# The queues are only written

What a manager does never depends on what is in the outbound queues of its connections, so that it goes on in the same way however fast
`process_outbound` empties them (`step_withQueue`).
-/

namespace FostWright

open Lib

/-- The books with other queues. -/
def Capacity.withQueue (s : Capacity) (queue : ConnId → List Packet) : Capacity := { s with queue := queue }

/-- The process with other queues. -/
def Control.withQueue (s : Control) (queue : ConnId → List Packet) : Control := { s with cap := s.cap.withQueue queue }

namespace Capacity

theorem withQueue_jobDoneFrom (s : Capacity) (c : ConnId) (job : Line) (queue : ConnId → List Packet) :
    (s.withQueue queue).jobDoneFrom c job = (s.jobDoneFrom c job).withQueue queue := by
  unfold jobDoneFrom remoteAt withQueue
  simp only
  cases s.connections.find? c with
  | none => rfl
  | some remote =>
    simp only
    cases remote.work.find? job <;> rfl

theorem withQueue_overspillWork (s : Capacity) (c : ConnId) (queue : ConnId → List Packet) :
    (s.withQueue queue).overspillWork c = (s.overspillWork c).withQueue queue := by
  unfold overspillWork withQueue
  simp only
  cases s.connections.find? c <;> rfl

theorem withQueue_dispatch (s : Capacity) (c : ConnId) (packet : Packet) (queue : ConnId → List Packet) :
    (s.withQueue queue).dispatch .serverSide c packet = (s.dispatch .serverSide c packet).map (fun cap => cap.withQueue queue) := by
  cases packet with
  | version v capacity =>
    cases capacity with
    | none => rfl
    | some cap =>
      simp only [dispatch, inVersion, additional, withQueue]
      cases s.connections.find? c <;> rfl
  | execute job => rfl
  | completed job => exact congrArg Except.ok (s.withQueue_jobDoneFrom c job queue)
  | logMessage message => rfl

theorem withQueue_handleStdout (s : Capacity) (k : Nat) (ret : Line) (queue : ConnId → List Packet) :
    (s.withQueue queue).handleStdout .serverSide k ret = (s.handleStdout .serverSide k ret).withQueue queue := by
  unfold handleStdout withQueue
  simp only
  cases s.pool.children[k]? with
  | none => rfl
  | some child =>
    simp only
    cases child.handleStdout s.now ret <;> rfl

theorem withQueue_resendJobs (s : Capacity) (k : Nat) (queue : ConnId → List Packet) :
    (s.withQueue queue).resendJobs k = (s.resendJobs k).withQueue queue := by
  unfold resendJobs withQueue
  simp only
  cases s.pool.children[k]? with
  | none => rfl
  | some child =>
    simp only
    split <;> rfl

theorem withQueue_pushCommand (s : Capacity) (k : Nat) (job : Line) (task : Token) (queue : ConnId → List Packet) :
    (s.withQueue queue).pushCommand k job task = (s.pushCommand k job task).withQueue queue := by
  unfold pushCommand withQueue
  simp only
  cases s.pool.children[k]? <;> rfl

end Capacity

/-- The queues are only written: a process goes on in the same way whatever is in them. -/
theorem Control.step_withQueue {s s' : Control} {e : Event} (hs : s.step .serverSide e = some s') (queue : ConnId → List Packet) :
    ∃ queue', (s.withQueue queue).step .serverSide e = some (s'.withQueue queue') := by
  cases e with
  | nextJob job =>
    obtain ⟨hcall, rfl⟩ := step_nextJob hs
    refine ⟨queue, ?_⟩
    simp only [step, withQueue, hcall]
  | consume =>
    obtain ⟨job, rest, hcall, hover, rfl⟩ := step_consume hs
    refine ⟨queue, ?_⟩
    simp only [step, withQueue, Capacity.withQueue, hcall, hover]
  | token =>
    obtain ⟨job, task, limiter, hcall, hlim, hplace⟩ := step_token hs
    have hstep : (s.withQueue queue).step .serverSide .token = placeJob ((s.cap.accept limiter).withQueue queue) job task := by
      simp only [step, withQueue, Capacity.withQueue, hcall, hlim]
      rfl
    rw [hstep]
    rcases placeJob_cases hplace with ⟨c, remote, hsp, rfl⟩ | ⟨hsp, k, hk, rfl⟩
    · have hspare : ((s.cap.accept limiter).withQueue queue).spare = some (c, remote) := hsp
      refine ⟨Function.update queue c (queue c ++ [.execute job]), ?_⟩
      unfold placeJob
      rw [hspare]
      rfl
    · have hspare : ((s.cap.accept limiter).withQueue queue).spare = none := hsp
      have hnext : ((s.cap.accept limiter).withQueue queue).nextChild = some k := hk
      refine ⟨queue, ?_⟩
      unfold placeJob
      rw [hspare, hnext]
      rfl
  | written =>
    obtain ⟨job, task, k, hcall, rfl⟩ := step_written hs
    refine ⟨queue, ?_⟩
    simp only [step, withQueue, hcall, Capacity.withQueue_pushCommand]
  | stdout k ret =>
    cases hs
    refine ⟨queue, ?_⟩
    simp only [step, withQueue, Capacity.withQueue_handleStdout]
  | resend k =>
    cases hs
    refine ⟨queue, ?_⟩
    simp only [step, withQueue, Capacity.withQueue_resendJobs]
  | packet c packet =>
    refine ⟨queue, ?_⟩
    simp only [step] at hs ⊢
    have hd := s.cap.withQueue_dispatch c packet queue
    cases hdisp : s.cap.dispatch .serverSide c packet with
    | ok cap =>
      rw [hdisp] at hs hd
      cases hs
      simp only [withQueue, hd]
      rfl
    | error error =>
      rw [hdisp] at hs hd
      cases hs
      simp only [withQueue, hd]
      rfl
  | overspillWork c =>
    cases hs
    refine ⟨queue, ?_⟩
    simp only [step, withQueue, Capacity.withQueue_overspillWork]
  | expire c =>
    cases hs
    exact ⟨queue, rfl⟩
  | inputComplete =>
    cases hs
    exact ⟨queue, rfl⟩
  | tick d =>
    cases hs
    exact ⟨queue, rfl⟩

namespace ExecHelper

/-- The manager with other queues. -/
def withQueue (s : ExecHelper) (queue : ConnId → List Packet) : ExecHelper := { s with control := s.control.withQueue queue }

/-- The same for the manager. -/
theorem step_withQueue {s s' : ExecHelper} {a : Action} (hs : s.step a = some s') (queue : ConnId → List Packet) :
    ∃ queue', (s.withQueue queue).step a = some (s'.withQueue queue') := by
  cases steps_of_step hs with
  | consume hstage hc =>
    obtain ⟨queue', hc'⟩ := Control.step_withQueue hc queue
    refine ⟨queue', ?_⟩
    simp only [step, withQueue, hstage, hc', Option.map_some]
  | drained hstage hcall hempty =>
    refine ⟨queue, ?_⟩
    simp only [step, withQueue, Control.withQueue, Capacity.withQueue, hstage, hcall, hempty]
  | drainedLast hstage hcall hempty hc =>
    cases hc
    refine ⟨queue, ?_⟩
    simp only [step, withQueue, Control.withQueue, Capacity.withQueue, hstage, hcall, hempty, Control.step, Option.map_some]
  | line hstage hc =>
    obtain ⟨queue', hc'⟩ := Control.step_withQueue hc queue
    refine ⟨queue', ?_⟩
    simp only [step, withQueue, hstage, hc', Option.map_some]
  | eof hstage =>
    refine ⟨queue, ?_⟩
    simp only [step, withQueue, hstage]
  | allDone hstage hdone =>
    have hdone' : (s.withQueue queue).control.cap.limiter.outstanding = 0 := hdone
    refine ⟨queue, ?_⟩
    simp only [step, withQueue, hstage] at hdone' ⊢
    rw [if_pos hdone']
  | @inbound c packet cap halive hd =>
    have hd' := s.control.cap.withQueue_dispatch c packet queue
    rw [hd] at hd'
    refine ⟨queue, ?_⟩
    simp only [step, withQueue, Control.withQueue, if_neg halive, hd', Except.map]
  | @thrown c packet error halive hd =>
    have hd' := s.control.cap.withQueue_dispatch c packet queue
    rw [hd] at hd'
    refine ⟨queue, ?_⟩
    simp only [step, withQueue, Control.withQueue, if_neg halive, hd', Except.map, Capacity.redistribute,
      Capacity.withQueue_overspillWork]
  | @closed c halive =>
    refine ⟨queue, ?_⟩
    simp only [step, withQueue, Control.withQueue, if_neg halive, Capacity.redistribute, Capacity.withQueue_overspillWork]
  | @expire c control hdead hc =>
    obtain ⟨queue', hc'⟩ := Control.step_withQueue hc queue
    refine ⟨queue', ?_⟩
    simp only [step, withQueue, if_pos hdead, hc', Option.map_some]
  | @internal e control he hc =>
    obtain ⟨queue', hc'⟩ := Control.step_withQueue hc queue
    refine ⟨queue', ?_⟩
    simp only [step, withQueue, he, if_true, hc', Option.map_some]

end ExecHelper

end FostWright
