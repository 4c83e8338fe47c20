import FostWright.Lemmas.Registry

/-!
# What an event does to the pool

The queues of the children and `job_times` change in two events only: the end of the write of `next_job`, and a line of a child that
answers the front of its queue. The clock never goes back.
-/

namespace FostWright

open Lib

namespace Capacity

theorem now_pushCommand (s : Capacity) (k : Nat) (job : Line) (task : Token) : (s.pushCommand k job task).now = s.now := by
  unfold pushCommand
  split <;> rfl

theorem now_resendJobs (s : Capacity) (k : Nat) : (s.resendJobs k).now = s.now := by
  unfold resendJobs
  split
  · split <;> rfl
  · rfl

theorem now_overspillWork (s : Capacity) (c : ConnId) : (s.overspillWork c).now = s.now := by
  unfold overspillWork
  split <;> rfl

theorem now_jobDoneFrom (s : Capacity) (c : ConnId) (job : Line) : (s.jobDoneFrom c job).now = s.now := by
  rcases s.jobDoneFrom_cases c job with ⟨-, h⟩ | ⟨task, -, h⟩
  · rw [h, remoteAt_eq]
  · rw [h, remoteAt_eq]
    rfl

theorem now_dispatch {peer : Peering} {s s' : Capacity} {c : ConnId} {packet : Packet} (h : s.dispatch peer c packet = .ok s') :
    s'.now = s.now := by
  cases packet with
  | version v capacity =>
    rcases dispatch_version h with rfl | ⟨cap, ha⟩
    · rfl
    · rw [(additional_eq_ok ha).2]
  | execute job => exact Except.ok.inj h ▸ rfl
  | completed job => exact Except.ok.inj h ▸ now_jobDoneFrom s c job
  | logMessage m => exact Except.ok.inj h ▸ rfl

/-- A push on the queue of a child that exists. -/
theorem pool_pushCommand {s : Capacity} {k : Nat} {child : Childproc} (h : s.pool.children[k]? = some child) (job : Line)
    (task : Token) :
    (s.pushCommand k job task).pool =
      { s.pool with
        children := s.pool.children.set k
          { commands := child.commands.pushBack { command := job, limiter := task, time := s.now } } } := by
  simp only [pushCommand, h]

end Capacity

namespace Control

/-- What an event does to the pool and the clock, one case for each way in which the pool changes. -/
inductive PoolSteps (s s' : Control) : Event → Prop where
  | kept {e : Event} (other : e ≠ .written) (pool : s'.cap.pool = s.cap.pool) (clock : s.cap.now ≤ s'.cap.now) : PoolSteps s s' e
  | pushed {job : Line} {task : Token} {k : Nat} (call : s.call = .writing job task k)
      (after : s' = { cap := s.cap.pushCommand k job task, call := .idle }) : PoolSteps s s' .written
  | answered {k : Nat} {ret : Line} {child child' : Childproc} {job : Job} (found : s.cap.pool.children[k]? = some child)
      (handled : child.handleStdout s.cap.now ret = some (job, child'))
      (pool : s'.cap.pool =
        { children := s.cap.pool.children.set k child', jobTimes := s.cap.pool.jobTimes ++ [s.cap.now - job.time] })
      (clock : s'.cap.now = s.cap.now) : PoolSteps s s' (.stdout k ret)

theorem poolSteps_of_step {peer : Peering} {s s' : Control} {e : Event} (hs : s.step peer e = some s') : s.PoolSteps s' e := by
  cases e with
  | nextJob job =>
    obtain ⟨-, rfl⟩ := step_nextJob hs
    exact .kept nofun rfl le_rfl
  | consume =>
    obtain ⟨_, _, -, -, rfl⟩ := step_consume hs
    exact .kept nofun rfl le_rfl
  | token =>
    obtain ⟨job, task, limiter, -, -, hplace⟩ := step_token hs
    rcases placeJob_cases hplace with ⟨_, _, -, rfl⟩ | ⟨-, _, -, rfl⟩
    · exact .kept nofun rfl le_rfl
    · exact .kept nofun rfl le_rfl
  | written =>
    obtain ⟨job, task, k, hcall, hafter⟩ := step_written hs
    exact .pushed hcall hafter
  | stdout k ret =>
    cases hs
    rcases Capacity.handleStdout_cases peer s.cap k ret with hsame | ⟨child, job, child', hk, hc, hdone⟩
    · exact .kept nofun (congrArg Capacity.pool hsame) (congrArg Capacity.now hsame).ge
    · refine .answered hk hc ?_ ?_
      · rw [hdone, (Capacity.jobDoneCallback_keeps _ _ _).1]
      · rw [hdone]
        cases peer <;> rfl
  | resend k =>
    cases hs
    exact .kept nofun (pool_resendJobs s.cap k) (Capacity.now_resendJobs s.cap k).ge
  | packet c packet =>
    rcases step_packet hs with ⟨cap, hd, rfl⟩ | ⟨-, rfl⟩
    · exact .kept nofun (pool_dispatch hd) (Capacity.now_dispatch hd).ge
    · exact .kept nofun rfl le_rfl
  | overspillWork c =>
    cases hs
    exact .kept nofun (pool_overspillWork s.cap c) (Capacity.now_overspillWork s.cap c).ge
  | expire c =>
    cases hs
    exact .kept nofun rfl le_rfl
  | inputComplete =>
    cases hs
    exact .kept nofun rfl le_rfl
  | tick d =>
    cases hs
    exact .kept nofun rfl (Nat.le_add_right _ _)

/-- The clock never goes back. -/
theorem now_step {peer : Peering} {s s' : Control} {e : Event} (hs : s.step peer e = some s') : s.cap.now ≤ s'.cap.now := by
  cases poolSteps_of_step hs with
  | kept _ _ hclock => exact hclock
  | pushed _ hafter =>
    rw [hafter]
    exact (Capacity.now_pushCommand _ _ _ _).ge
  | answered _ _ _ hclock => exact hclock.ge

end Control

end FostWright
