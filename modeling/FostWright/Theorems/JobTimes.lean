import FostWright.JobTimes
import FostWright.Lemmas.Pool

/-!
# Recorded job times do not overlap

The queue of a child with its timers is a server with stopwatches: a push is an arrival (`Kept.push`), a completion a departure
(`Kept.complete`), and nothing else changes it. So what the timers show is the time the server takes for each job.
-/

namespace FostWright

open Lib

namespace ChildPool

theorem queueOf_eq {pool : ChildPool} {k : Nat} {child : Childproc} (h : pool.children[k]? = some child) :
    pool.queueOf k = child.commands.elems := by
  unfold queueOf
  rw [h]
  rfl

/-- A child gets another queue, and all others keep theirs. -/
theorem queueOf_set {pool pool' : ChildPool} {j : Nat} {child child' : Childproc} (hj : pool.children[j]? = some child)
    (h : pool'.children = pool.children.set j child') (k : Nat) :
    pool'.queueOf k = if j = k then child'.commands.elems else pool.queueOf k := by
  unfold queueOf
  rw [h]
  by_cases hjk : j = k
  · rw [if_pos hjk, ← hjk, List.getElem?_set_self (List.getElem?_eq_some_iff.mp hj).1]
    rfl
  · rw [if_neg hjk, List.getElem?_set_ne hjk]

end ChildPool

namespace Control

/-- An event that leaves the pool as it is completes nothing. -/
theorem completions_of_kept {s s' : Control} (h : s'.cap.pool = s.cap.pool) (e : Event) : s.completions s' e = [] := by
  unfold completions
  rw [h, List.drop_length]
  split
  · split <;> rfl
  · rfl

/-- A child that answers the front of its queue completes that job. -/
theorem completions_of_answered {s s' : Control} {k : Nat} {ret : Line} {child child' : Childproc} {job : Job}
    (hfound : s.cap.pool.children[k]? = some child) (hhandled : child.handleStdout s.cap.now ret = some (job, child'))
    (htimes : s'.cap.pool.jobTimes = s.cap.pool.jobTimes ++ [s.cap.now - job.time]) :
    s.completions s' (.stdout k ret) = [{ child := k, task := job.limiter, time := s.cap.now, recorded := s.cap.now - job.time }] := by
  have hfront : child.commands.front? = some job := by
    unfold CircularBuffer.front?
    rw [(Childproc.handleStdout_eq_some hhandled).2.2.1]
    rfl
  simp [completions, hfound, hfront, htimes]

theorem pushBacks_of_ne {s : Control} {e : Event} (h : e ≠ .written) : s.pushBacks e = [] := by
  cases e with
  | written => exact absurd rfl h
  | _ => rfl

/-- What an event records is new in `job_times`. -/
theorem jobTimes_step {peer : Peering} {s s' : Control} {e : Event} (hs : s.step peer e = some s') :
    s'.cap.pool.jobTimes = s.cap.pool.jobTimes ++ (s.completions s' e).map Completion.recorded := by
  cases poolSteps_of_step hs with
  | kept _ hpool _ => rw [completions_of_kept hpool, hpool, List.map_nil, List.append_nil]
  | pushed _ hafter =>
    rw [hafter]
    unfold Capacity.pushCommand
    split <;> simp [completions]
  | answered hfound hhandled hpool _ =>
    have htimes := congrArg ChildPool.jobTimes hpool
    rw [completions_of_answered hfound hhandled htimes, htimes]
    rfl

end Control

namespace JobTimes

/-- Child `k` as a server: the jobs that were pushed are the visitors, and their timers the stopwatches. -/
def server (s : JobTimes) (k : Nat) : Server Nat where
  arrivals := (s.pushesOf k).map Push.time
  departures := (s.completionsOf k).map Completion.time
  watches := (s.control.cap.pool.queueOf k).map Job.time
  recorded := (s.completionsOf k).map Completion.recorded

/-- The jobs pushed on the queue of child `k` are those completed and those in the queue, and its timers are right. -/
structure Kept (s : JobTimes) (k : Nat) : Prop where
  tasks : (s.pushesOf k).map Push.task = (s.completionsOf k).map Completion.task ++ (s.control.cap.pool.queueOf k).map Job.limiter
  timely : (s.server k).Timely s.control.cap.now

/-- A step in which nothing happens to child `k`. -/
theorem Kept.of_eq {s s' : JobTimes} {k : Nat} (h : s.Kept k) (hpushes : s'.pushesOf k = s.pushesOf k)
    (hcompletions : s'.completionsOf k = s.completionsOf k) (hqueue : s'.control.cap.pool.queueOf k = s.control.cap.pool.queueOf k)
    (hclock : s.control.cap.now ≤ s'.control.cap.now) : s'.Kept k := by
  have hserver : s'.server k = s.server k := by
    unfold server
    rw [hpushes, hcompletions, hqueue]
  refine ⟨?_, ?_⟩
  · rw [hpushes, hcompletions, hqueue]
    exact h.tasks
  · rw [hserver]
    exact h.timely.later hclock

/-- A job is pushed on the queue of child `k`. -/
theorem Kept.push {s s' : JobTimes} {k : Nat} (h : s.Kept k) (job : Job) (htime : job.time = s.control.cap.now)
    (hpushes : s'.pushesOf k = s.pushesOf k ++ [{ child := k, task := job.limiter, time := s.control.cap.now }])
    (hcompletions : s'.completionsOf k = s.completionsOf k)
    (hqueue : s'.control.cap.pool.queueOf k = s.control.cap.pool.queueOf k ++ [job])
    (hclock : s.control.cap.now ≤ s'.control.cap.now) : s'.Kept k := by
  have hserver : s'.server k = (s.server k).arrive s.control.cap.now := by
    unfold server Server.arrive
    rw [hpushes, hcompletions, hqueue]
    simp [htime]
  refine ⟨?_, ?_⟩
  · rw [hpushes, hcompletions, hqueue, List.map_append, h.tasks, List.map_append, List.append_assoc]
    rfl
  · rw [hserver]
    exact h.timely.arrive.later hclock

/-- The front of the queue of child `k` is completed. -/
theorem Kept.complete {s s' : JobTimes} {k : Nat} (h : s.Kept k) {job : Job} {rest : List Job}
    (hfront : s.control.cap.pool.queueOf k = job :: rest) (hpushes : s'.pushesOf k = s.pushesOf k)
    (hcompletions : s'.completionsOf k = s.completionsOf k ++
      [{ child := k, task := job.limiter, time := s.control.cap.now, recorded := s.control.cap.now - job.time }])
    (hqueue : s'.control.cap.pool.queueOf k = rest.modifyHead (fun job => { job with time := s.control.cap.now }))
    (hclock : s.control.cap.now ≤ s'.control.cap.now) : s'.Kept k := by
  have hserver : s'.server k = (s.server k).depart s.control.cap.now := by
    unfold server Server.depart
    rw [hpushes, hcompletions, hqueue, hfront]
    cases rest <;> simp
  refine ⟨?_, ?_⟩
  · rw [hpushes, hcompletions, hqueue, map_modifyHead_time _ (fun _ _ => rfl), h.tasks, hfront, List.map_append, List.append_assoc]
    rfl
  · rw [hserver]
    exact h.timely.depart.later hclock

/-- One event keeps the timers of every child right. -/
theorem Kept.step {peer : Peering} {n : Nat} {s s' : JobTimes} {e : Event} (ha : s.control.Accounted n) {k : Nat} (h : s.Kept k)
    (hs : s.step peer e = some s') : s'.Kept k := by
  obtain ⟨control, hcontrol, rfl⟩ := Option.map_eq_some_iff.mp hs
  have hclock := Control.now_step hcontrol
  cases Control.poolSteps_of_step hcontrol with
  | kept hother hpool _ =>
    rw [Control.pushBacks_of_ne hother, Control.completions_of_kept hpool, List.append_nil, List.append_nil]
    exact h.of_eq rfl rfl (congrArg (fun pool => pool.queueOf k) hpool) hclock
  | @pushed job task j hcall hafter =>
    obtain ⟨child, hj, hroom⟩ := ha.room job task j hcall
    have hpool := (congrArg (fun control => control.cap.pool.children) hafter).trans
      (congrArg ChildPool.children (Capacity.pool_pushCommand hj job task))
    have hqueue := ChildPool.queueOf_set hj hpool k
    by_cases hjk : j = k
    · subst hjk
      refine h.push { command := job, limiter := task, time := s.control.cap.now } rfl ?_ ?_ ?_ hclock
      · simp [pushesOf, Control.pushBacks, hcall]
      · simp [completionsOf, Control.completions]
      · refine hqueue.trans ?_
        rw [if_pos rfl, ChildPool.queueOf_eq hj, CircularBuffer.elems_pushBack_of_not_full hroom]
    · refine h.of_eq ?_ ?_ (hqueue.trans (if_neg hjk)) hclock
      · simp [pushesOf, Control.pushBacks, hcall, hjk]
      · simp [completionsOf, Control.completions]
  | @answered j ret child child' job hfound hhandled hpool _ =>
    obtain ⟨-, -, hfront, hrest⟩ := Childproc.handleStdout_eq_some hhandled
    have hqueue := ChildPool.queueOf_set hfound (congrArg ChildPool.children hpool) k
    have hnew := Control.completions_of_answered hfound hhandled (congrArg ChildPool.jobTimes hpool)
    by_cases hjk : j = k
    · subst hjk
      refine h.complete ((ChildPool.queueOf_eq hfound).trans hfront) ?_ ?_ ?_ hclock
      · simp [pushesOf, Control.pushBacks]
      · simp [completionsOf, hnew]
      · refine hqueue.trans ?_
        rw [if_pos rfl, hrest]
    · refine h.of_eq ?_ ?_ (hqueue.trans (if_neg hjk)) hclock
      · simp [pushesOf, Control.pushBacks]
      · simp [completionsOf, hnew, hjk]

theorem accounted_of_reachable {peer : Peering} {n : Nat} {s : JobTimes} (h : (system peer n).Reachable s) :
    s.control.Accounted n := by
  refine h.invariant (I := fun s => s.control.Accounted n) (Control.accounted_of_reachable peer .refl) ?_
  intro s e s' ha _ hs
  obtain ⟨control, hcontrol, rfl⟩ := Option.map_eq_some_iff.mp hs
  exact ha.step hcontrol

theorem kept_of_reachable {peer : Peering} {n : Nat} {s : JobTimes} (h : (system peer n).Reachable s) (k : Nat) : s.Kept k := by
  refine h.invariant₂ (J := fun s => s.control.Accounted n) (I := fun s => s.Kept k) (fun _ hu => accounted_of_reachable hu) ?_
    (fun _ _ _ ha hi _ hs => hi.step ha hs)
  have hqueue : (system peer n).init.control.cap.pool.queueOf k = [] := by
    unfold ChildPool.queueOf
    cases hk : (system peer n).init.control.cap.pool.children[k]? with
    | none => rfl
    | some child =>
      rw [List.eq_of_mem_replicate (List.mem_of_getElem? hk)]
      rfl
  refine ⟨?_, ⟨[], [], rfl, rfl, ?_⟩, ?_, rfl, ?_, ?_⟩
  · rw [hqueue]
    rfl
  · unfold server
    rw [hqueue]
    rfl
  · exact fun p hp => nomatch hp
  · exact fun t ht => nomatch ht
  · exact fun t ht => nomatch ht

/-- In every run, with a clock that never goes back: `job_times` holds what the completions recorded; and for every child the jobs pushed
on its queue are in their order those completed and those in the queue, each completed one recorded the length of its interval, from the
later of its push and the completion before it up to its own, these intervals are disjoint, and their sum is no more than the time since
the first push. -/
theorem job_times_disjoint (peer : Peering) (n : Nat) (s : JobTimes) (h : (system peer n).Reachable s) :
    s.control.cap.pool.jobTimes = s.completions.map Completion.recorded ∧
      ∀ k,
        (s.pushesOf k).map Push.task = (s.completionsOf k).map Completion.task ++ (s.control.cap.pool.queueOf k).map Job.limiter ∧
        (s.completionsOf k).map Completion.recorded = (s.intervals k).map lasted ∧
        (∀ p ∈ s.intervals k, p.1 ≤ p.2) ∧
        (s.intervals k).Pairwise (fun p q => Disjoint (Set.Ico p.1 p.2) (Set.Ico q.1 q.2)) ∧
        ∀ first, (s.pushesOf k).head? = some first →
          ((s.completionsOf k).map Completion.recorded).sum ≤ s.control.cap.now - first.time := by
  refine ⟨?_, ?_⟩
  · refine h.invariant (I := fun s => s.control.cap.pool.jobTimes = s.completions.map Completion.recorded) rfl ?_
    intro s e s' hi _ hs
    obtain ⟨control, hcontrol, rfl⟩ := Option.map_eq_some_iff.mp hs
    rw [Control.jobTimes_step hcontrol, hi, List.map_append]
  · intro k
    obtain ⟨htasks, htimely⟩ := kept_of_reachable h k
    refine ⟨htasks, htimely.recorded, htimely.orderly, pairwise_disjoint_service htimely.orderly, ?_⟩
    intro first hfirst
    refine htimely.sum_recorded_le ?_
    unfold server
    rw [List.head?_map, hfirst]
    rfl

/-- Two jobs of one child, of which the second waits behind the first, and a third that comes to the empty queue. -/
theorem job_times_disjoint_run : ∃ s, (system .serverSide 1).Reachable s ∧ s.control.cap.pool.jobTimes = [3, 2, 1] ∧
    s.intervals 0 = [(1, 4), (4, 6), (7, 8)] ∧
    (s.intervals 0).Pairwise (fun p q => Disjoint (Set.Ico p.1 p.2) (Set.Ico q.1 q.2)) := by
  obtain ⟨s, hs, hp⟩ := System.reachable_of_run (S := system .serverSide 1)
    [.nextJob [97], .token, .tick 1, .written, .nextJob [98], .token, .tick 1, .written, .tick 2, .resend 0, .stdout 0 [97], .tick 2,
      .stdout 0 [99], .stdout 0 [98], .nextJob [99], .token, .tick 1, .written, .tick 1, .stdout 0 [99]]
    (fun s => s.control.cap.pool.jobTimes == [3, 2, 1] && s.intervals 0 == [(1, 4), (4, 6), (7, 8)]) (by decide)
  rw [Bool.and_eq_true, beq_iff_eq, beq_iff_eq] at hp
  obtain ⟨-, -, -, hdisjoint, -⟩ := (job_times_disjoint .serverSide 1 s hs).2 0
  exact ⟨s, hs, hp.1, hp.2, hdisjoint⟩

end JobTimes

end FostWright
