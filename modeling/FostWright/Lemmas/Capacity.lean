import FostWright.Capacity
import Mathlib.Algebra.Order.Group.Multiset

/-!
# What each operation does to the books

`weigh w` sums a weight over every job that a token keeps outstanding: the commands of the children and the work of the
connections. Each operation has one lemma on it, for every weight at once; the number of jobs, the number of copies of one text
and the bag of tokens are instances. Where an operation destroys tokens, the lemma names what it destroyed.
-/

namespace FostWright

open Lib

variable {M : Type*} [AddCancelCommMonoid M]

/-! ## Weights -/

/-- The weight of the commands of a child. -/
def Childproc.weigh (w : Line → Token → M) (child : Childproc) : M :=
  (child.commands.elems.map (fun job => w job.command job.limiter)).sum

/-- The weight of the work of a connection. -/
def Remote.weigh (w : Line → Token → M) (remote : Remote) : M := remote.work.total w

/-- The weight of the commands of all children. -/
def Capacity.weighChildren (s : Capacity) (w : Line → Token → M) : M :=
  (s.pool.children.map (Childproc.weigh w)).sum

/-- The weight of the work of all connections. -/
def Capacity.weighConnections (s : Capacity) (w : Line → Token → M) : M :=
  s.connections.total (fun _ remote => remote.weigh w)

/-- The weight of all jobs that are with a child or a connection. -/
def Capacity.weigh (s : Capacity) (w : Line → Token → M) : M := s.weighChildren w + s.weighConnections w

/-- The weight of the job that `next_job` holds a token for. -/
def NextJob.weigh (w : Line → Token → M) : NextJob → M
  | .writing job task _ => w job task
  | _ => 0

/-- The sum of the capacities of the connections. -/
def Capacity.totalCap (s : Capacity) : Nat := s.connections.total (fun _ remote => remote.cap)

/-- The weight of one element of a list is exchanged by a `set` there. -/
theorem sum_map_set {α : Type*} (f : α → M) {l : List α} {k : Nat} {x : α} (h : l[k]? = some x) (y : α) :
    ((l.set k y).map f).sum + f x = (l.map f).sum + f y := by
  induction l generalizing k with
  | nil => cases h
  | cons a l ih =>
    cases k with
    | zero =>
      simp only [List.getElem?_cons_zero, Option.some.injEq] at h
      subst h
      simp only [List.set_cons_zero, List.map_cons, List.sum_cons]
      abel
    | succ k =>
      simp only [List.getElem?_cons_succ] at h
      simp only [List.set_cons_succ, List.map_cons, List.sum_cons, add_assoc, ih h]

/-- A sum of bags of one element each is the bag of the elements. -/
theorem sum_map_singleton {α β : Type*} (f : α → β) (l : List α) :
    (l.map (fun a => ({f a} : Multiset β))).sum = (l.map f : Multiset β) := by
  induction l with
  | nil => rfl
  | cons a l ih => rw [List.map_cons, List.sum_cons, ih, List.map_cons, ← Multiset.cons_coe, Multiset.singleton_add]

/-! ## The limiter -/

namespace Limiter

/-- Releasing a token that is alive leaves the others alive. -/
theorem live_release {l : Limiter} {t : Token} {rest : Multiset Token} (h : l.live = rest + {t}) : (l.release t).live = rest := by
  rw [release, h, add_comm, Multiset.singleton_add, Multiset.erase_cons_head]

/-- Releasing tokens that are alive leaves the others alive. -/
theorem live_releaseAll {l : Limiter} {ts : List Token} {rest : Multiset Token} (h : l.live = rest + (ts : Multiset Token)) :
    (l.releaseAll ts).live = rest := by
  induction ts generalizing l with
  | nil => simpa [releaseAll] using h
  | cons t ts ih =>
    have hl : l.live = rest + (ts : Multiset Token) + {t} := by
      rw [h, ← Multiset.cons_coe, ← Multiset.singleton_add, add_assoc, add_comm (ts : Multiset Token)]
    exact ih (live_release hl)

@[simp] theorem limit_release (l : Limiter) (t : Token) : (l.release t).limit = l.limit := rfl

@[simp] theorem limit_releaseAll (l : Limiter) (ts : List Token) : (l.releaseAll ts).limit = l.limit := by
  induction ts generalizing l with
  | nil => rfl
  | cons t ts ih => exact (ih (l.release t)).trans (limit_release l t)

@[simp] theorem issued_releaseAll (l : Limiter) (ts : List Token) : (l.releaseAll ts).issued = l.issued := by
  induction ts generalizing l with
  | nil => rfl
  | cons t ts ih => exact ih (l.release t)

/-- Destroying tokens makes none. -/
theorem live_releaseAll_le (l : Limiter) (ts : List Token) : (l.releaseAll ts).live ≤ l.live := by
  induction ts generalizing l with
  | nil => exact le_rfl
  | cons t ts ih => exact (ih (l.release t)).trans (Multiset.erase_le t l.live)

/-- The limiter hands out a token only while fewer than its limit are alive, and the token is then alive. -/
theorem nextJob_eq_some {l l' : Limiter} {t : Token} (h : l.nextJob = some (t, l')) :
    (l.outstanding : Int) < l.limit ∧ l'.limit = l.limit ∧ l'.live = t ::ₘ l.live := by
  unfold nextJob at h
  split at h
  · rename_i hlt
    simp only [Option.some.injEq, Prod.mk.injEq] at h
    obtain ⟨rfl, rfl⟩ := h
    exact ⟨hlt, rfl, rfl⟩
  · cases h

end Limiter

/-! ## One child -/

/-- A line that is handled is the text of the front of the queue, which is popped; it is not empty. -/
theorem Childproc.handleStdout_eq_some {child child' : Childproc} {now : Nat} {ret : Line} {job : Job}
    (h : child.handleStdout now ret = some (job, child')) :
    ret ≠ [] ∧ ret = job.command ∧ child.commands.elems = job :: child.commands.elems.tail ∧
      child'.commands.elems = child.commands.elems.tail.modifyHead (fun job => { job with time := now }) := by
  unfold handleStdout at h
  cases hf : child.commands.front? with
  | none => simp [hf] at h
  | some front =>
    simp only [hf, Option.ite_none_right_eq_some, Option.some.injEq, Prod.mk.injEq] at h
    obtain ⟨⟨hne, heq⟩, rfl, rfl⟩ := h
    refine ⟨hne, heq, ?_, rfl⟩
    unfold CircularBuffer.front? at hf
    exact List.eq_cons_of_mem_head? hf

/-- Changing the time of the front of a list of jobs changes no weight. -/
theorem map_modifyHead_time {β : Type*} (f : Job → β) (hf : ∀ job t, f { job with time := t } = f job) (l : List Job) (now : Nat) :
    (l.modifyHead (fun job => { job with time := now })).map f = l.map f := by
  cases l with
  | nil => rfl
  | cons a l => simp [hf]

/-- A child that answers its front loses the weight of that job. -/
theorem Childproc.weigh_handleStdout {child child' : Childproc} {now : Nat} {ret : Line} {job : Job}
    (h : child.handleStdout now ret = some (job, child')) (w : Line → Token → M) :
    child'.weigh w + w job.command job.limiter = child.weigh w := by
  obtain ⟨-, -, he, he'⟩ := handleStdout_eq_some h
  unfold weigh
  rw [he', map_modifyHead_time _ (fun _ _ => rfl)]
  conv_rhs => rw [he]
  rw [List.map_cons, List.sum_cons, add_comm]

namespace Capacity

/-! ## `next_job` -/

/-- A connection with spare capacity is registered, alive, and has fewer jobs than its capacity. -/
theorem spare_eq_some {s : Capacity} {c : ConnId} {remote : Remote} (h : s.spare = some (c, remote)) :
    s.connections.find? c = some remote ∧ c ∉ s.expired ∧ remote.work.size < remote.cap := by
  unfold spare at h
  have hmem := List.mem_of_find?_eq_some h
  have hp := List.find?_some h
  simp only [Bool.and_eq_true, decide_eq_true_eq] at hp
  exact ⟨(OrdMap.mem_entries_iff _ _ _).mp hmem, hp.1, hp.2⟩

/-- The loop over the children ends on a child whose queue is not full. -/
theorem rotate_eq_some {children : List Childproc} {index fuel k : Nat} (h : rotate children index fuel = some k) :
    ∃ child, children[k]? = some child ∧ child.commands.full = false := by
  induction fuel generalizing index with
  | zero => cases h
  | succ fuel ih =>
    simp only [rotate] at h
    split at h
    · rename_i child hc
      split at h
      · exact ih h
      · rename_i hfull
        simp only [Option.some.injEq] at h
        exact ⟨child, h ▸ hc, by simpa using hfull⟩
    · cases h

/-- Giving a job to a connection adds it, and destroys the token that was there under the same text. -/
theorem weigh_giveRemote {s : Capacity} {c : ConnId} {remote : Remote} (h : s.connections.find? c = some remote)
    (job : Line) (task : Token) (w : Line → Token → M) :
    (s.giveRemote c remote job task).weigh w + (remote.work.find? job).elim 0 (w job) = s.weigh w + w job task := by
  have h1 := s.connections.total_insert (fun _ r => r.weigh w) c { remote with work := remote.work.insert job task }
  have h2 := remote.work.total_insert w job task
  simp only [h, Option.elim_some, Remote.weigh] at h1
  unfold weigh weighConnections
  change s.weighChildren w + _ + _ = s.weighChildren w + _ + _
  refine add_right_cancel (b := remote.work.total w) ?_
  calc
    _ = s.weighChildren w + ((s.connections.insert c { remote with work := remote.work.insert job task }).total
          (fun _ r => r.work.total w) + remote.work.total w) + (remote.work.find? job).elim 0 (w job) := by
      simp only [giveRemote, produce, Remote.weigh]
      abel
    _ = s.weighChildren w + s.connections.total (fun _ r => r.work.total w) +
          ((remote.work.insert job task).total w + (remote.work.find? job).elim 0 (w job)) := by
      rw [h1]
      abel
    _ = _ := by
      rw [h2]
      simp only [Remote.weigh]
      abel

/-- The end of `next_job` on a child adds the job to its commands, and destroys what the push overwrites. -/
theorem weigh_pushCommand {s : Capacity} {k : Nat} {child : Childproc} (h : s.pool.children[k]? = some child) (job : Line)
    (task : Token) (w : Line → Token → M) :
    (s.pushCommand k job task).weigh w +
        ((child.commands.overwritten ⟨job, task, s.now⟩).map (fun j => w j.command j.limiter)).sum =
      s.weigh w + w job task := by
  have h1 := sum_map_set (Childproc.weigh w) h { commands := child.commands.pushBack ⟨job, task, s.now⟩ }
  have h2 := child.commands.sum_pushBack ⟨job, task, s.now⟩ (fun j => w j.command j.limiter)
  unfold weigh
  have hc : (s.pushCommand k job task).weighConnections w = s.weighConnections w := by
    simp only [pushCommand, h]
    rfl
  have hk : (s.pushCommand k job task).weighChildren w =
      ((s.pool.children.set k { commands := child.commands.pushBack ⟨job, task, s.now⟩ }).map (Childproc.weigh w)).sum := by
    simp only [pushCommand, h]
    rfl
  rw [hc, hk]
  refine add_right_cancel (b := child.weigh w) ?_
  calc
    _ = (((s.pool.children.set k { commands := child.commands.pushBack ⟨job, task, s.now⟩ }).map
          (Childproc.weigh w)).sum + child.weigh w) + s.weighConnections w +
          ((child.commands.overwritten ⟨job, task, s.now⟩).map (fun j => w j.command j.limiter)).sum := by abel
    _ = s.weighChildren w + s.weighConnections w +
          (((child.commands.overwritten ⟨job, task, s.now⟩).map (fun j => w j.command j.limiter)).sum +
            ((child.commands.pushBack ⟨job, task, s.now⟩).elems.map (fun j => w j.command j.limiter)).sum) := by
      rw [h1]
      unfold weighChildren
      simp only [Childproc.weigh]
      abel
    _ = _ := by
      rw [h2]
      simp only [Childproc.weigh]
      abel

/-! ## Completions -/

/-- A line of a child is ignored, or it answers the front of its queue: then the pool and the limiter change, and what the callback
changes. -/
theorem handleStdout_cases (peer : Peering) (s : Capacity) (k : Nat) (ret : Line) :
    s.handleStdout peer k ret = s ∨
      ∃ child job child', s.pool.children[k]? = some child ∧ child.handleStdout s.now ret = some (job, child') ∧
        s.handleStdout peer k ret =
          jobDoneCallback peer ret
            { s with
              limiter := s.limiter.release job.limiter
              pool := { children := s.pool.children.set k child', jobTimes := s.pool.jobTimes ++ [s.now - job.time] } } := by
  cases hk : s.pool.children[k]? with
  | none => exact Or.inl (by simp only [handleStdout, hk])
  | some child =>
    cases hc : child.handleStdout s.now ret with
    | none => exact Or.inl (by simp only [handleStdout, hk, hc])
    | some p =>
      obtain ⟨job, child'⟩ := p
      exact Or.inr ⟨child, job, child', rfl, hc, by simp only [handleStdout, hk, hc]⟩

/-- The callbacks leave the pool, the overspill, the connections and the limiter as they are. -/
theorem jobDoneCallback_keeps (peer : Peering) (job : Line) (s : Capacity) :
    (jobDoneCallback peer job s).pool = s.pool ∧ (jobDoneCallback peer job s).overspill = s.overspill ∧
      (jobDoneCallback peer job s).connections = s.connections ∧ (jobDoneCallback peer job s).limiter = s.limiter := by
  cases peer <;> exact ⟨rfl, rfl, rfl, rfl⟩

/-- The callbacks of `handle_stdout` touch neither the children nor the connections. -/
theorem weigh_jobDoneCallback (peer : Peering) (job : Line) (s : Capacity) (w : Line → Token → M) :
    (jobDoneCallback peer job s).weigh w = s.weigh w := by
  cases peer <;> rfl

/-- A line that answers the front of a child takes the weight of that job away. -/
theorem weigh_handleStdout (peer : Peering) {s : Capacity} {k : Nat} {ret : Line} {child child' : Childproc} {job : Job}
    (h : s.pool.children[k]? = some child) (hc : child.handleStdout s.now ret = some (job, child')) (w : Line → Token → M) :
    (s.handleStdout peer k ret).weigh w + w job.command job.limiter = s.weigh w := by
  have h1 := sum_map_set (Childproc.weigh w) h child'
  have h2 := Childproc.weigh_handleStdout hc w
  simp only [handleStdout, h, hc, weigh_jobDoneCallback]
  unfold weigh weighChildren weighConnections
  refine add_right_cancel (b := child'.weigh w) ?_
  calc
    _ = ((s.pool.children.set k child').map (Childproc.weigh w)).sum +
          (child'.weigh w + w job.command job.limiter) +
          s.connections.total (fun _ r => r.weigh w) := by abel
    _ = _ := by
      rw [h2, h1]
      abel

/-- A connection that is put in the map without work brings no weight. -/
theorem total_insert_empty {s : Capacity} {c : ConnId} (hf : s.connections.find? c = none) (cap : Nat) (w : Line → Token → M) :
    (s.connections.insert c { cap := cap, work := OrdMap.empty }).total (fun _ remote => remote.weigh w) =
      s.weighConnections w := by
  have h := s.connections.total_insert (fun _ remote => remote.weigh w) c { cap := cap, work := OrdMap.empty }
  rw [hf, Option.elim_none, add_zero] at h
  exact h.trans (add_zero _)

/-- `connections[cnx]` changes no weight: what it puts in the map has no work. -/
theorem weigh_remoteAt (s : Capacity) (c : ConnId) (w : Line → Token → M) : (s.remoteAt c).1.weigh w = s.weigh w := by
  unfold remoteAt
  cases hf : s.connections.find? c with
  | some remote => rfl
  | none => exact congrArg _ (total_insert_empty hf 0 w)

/-- What `connections[cnx]` returns is then in the map. -/
theorem find?_remoteAt (s : Capacity) (c : ConnId) : (s.remoteAt c).1.connections.find? c = some (s.remoteAt c).2 := by
  unfold remoteAt
  cases hf : s.connections.find? c with
  | some remote => exact hf
  | none => simp

/-- `connections[cnx]` changes nothing but the map. -/
theorem remoteAt_eq (s : Capacity) (c : ConnId) :
    (s.remoteAt c).1 = { s with connections := (s.remoteAt c).1.connections } := by
  unfold remoteAt
  split <;> rfl

/-- A job that is not outstanding for the connection is not accepted; one that is outstanding is erased, counted and printed, and
its token is released. -/
theorem jobDoneFrom_cases (s : Capacity) (c : ConnId) (job : Line) :
    ((s.remoteAt c).2.work.find? job = none ∧ s.jobDoneFrom c job = (s.remoteAt c).1) ∨
      ∃ task, (s.remoteAt c).2.work.find? job = some task ∧
        s.jobDoneFrom c job =
          { (s.remoteAt c).1.jobDone with
            limiter := (s.remoteAt c).1.limiter.release task
            connections := (s.remoteAt c).1.connections.insert c
              { (s.remoteAt c).2 with work := (s.remoteAt c).2.work.erase job }
            stdout := (s.remoteAt c).1.stdout ++ [job] } := by
  unfold jobDoneFrom
  cases hj : (s.remoteAt c).2.work.find? job with
  | none =>
    simp only [hj]
    exact Or.inl ⟨trivial, trivial⟩
  | some task =>
    simp only [hj]
    exact Or.inr ⟨task, rfl, rfl⟩

/-- A `completed` packet leaves the pool, the overspill and the queues as they are. -/
theorem jobDoneFrom_keeps (s : Capacity) (c : ConnId) (job : Line) :
    (s.jobDoneFrom c job).pool = s.pool ∧ (s.jobDoneFrom c job).overspill = s.overspill ∧
      (s.jobDoneFrom c job).queue = s.queue := by
  rcases s.jobDoneFrom_cases c job with ⟨-, h⟩ | ⟨task, -, h⟩
  · rw [h, remoteAt_eq]
    exact ⟨rfl, rfl, rfl⟩
  · rw [h, remoteAt_eq]
    exact ⟨rfl, rfl, rfl⟩

/-- Completing an outstanding job of a connection takes its weight away. -/
theorem weigh_erase {s : Capacity} {c : ConnId} {remote : Remote} {job : Line} {task : Token}
    (h : s.connections.find? c = some remote) (hj : remote.work.find? job = some task) (w : Line → Token → M) :
    s.weighChildren w + (s.connections.insert c { remote with work := remote.work.erase job }).total
        (fun _ r => r.weigh w) + w job task = s.weigh w := by
  have h1 := s.connections.total_insert (fun _ r => r.weigh w) c { remote with work := remote.work.erase job }
  have h2 := OrdMap.total_erase_of_find hj w
  simp only [h, Option.elim_some, Remote.weigh] at h1
  unfold weigh weighConnections
  refine add_right_cancel (b := remote.work.total w) ?_
  calc
    _ = s.weighChildren w + ((s.connections.insert c { remote with work := remote.work.erase job }).total
          (fun _ r => r.work.total w) + remote.work.total w) + w job task := by
      simp only [Remote.weigh]
      abel
    _ = s.weighChildren w + s.connections.total (fun _ r => r.work.total w) +
          ((remote.work.erase job).total w + w job task) := by
      rw [h1]
      abel
    _ = _ := by
      rw [h2]
      rfl

/-! ## Connections -/

/-- A connection that is registered was unknown. -/
theorem additional_eq_ok {s s' : Capacity} {c : ConnId} {cap : Nat} (h : s.additional c cap = .ok s') :
    s.connections.find? c = none ∧
      s' = { s with
        connections := s.connections.insert c { cap := cap, work := OrdMap.empty }
        limiter := s.limiter.increaseLimit cap } := by
  unfold additional at h
  split at h
  · rename_i hf
    exact ⟨hf, (Except.ok.inj h).symm⟩
  · cases h

/-- A version packet whose handler does not throw registers its connection or changes nothing. -/
theorem dispatch_version {peer : Peering} {s s' : Capacity} {c : ConnId} {v : Nat} {capacity : Option Nat}
    (h : s.dispatch peer c (.version v capacity) = .ok s') : s' = s ∨ ∃ cap, s.additional c cap = .ok s' := by
  simp only [dispatch, inVersion] at h
  split at h
  · exact Or.inr ⟨_, h⟩
  · exact Or.inl (Except.ok.inj h).symm

/-- A connection that is registered has no work. -/
theorem weigh_additional {s s' : Capacity} {c : ConnId} {cap : Nat} (h : s.additional c cap = .ok s') (w : Line → Token → M) :
    s'.weigh w = s.weigh w := by
  obtain ⟨hf, rfl⟩ := additional_eq_ok h
  exact congrArg _ (total_insert_empty hf cap w)

/-- Forgetting a connection takes the weight of its work away. -/
theorem weigh_overspillWork {s : Capacity} {c : ConnId} {remote : Remote} (h : s.connections.find? c = some remote)
    (w : Line → Token → M) : (s.overspillWork c).weigh w + remote.weigh w = s.weigh w := by
  have h1 := OrdMap.total_erase_of_find h (fun _ r => r.weigh w)
  simp only [overspillWork, h]
  unfold weigh weighConnections
  rw [add_assoc]
  exact congrArg _ h1

end Capacity

end FostWright
