import FostWright.Lemmas.Capacity
import FostWright.Lib.System

/-!
# Capacity accounting

The limit of the limiter is the number of slots of all queues, and the tokens alive are the jobs in them. `Accounted n s held`
says so of the books of a process with `n` children while `held` are the tokens held outside the queues; every operation keeps
it, with `next_job` moving its token from `held` into a queue. The run lemma is `accounted_of_reachable`.
-/

namespace FostWright

open Lib

/-- The books of a process with `n` children, from its start, under any sequence of events. -/
def Control.system (peer : Peering) (n : Nat) : System Control Event where
  init := { cap := Capacity.init n, call := .idle }
  step := Control.step peer

/-- The bag of tokens as a weight. -/
def tokenOf (_ : Line) (t : Token) : Multiset Token := {t}

/-- The tokens alive are those of the queues and of `held`; the limit is the number of slots; the work of each connection fits its
capacity. -/
structure Capacity.Accounted (n : Nat) (s : Capacity) (held : Multiset Token) : Prop where
  tokens : s.limiter.live = s.weigh tokenOf + held
  limit : s.limiter.limit = (bufferSize * n + s.totalCap : Nat)
  children : s.pool.children.length = n
  bounded : ∀ c remote, s.connections.find? c = some remote → remote.work.size ≤ remote.cap

namespace Capacity

/-! ## Sums of capacities -/

/-- Replacing the entry of a connection by one of the same capacity keeps the sum of the capacities. -/
theorem total_cap_insert {m : OrdMap ConnId Remote} {c : ConnId} {remote remote' : Remote} (h : m.find? c = some remote)
    (hcap : remote'.cap = remote.cap) :
    (m.insert c remote').total (fun _ r => r.cap) = m.total (fun _ r => r.cap) := by
  have := m.total_insert (fun _ r => r.cap) c remote'
  rw [h, Option.elim_some, hcap] at this
  omega

/-- The sum of the capacities after a connection is forgotten. -/
theorem total_cap_erase {m : OrdMap ConnId Remote} {c : ConnId} {remote : Remote} (h : m.find? c = some remote) :
    (m.erase c).total (fun _ r => r.cap) + remote.cap = m.total (fun _ r => r.cap) :=
  OrdMap.total_erase_of_find h _

/-! ## The slots that are nobody's capacity

The limit without the capacities of the connections. No operation changes it: a registration adds its capacity on both sides, and
`overspill_work` takes it away from both. -/

/-- The limit less the sum of the capacities. -/
def surplus (s : Capacity) : Int := s.limiter.limit - (s.totalCap : Nat)

theorem limit_of_surplus {s s' : Capacity} {m : Nat} (h : s.limiter.limit = (m + s.totalCap : Nat)) (hs : s'.surplus = s.surplus) :
    s'.limiter.limit = (m + s'.totalCap : Nat) := by
  simp only [surplus] at hs
  omega

theorem surplus_giveRemote {s : Capacity} {c : ConnId} {remote : Remote} (hc : s.connections.find? c = some remote) (job : Line)
    (task : Token) : (s.giveRemote c remote job task).surplus = s.surplus := by
  have hcap : (s.giveRemote c remote job task).totalCap = s.totalCap := total_cap_insert hc rfl
  simp only [surplus, hcap]
  simp [giveRemote, produce]

theorem surplus_pushCommand (s : Capacity) (k : Nat) (job : Line) (task : Token) : (s.pushCommand k job task).surplus = s.surplus := by
  unfold pushCommand
  split
  · simp [surplus, totalCap]
  · rfl

theorem surplus_handleStdout (peer : Peering) (s : Capacity) (k : Nat) (ret : Line) :
    (s.handleStdout peer k ret).surplus = s.surplus := by
  rcases handleStdout_cases peer s k ret with hsame | ⟨_, _, _, -, -, hdone⟩
  · rw [hsame]
  · obtain ⟨-, -, hconnections, hlimiter⟩ := jobDoneCallback_keeps peer ret
      { s with limiter := _, pool := _ }
    rw [hdone, surplus, totalCap, hconnections, hlimiter]
    rfl

theorem surplus_resendJobs (s : Capacity) (k : Nat) : (s.resendJobs k).surplus = s.surplus := by
  unfold resendJobs
  split
  · split <;> rfl
  · rfl

/-- What `connections[cnx]` puts in the map has no capacity. -/
theorem surplus_remoteAt (s : Capacity) (c : ConnId) : (s.remoteAt c).1.surplus = s.surplus := by
  unfold remoteAt
  cases hf : s.connections.find? c with
  | some remote => rfl
  | none =>
    have hcap := s.connections.total_insert (fun _ r => r.cap) c { cap := 0, work := OrdMap.empty }
    simp only [hf, Option.elim_none, add_zero] at hcap
    simp only [surplus, totalCap, hcap]

theorem surplus_jobDoneFrom (s : Capacity) (c : ConnId) (job : Line) : (s.jobDoneFrom c job).surplus = s.surplus := by
  rw [← surplus_remoteAt s c]
  rcases s.jobDoneFrom_cases c job with ⟨-, hdone⟩ | ⟨task, hj, hdone⟩
  · rw [hdone]
  · have hcap : ((s.remoteAt c).1.connections.insert c
        { (s.remoteAt c).2 with work := (s.remoteAt c).2.work.erase job }).total (fun _ r => r.cap) =
        (s.remoteAt c).1.totalCap := total_cap_insert (find?_remoteAt s c) rfl
    rw [hdone]
    simp only [surplus, totalCap] at hcap ⊢
    simp [hcap]

theorem surplus_overspillWork (s : Capacity) (c : ConnId) : (s.overspillWork c).surplus = s.surplus := by
  cases hf : s.connections.find? c with
  | none => simp only [overspillWork, hf]
  | some remote =>
    have hcap := total_cap_erase hf
    simp only [overspillWork, hf, surplus, totalCap, Limiter.limit_releaseAll, Limiter.decreaseLimit]
    omega

theorem surplus_additional {s s' : Capacity} {c : ConnId} {cap : Nat} (h : s.additional c cap = .ok s') :
    s'.surplus = s.surplus := by
  obtain ⟨hf, rfl⟩ := additional_eq_ok h
  have hcap := s.connections.total_insert (fun _ r => r.cap) c { cap := cap, work := OrdMap.empty }
  simp only [hf, Option.elim_none, add_zero] at hcap
  simp only [surplus, totalCap, Limiter.increaseLimit, hcap]
  omega

theorem surplus_dispatch {peer : Peering} {s s' : Capacity} {c : ConnId} {packet : Packet} (h : s.dispatch peer c packet = .ok s') :
    s'.surplus = s.surplus := by
  cases packet with
  | version v capacity =>
    rcases dispatch_version h with rfl | ⟨cap, ha⟩
    · rfl
    · exact surplus_additional ha
  | execute job =>
    cases h
    rfl
  | completed job =>
    cases h
    exact surplus_jobDoneFrom s c job
  | logMessage m =>
    cases h
    rfl

/-! ## What each operation keeps -/

/-- A new capacity: `buffer_size` slots for each child, and nothing outstanding. -/
theorem accounted_init (n : Nat) : (init n).Accounted n 0 := by
  refine ⟨?_, ?_, ?_, ?_⟩
  · simp [init, weigh, weighChildren, weighConnections, Childproc.weigh]
  · simp [init, totalCap, Nat.mul_comm]
  · simp [init]
  · intro c remote h
    simp [init] at h

/-- A token handed out is held by `next_job`. -/
theorem Accounted.admit {n : Nat} {s : Capacity} (h : s.Accounted n 0) {t : Token} {limiter : Limiter}
    (ht : s.limiter.nextJob = some (t, limiter)) :
    (s.accept limiter).Accounted n {t} := by
  obtain ⟨-, hlim, hlive⟩ := Limiter.nextJob_eq_some ht
  refine ⟨?_, hlim.trans h.limit, h.children, h.bounded⟩
  change limiter.live = s.weigh tokenOf + {t}
  rw [hlive, h.tokens, add_zero, ← Multiset.singleton_add, add_comm]

/-- A job given to a connection takes the token into its work. -/
theorem Accounted.giveRemote {n : Nat} {s : Capacity} {t : Token} (h : s.Accounted n {t}) {c : ConnId} {remote : Remote}
    (hc : s.connections.find? c = some remote) (hroom : remote.work.size < remote.cap) (job : Line) :
    (s.giveRemote c remote job t).Accounted n 0 := by
  refine ⟨?_, ?_, h.children, ?_⟩
  · have hw := weigh_giveRemote hc job t tokenOf
    rw [add_zero]
    refine Limiter.live_releaseAll ?_
    rw [h.tokens]
    have hold : (remote.work.find? job).elim 0 (tokenOf job) = ((remote.work.find? job).toList : Multiset Token) := by
      cases remote.work.find? job <;> rfl
    rw [hold] at hw
    exact hw.symm
  · exact limit_of_surplus h.limit (surplus_giveRemote hc job t)
  · intro c' remote' hr
    simp only [Capacity.giveRemote, produce, OrdMap.find?_insert] at hr
    split at hr
    · simp only [Option.some.injEq] at hr
      subst hr
      exact (OrdMap.size_insert_le _ _ _).trans hroom
    · exact h.bounded c' remote' hr

/-- The choice of a child changes only the index. -/
theorem Accounted.childIndex {n : Nat} {s : Capacity} {held : Multiset Token} (h : s.Accounted n held) (k : Nat) :
    ({ s with childIndex := k } : Capacity).Accounted n held :=
  ⟨h.tokens, h.limit, h.children, h.bounded⟩

/-- A job pushed on the queue of a child takes the token into its commands. -/
theorem Accounted.pushCommand {n : Nat} {s : Capacity} {t : Token} (h : s.Accounted n {t}) {k : Nat} {child : Childproc}
    (hk : s.pool.children[k]? = some child) (job : Line) : (s.pushCommand k job t).Accounted n 0 := by
  have hw := weigh_pushCommand hk job t tokenOf
  have hlost : ∀ l : List Job, (l.map (fun j => tokenOf j.command j.limiter)).sum = (l.map Job.limiter : Multiset Token) :=
    sum_map_singleton Job.limiter
  rw [hlost] at hw
  have hlive : s.limiter.live = (s.pushCommand k job t).weigh tokenOf +
      ((child.commands.overwritten ⟨job, t, s.now⟩).map Job.limiter : Multiset Token) := by
    rw [h.tokens]
    exact hw.symm
  have hlimit := limit_of_surplus h.limit (surplus_pushCommand s k job t)
  simp only [Capacity.pushCommand, hk] at hlive hlimit ⊢
  refine ⟨?_, hlimit, ?_, h.bounded⟩
  · rw [add_zero]
    exact Limiter.live_releaseAll hlive
  · simp only [List.length_set, h.children]

/-- A callback of `handle_stdout` changes no part of the accounts. -/
theorem Accounted.jobDoneCallback {n : Nat} {s : Capacity} {held : Multiset Token} (h : s.Accounted n held)
    (peer : Peering) (job : Line) : (Capacity.jobDoneCallback peer job s).Accounted n held := by
  cases peer <;> exact ⟨h.tokens, h.limit, h.children, h.bounded⟩

/-- A line of a child's stdout: the job it answers gives its token back. -/
theorem Accounted.handleStdout {n : Nat} {s : Capacity} {held : Multiset Token} (h : s.Accounted n held)
    (peer : Peering) (k : Nat) (ret : Line) : (s.handleStdout peer k ret).Accounted n held := by
  rcases handleStdout_cases peer s k ret with hsame | ⟨child, job, child', hk, hc, hdone⟩
  · rw [hsame]
    exact h
  · have hw := weigh_handleStdout peer hk hc tokenOf
    rw [hdone, weigh_jobDoneCallback] at hw
    rw [hdone]
    apply Accounted.jobDoneCallback
    refine ⟨Limiter.live_release ?_, h.limit, ?_, h.bounded⟩
    · rw [h.tokens, ← hw, add_right_comm]
      rfl
    · simp only [List.length_set, h.children]

/-- `connections[cnx]` puts at most an entry of capacity zero in the map. -/
theorem Accounted.remoteAt {n : Nat} {s : Capacity} {held : Multiset Token} (h : s.Accounted n held) (c : ConnId) :
    (s.remoteAt c).1.Accounted n held := by
  have hw := weigh_remoteAt s c tokenOf
  have hlimit := limit_of_surplus h.limit (surplus_remoteAt s c)
  unfold Capacity.remoteAt at hw hlimit ⊢
  cases hf : s.connections.find? c with
  | some remote => exact h
  | none =>
    simp only [hf] at hw hlimit
    refine ⟨?_, hlimit, h.children, ?_⟩
    · rw [hw]
      exact h.tokens
    · intro c' remote' hr
      simp only [OrdMap.find?_insert] at hr
      split at hr
      · simp only [Option.some.injEq] at hr
        subst hr
        exact Nat.le_refl _
      · exact h.bounded c' remote' hr

/-- A `completed` packet: an outstanding job gives its token back. -/
theorem Accounted.jobDoneFrom {n : Nat} {s : Capacity} {held : Multiset Token} (h : s.Accounted n held) (c : ConnId)
    (job : Line) : (s.jobDoneFrom c job).Accounted n held := by
  have hr := h.remoteAt c
  have hf := find?_remoteAt s c
  have hlimit := limit_of_surplus h.limit (surplus_jobDoneFrom s c job)
  rcases s.jobDoneFrom_cases c job with ⟨-, hdone⟩ | ⟨task, hj, hdone⟩
  · rw [hdone]
    exact hr
  · rw [hdone] at hlimit ⊢
    have hw := weigh_erase hf hj tokenOf
    refine ⟨Limiter.live_release ?_, hlimit, hr.children, ?_⟩
    · rw [hr.tokens, ← hw, add_right_comm]
      rfl
    · intro c' remote' hr'
      simp only [OrdMap.find?_insert] at hr'
      split at hr'
      · simp only [Option.some.injEq] at hr'
        subst hr'
        exact (OrdMap.size_erase_le _ _).trans (hr.bounded c _ hf)
      · exact hr.bounded c' remote' hr'

/-- A connection that is forgotten takes its slots and its tokens with it. -/
theorem Accounted.overspillWork {n : Nat} {s : Capacity} {held : Multiset Token} (h : s.Accounted n held) (c : ConnId) :
    (s.overspillWork c).Accounted n held := by
  cases hf : s.connections.find? c with
  | none => simpa [Capacity.overspillWork, hf] using h
  | some remote =>
    have hw := weigh_overspillWork hf tokenOf
    have hlimit := limit_of_surplus h.limit (surplus_overspillWork s c)
    have hlost : remote.weigh tokenOf = (remote.work.entries.map Prod.snd : Multiset Token) :=
      sum_map_singleton Prod.snd remote.work.entries
    have hlive : (s.limiter.decreaseLimit remote.cap).live =
        (s.overspillWork c).weigh tokenOf + held + (remote.work.entries.map Prod.snd : Multiset Token) := by
      rw [← hlost, add_right_comm, hw]
      exact h.tokens
    simp only [Capacity.overspillWork, hf] at hlive hlimit ⊢
    refine ⟨Limiter.live_releaseAll hlive, hlimit, h.children, ?_⟩
    · intro c' remote' hr
      simp only [OrdMap.find?_erase] at hr
      split at hr
      · cases hr
      · exact h.bounded c' remote' hr

/-- A connection that is registered brings its slots. -/
theorem Accounted.additional {n : Nat} {s s' : Capacity} {held : Multiset Token} (h : s.Accounted n held) {c : ConnId}
    {cap : Nat} (ha : s.additional c cap = .ok s') : s'.Accounted n held := by
  have hw := weigh_additional ha tokenOf
  have hlimit := limit_of_surplus h.limit (surplus_additional ha)
  obtain ⟨-, rfl⟩ := additional_eq_ok ha
  refine ⟨?_, hlimit, h.children, ?_⟩
  · rw [hw]
    exact h.tokens
  · intro c' remote' hr
    simp only [OrdMap.find?_insert] at hr
    split at hr
    · simp only [Option.some.injEq] at hr
      subst hr
      exact Nat.zero_le _
    · exact h.bounded c' remote' hr

/-- The handler of a packet keeps the accounts. -/
theorem Accounted.dispatch {n : Nat} {s s' : Capacity} {held : Multiset Token} (h : s.Accounted n held) {peer : Peering}
    {c : ConnId} {packet : Packet} (hd : s.dispatch peer c packet = .ok s') : s'.Accounted n held := by
  cases packet with
  | version v capacity =>
    rcases dispatch_version hd with rfl | ⟨cap, ha⟩
    · exact h
    · exact h.additional ha
  | execute job =>
    cases hd
    exact ⟨h.tokens, h.limit, h.children, h.bounded⟩
  | completed job =>
    cases hd
    exact h.jobDoneFrom c job
  | logMessage m =>
    cases hd
    exact h

/-- A resend changes only counters. -/
theorem Accounted.resendJobs {n : Nat} {s : Capacity} {held : Multiset Token} (h : s.Accounted n held) (k : Nat) :
    (s.resendJobs k).Accounted n held := by
  unfold Capacity.resendJobs
  split
  · split <;> exact ⟨h.tokens, h.limit, h.children, h.bounded⟩
  · exact h

end Capacity

/-! ## Runs -/

/-- The tokens that the `next_job` coroutine holds. -/
def NextJob.held (call : NextJob) : Multiset Token := call.weigh tokenOf

/-- The child that `next_job` is writing to exists and its queue has room. -/
def Control.Room (s : Control) : Prop :=
  ∀ job task k, s.call = .writing job task k →
    ∃ child, s.cap.pool.children[k]? = some child ∧ child.commands.full = false

/-- The accounts of the books, with the token that `next_job` holds, and room for the job it is writing. -/
structure Control.Accounted (n : Nat) (s : Control) : Prop where
  books : s.cap.Accounted n s.call.held
  room : s.Room

namespace Control

/-- What the token event does: `next_job` takes a token and places its job. -/
theorem step_token {peer : Peering} {s s' : Control} (h : s.step peer .token = some s') :
    ∃ job task limiter, s.call = .waiting job ∧ s.cap.limiter.nextJob = some (task, limiter) ∧
      placeJob (s.cap.accept limiter) job task = some s' := by
  simp only [step] at h
  split at h
  · rename_i job task limiter hcall hlim
    exact ⟨job, task, limiter, hcall, hlim, h⟩
  · cases h

/-- Placing a job: the first connection with spare capacity gets it, and without one a child with room is chosen. -/
theorem placeJob_cases {s : Capacity} {job : Line} {task : Token} {s' : Control} (h : placeJob s job task = some s') :
    (∃ c remote, s.spare = some (c, remote) ∧ s' = { cap := s.giveRemote c remote job task, call := .idle }) ∨
      (s.spare = none ∧ ∃ k, s.nextChild = some k ∧
        s' = { cap := { s with childIndex := k }, call := .writing job task k }) := by
  unfold placeJob at h
  split at h
  · rename_i c remote hs
    exact Or.inl ⟨c, remote, hs, (Option.some.inj h).symm⟩
  · rename_i hs
    split at h
    · rename_i k hk
      exact Or.inr ⟨hs, k, hk, (Option.some.inj h).symm⟩
    · cases h

/-- The end of the write of `next_job`. -/
theorem step_written {peer : Peering} {s s' : Control} (h : s.step peer .written = some s') :
    ∃ job task k, s.call = .writing job task k ∧ s' = { cap := s.cap.pushCommand k job task, call := .idle } := by
  simp only [step] at h
  split at h
  · rename_i job task k hcall
    exact ⟨job, task, k, hcall, (Option.some.inj h).symm⟩
  · cases h

/-- A call of `next_job` waits for a token. -/
theorem step_nextJob {peer : Peering} {s s' : Control} {job : Line} (h : s.step peer (.nextJob job) = some s') :
    s.call = .idle ∧ s' = { s with call := .waiting job } := by
  simp only [step] at h
  split at h
  · rename_i hcall
    exact ⟨hcall, (Option.some.inj h).symm⟩
  · cases h

/-- The front of the overspill is taken. -/
theorem step_consume {peer : Peering} {s s' : Control} (h : s.step peer .consume = some s') :
    ∃ job rest, s.call = .idle ∧ s.cap.overspill = job :: rest ∧
      s' = { cap := { s.cap with overspill := rest }, call := .waiting job } := by
  simp only [step] at h
  split at h
  · rename_i job rest hcall hover
    exact ⟨job, rest, hcall, hover, (Option.some.inj h).symm⟩
  · cases h

/-- A packet: the handler runs to its end or throws. -/
theorem step_packet {peer : Peering} {s s' : Control} {c : ConnId} {packet : Packet}
    (h : s.step peer (.packet c packet) = some s') :
    (∃ cap, s.cap.dispatch peer c packet = .ok cap ∧ s' = { s with cap := cap }) ∨
      (∃ error, s.cap.dispatch peer c packet = .error error) ∧ s' = s := by
  simp only [step] at h
  split at h
  · rename_i cap hd
    exact Or.inl ⟨cap, hd, (Option.some.inj h).symm⟩
  · rename_i error hd
    exact Or.inr ⟨⟨error, hd⟩, (Option.some.inj h).symm⟩

/-- The queue of a child that has room keeps it while lines of any child are handled. -/
theorem room_handleStdout {peer : Peering} {s : Capacity} {k j : Nat} {ret : Line} {child : Childproc}
    (hj : s.pool.children[j]? = some child) (hfull : child.commands.full = false) :
    ∃ child', (s.handleStdout peer k ret).pool.children[j]? = some child' ∧ child'.commands.full = false := by
  rcases Capacity.handleStdout_cases peer s k ret with hsame | ⟨child₁, job, child', hk, hc, hdone⟩
  · rw [hsame]
    exact ⟨child, hj, hfull⟩
  · rw [hdone, (Capacity.jobDoneCallback_keeps _ _ _).1, List.getElem?_set]
    split
    · rename_i hkj
      subst hkj
      have hlt : k < s.pool.children.length := (List.getElem?_eq_some_iff.mp hk).1
      refine ⟨child', if_pos hlt, ?_⟩
      rw [hk, Option.some.injEq] at hj
      subst hj
      obtain ⟨-, -, -, he⟩ := Childproc.handleStdout_eq_some hc
      rw [CircularBuffer.full_eq_false_iff] at hfull ⊢
      rw [he, List.length_modifyHead, List.length_tail]
      omega
    · exact ⟨child, hj, hfull⟩

/-- The handler of a packet does not touch the pool. -/
theorem pool_dispatch {peer : Peering} {s s' : Capacity} {c : ConnId} {packet : Packet}
    (h : s.dispatch peer c packet = .ok s') : s'.pool = s.pool := by
  cases packet with
  | version v capacity =>
    rcases Capacity.dispatch_version h with rfl | ⟨cap, ha⟩
    · rfl
    · rw [(Capacity.additional_eq_ok ha).2]
  | execute job => exact Except.ok.inj h ▸ rfl
  | completed job => exact Except.ok.inj h ▸ (s.jobDoneFrom_keeps c job).1
  | logMessage m => exact Except.ok.inj h ▸ rfl

/-- A resend does not touch the pool. -/
theorem pool_resendJobs (s : Capacity) (k : Nat) : (s.resendJobs k).pool = s.pool := by
  unfold Capacity.resendJobs
  split
  · split <;> rfl
  · rfl

/-- `overspill_work` does not touch the pool. -/
theorem pool_overspillWork (s : Capacity) (c : ConnId) : (s.overspillWork c).pool = s.pool := by
  unfold Capacity.overspillWork
  split <;> rfl

/-- One event keeps the accounts. -/
theorem Accounted.step {peer : Peering} {n : Nat} {s s' : Control} {e : Event} (h : s.Accounted n)
    (hs : s.step peer e = some s') : s'.Accounted n := by
  cases e with
  | nextJob job =>
    obtain ⟨hcall, rfl⟩ := step_nextJob hs
    have hb := h.books
    rw [hcall] at hb
    exact ⟨hb, fun _ _ _ hw => nomatch hw⟩
  | consume =>
    obtain ⟨job, rest, hcall, -, rfl⟩ := step_consume hs
    have hb := h.books
    rw [hcall] at hb
    exact ⟨⟨hb.tokens, hb.limit, hb.children, hb.bounded⟩, fun _ _ _ hw => nomatch hw⟩
  | token =>
    obtain ⟨job, task, limiter, hcall, hlim, hplace⟩ := step_token hs
    have hb := h.books
    rw [hcall] at hb
    have ha := hb.admit hlim
    rcases placeJob_cases hplace with ⟨c, remote, hsp, rfl⟩ | ⟨-, k, hk, rfl⟩
    · obtain ⟨hc, -, hroom⟩ := Capacity.spare_eq_some hsp
      exact ⟨ha.giveRemote hc hroom job, fun _ _ _ hw => nomatch hw⟩
    · refine ⟨ha.childIndex k, ?_⟩
      intro job' task' k' hw
      cases hw
      exact Capacity.rotate_eq_some hk
  | written =>
    obtain ⟨job, task, k, hcall, rfl⟩ := step_written hs
    obtain ⟨child, hk, -⟩ := h.room job task k hcall
    have hb := h.books
    rw [hcall] at hb
    exact ⟨hb.pushCommand hk job, fun _ _ _ hw => nomatch hw⟩
  | stdout k ret =>
    cases hs
    refine ⟨h.books.handleStdout peer k ret, ?_⟩
    intro job task j hw
    obtain ⟨child, hj, hfull⟩ := h.room job task j hw
    exact room_handleStdout hj hfull
  | resend k =>
    cases hs
    refine ⟨h.books.resendJobs k, ?_⟩
    intro job task j hw
    simp only [pool_resendJobs]
    exact h.room job task j hw
  | packet c packet =>
    rcases step_packet hs with ⟨cap, hd, rfl⟩ | ⟨-, rfl⟩
    · refine ⟨h.books.dispatch hd, ?_⟩
      intro job task j hw
      simp only [pool_dispatch hd]
      exact h.room job task j hw
    · exact h
  | overspillWork c =>
    cases hs
    refine ⟨h.books.overspillWork c, ?_⟩
    intro job task j hw
    simp only [pool_overspillWork]
    exact h.room job task j hw
  | expire c =>
    cases hs
    exact ⟨⟨h.books.tokens, h.books.limit, h.books.children, h.books.bounded⟩, h.room⟩
  | inputComplete =>
    cases hs
    exact ⟨⟨h.books.tokens, h.books.limit, h.books.children, h.books.bounded⟩, h.room⟩
  | tick d =>
    cases hs
    exact ⟨⟨h.books.tokens, h.books.limit, h.books.children, h.books.bounded⟩, h.room⟩

/-- One event changes the limit by as much as the sum of the capacities. -/
theorem surplus_step {peer : Peering} {s s' : Control} {e : Event} (hs : s.step peer e = some s') :
    s'.cap.surplus = s.cap.surplus := by
  cases e with
  | nextJob job =>
    obtain ⟨-, rfl⟩ := step_nextJob hs
    rfl
  | consume =>
    obtain ⟨_, _, -, -, rfl⟩ := step_consume hs
    rfl
  | token =>
    obtain ⟨job, task, limiter, -, hlim, hplace⟩ := step_token hs
    have haccept : (s.cap.accept limiter).surplus = s.cap.surplus :=
      congrArg (· - ((s.cap.totalCap : Nat) : Int)) (Limiter.nextJob_eq_some hlim).2.1
    rcases placeJob_cases hplace with ⟨c, remote, hsp, rfl⟩ | ⟨-, k, -, rfl⟩
    · exact (Capacity.surplus_giveRemote (Capacity.spare_eq_some hsp).1 job task).trans haccept
    · exact haccept
  | written =>
    obtain ⟨job, task, k, -, rfl⟩ := step_written hs
    exact Capacity.surplus_pushCommand s.cap k job task
  | stdout k ret =>
    cases hs
    exact Capacity.surplus_handleStdout peer s.cap k ret
  | resend k =>
    cases hs
    exact Capacity.surplus_resendJobs s.cap k
  | packet c packet =>
    rcases step_packet hs with ⟨cap, hd, rfl⟩ | ⟨-, rfl⟩
    · exact Capacity.surplus_dispatch hd
    · rfl
  | overspillWork c =>
    cases hs
    exact Capacity.surplus_overspillWork s.cap c
  | expire c =>
    cases hs
    rfl
  | inputComplete =>
    cases hs
    rfl
  | tick d =>
    cases hs
    rfl

/-- Every state reached is accounted for. -/
theorem accounted_of_reachable (peer : Peering) {n : Nat} {s : Control} (h : (system peer n).Reachable s) :
    s.Accounted n :=
  h.invariant ⟨Capacity.accounted_init n, fun _ _ _ hw => nomatch hw⟩ (fun _ _ _ ha _ hs => ha.step hs)

end Control

/-! ## The equation of the books -/

/-- The number of elements of a sum of bags. -/
theorem card_sum_map {α β : Type*} (f : α → Multiset β) (l : List α) :
    Multiset.card (l.map f).sum = (l.map (fun a => Multiset.card (f a))).sum := by
  induction l with
  | nil => rfl
  | cons a l ih => rw [List.map_cons, List.sum_cons, Multiset.card_add, ih, List.map_cons, List.sum_cons]

/-- A weight of one element for each job counts the commands and the entries of the connections' work. -/
theorem Capacity.card_weigh {β : Type*} (s : Capacity) {w : Line → Token → Multiset β} (hw : ∀ j t, Multiset.card (w j t) = 1) :
    Multiset.card (s.weigh w) =
      (s.pool.children.map (fun child => child.commands.size)).sum +
        s.connections.total (fun _ remote => remote.work.size) := by
  have hchild : ∀ child : Childproc, Multiset.card (child.weigh w) = child.commands.size := by
    intro child
    unfold Childproc.weigh CircularBuffer.size
    simp [card_sum_map, hw]
  have hremote : ∀ remote : Remote, Multiset.card (remote.weigh w) = remote.work.size := by
    intro remote
    unfold Remote.weigh OrdMap.total OrdMap.size
    simp [card_sum_map, hw]
  unfold weigh weighChildren weighConnections OrdMap.total
  rw [Multiset.card_add, card_sum_map, card_sum_map]
  simp only [hchild, hremote]

/-- Whether `next_job` holds a token: one or none. -/
def NextJob.holding : NextJob → Nat
  | .writing _ _ _ => 1
  | _ => 0

theorem NextJob.card_held (call : NextJob) : Multiset.card call.held = call.holding := by
  cases call <;> rfl

/-- The capacity of one connection is part of the sum. -/
theorem Capacity.cap_le_totalCap {s : Capacity} {c : ConnId} {remote : Remote} (h : s.connections.find? c = some remote) :
    remote.cap ≤ s.totalCap := by
  have := total_cap_erase h
  unfold totalCap
  omega

/-- In every state of the books: the limit is `buffer_size` for each child and the capacity of each connection, and forgetting
a connection does not take it below the children's slots; the tokens alive are as many as the jobs in the queues and the one
that `next_job` holds; and no queue holds more than its slots. -/
theorem capacity_accounting (peer : Peering) (n : Nat) (s : Control) (h : (Control.system peer n).Reachable s) :
    s.cap.limiter.limit = (bufferSize * n + s.cap.totalCap : Nat) ∧
      (∀ c remote, s.cap.connections.find? c = some remote →
        ((bufferSize * n : Nat) : Int) ≤ (s.cap.limiter.decreaseLimit remote.cap).limit) ∧
      s.cap.limiter.outstanding =
        (s.cap.pool.children.map (fun child => child.commands.size)).sum +
          s.cap.connections.total (fun _ remote => remote.work.size) + s.call.holding ∧
      (∀ child ∈ s.cap.pool.children, child.commands.size ≤ bufferSize) ∧
      (∀ c remote, s.cap.connections.find? c = some remote → remote.work.size ≤ remote.cap) := by
  have ha := Control.accounted_of_reachable peer h
  refine ⟨ha.books.limit, ?_, ?_, ?_, ha.books.bounded⟩
  · intro c remote hc
    have hle := Capacity.cap_le_totalCap hc
    have hlim := ha.books.limit
    simp only [Limiter.decreaseLimit, hlim]
    omega
  · unfold Limiter.outstanding
    rw [ha.books.tokens, Multiset.card_add, Capacity.card_weigh _ (fun _ _ => rfl), NextJob.card_held]
  · intro child _
    exact child.commands.bounded

/-- The accounts in a run in which one job is with a connection, one with the child and one is being written. -/
theorem capacity_accounting_run :
    ∃ s : Control, s.call.holding = 1 ∧ s.cap.limiter.outstanding = 3 ∧
      s.cap.limiter.limit = (bufferSize * 1 + s.cap.totalCap : Nat) ∧
      s.cap.limiter.outstanding =
        (s.cap.pool.children.map (fun child => child.commands.size)).sum +
          s.cap.connections.total (fun _ remote => remote.work.size) + s.call.holding := by
  obtain ⟨s, hs, hp⟩ := System.reachable_of_run (S := Control.system .serverSide 1)
    [.packet 7 (.version 1 (some 1)), .nextJob [97], .token, .nextJob [98], .token, .written, .nextJob [98], .token]
    (fun s => s.call.holding == 1 && s.cap.limiter.outstanding == 3) (by decide)
  simp only [Bool.and_eq_true, beq_iff_eq] at hp
  have ha := capacity_accounting .serverSide 1 s hs
  exact ⟨s, hp.1, hp.2, ha.1, ha.2.2.1⟩

end FostWright
