import FostWright.Accounting

/-!
# Which connections are known, and what is left alone

A connection is known while the books have an entry for it. A registration makes it known, and so does the look-up of a `completed`
packet, whether the job is outstanding or not; `overspill_work` forgets it; nothing else changes what is known (`Control.known_step`).
-/

namespace FostWright

open Lib

/-- There is an entry for the connection. -/
def Capacity.Known (s : Capacity) (c : ConnId) : Prop := ∃ remote, s.connections.find? c = some remote

namespace Capacity

theorem not_known_iff (s : Capacity) (c : ConnId) : ¬ s.Known c ↔ s.connections.find? c = none := by
  cases h : s.connections.find? c <;> simp [Known, h]

instance (s : Capacity) (c : ConnId) : Decidable (s.Known c) :=
  decidable_of_iff ((s.connections.find? c).isSome = true) (by simp [Known, Option.isSome_iff_exists])

/-- Books with an entry put in for `c`. -/
theorem known_insert {s s' : Capacity} {c : ConnId} {remote : Remote} (h : s'.connections = s.connections.insert c remote)
    (d : ConnId) : s'.Known d ↔ s.Known d ∨ d = c := by
  unfold Known
  rw [h]
  simp only [OrdMap.find?_insert]
  by_cases hd : d = c
  · simp [hd]
  · simp [hd]

/-- Books with another entry for a known connection. -/
theorem known_update {s s' : Capacity} {c : ConnId} {remote remote' : Remote} (hc : s.connections.find? c = some remote)
    (h : s'.connections = s.connections.insert c remote') (d : ConnId) : s'.Known d ↔ s.Known d := by
  rw [known_insert h]
  constructor
  · rintro (hd | rfl)
    · exact hd
    · exact ⟨remote, hc⟩
  · exact Or.inl

theorem known_of_eq {s s' : Capacity} (h : s'.connections = s.connections) (d : ConnId) : s'.Known d ↔ s.Known d := by
  unfold Known
  rw [h]

theorem known_pushCommand (s : Capacity) (k : Nat) (job : Line) (task : Token) (d : ConnId) :
    (s.pushCommand k job task).Known d ↔ s.Known d := by
  unfold pushCommand
  split <;> exact known_of_eq rfl d

theorem known_handleStdout (peer : Peering) (s : Capacity) (k : Nat) (ret : Line) (d : ConnId) :
    (s.handleStdout peer k ret).Known d ↔ s.Known d := by
  rcases handleStdout_cases peer s k ret with h | ⟨_, _, _, -, -, h⟩
  · rw [h]
  · rw [h]
    exact known_of_eq (jobDoneCallback_keeps _ _ _).2.2.1 d

theorem known_resendJobs (s : Capacity) (k : Nat) (d : ConnId) : (s.resendJobs k).Known d ↔ s.Known d := by
  unfold resendJobs
  split
  · split <;> exact known_of_eq rfl d
  · rfl

/-- The look-up of `connections[cnx]` makes the connection known. -/
theorem known_remoteAt (s : Capacity) (c d : ConnId) : (s.remoteAt c).1.Known d ↔ s.Known d ∨ d = c := by
  unfold remoteAt
  cases hf : s.connections.find? c with
  | none => exact known_insert rfl d
  | some remote =>
    refine ⟨Or.inl, ?_⟩
    rintro (hd | rfl)
    · exact hd
    · exact ⟨remote, hf⟩

/-- So does a `completed` packet. -/
theorem known_jobDoneFrom (s : Capacity) (c : ConnId) (job : Line) (d : ConnId) :
    (s.jobDoneFrom c job).Known d ↔ s.Known d ∨ d = c := by
  rcases s.jobDoneFrom_cases c job with ⟨-, h⟩ | ⟨task, -, h⟩
  · rw [h]
    exact known_remoteAt s c d
  · rw [← known_remoteAt s c d, h]
    exact known_update (find?_remoteAt s c) rfl d

theorem known_overspillWork (s : Capacity) (c d : ConnId) : (s.overspillWork c).Known d ↔ s.Known d ∧ d ≠ c := by
  unfold overspillWork
  cases hf : s.connections.find? c with
  | none =>
    refine ⟨?_, And.left⟩
    rintro ⟨remote, hd⟩
    refine ⟨⟨remote, hd⟩, ?_⟩
    rintro rfl
    rw [hf] at hd
    cases hd
  | some remote =>
    unfold Known
    simp only [OrdMap.find?_erase]
    by_cases hd : d = c
    · simp [hd]
    · simp [hd]

theorem known_additional {s s' : Capacity} {c : ConnId} {cap : Nat} (h : s.additional c cap = .ok s') (d : ConnId) :
    s'.Known d ↔ s.Known d ∨ d = c := by
  rw [(additional_eq_ok h).2]
  exact known_insert rfl d

end Capacity

/-- A packet whose handler leaves an entry for its connection. -/
def Packet.registers (peer : Peering) : Packet → Prop
  | .version _ capacity => capacity ≠ none ∧ peer = .serverSide
  | .completed _ => True
  | _ => False

/-- What the handler of a packet makes known is its connection. -/
theorem Capacity.known_dispatch {peer : Peering} {s s' : Capacity} {c : ConnId} {packet : Packet}
    (h : s.dispatch peer c packet = .ok s') (d : ConnId) : s'.Known d ↔ s.Known d ∨ d = c ∧ packet.registers peer := by
  cases packet with
  | version v capacity =>
    cases capacity with
    | none =>
      cases h
      simp [Packet.registers]
    | some cap =>
      cases peer with
      | serverSide => simpa [Packet.registers] using known_additional h d
      | clientSide c' =>
        cases h
        simp [Packet.registers]
  | execute job =>
    cases h
    simp [Packet.registers, Known, inExecute]
  | completed job =>
    cases h
    simpa [Packet.registers] using known_jobDoneFrom s c job d
  | logMessage m =>
    cases h
    simp [Packet.registers]

/-- The handler of a packet throws when it is to register a connection that is known. -/
theorem Capacity.known_of_dispatch_error {peer : Peering} {s : Capacity} {c : ConnId} {packet : Packet} {error : String}
    (h : s.dispatch peer c packet = .error error) : s.Known c := by
  cases packet with
  | version v capacity =>
    simp only [dispatch, inVersion] at h
    split at h
    · unfold additional at h
      split at h
      · cases h
      · rename_i remote hc
        exact ⟨remote, hc⟩
    · cases h
  | execute job => cases h
  | completed job => cases h
  | logMessage m => cases h

namespace Capacity

/-! ## What is left alone -/

/-- The number of children, the index of the last child chosen and the connections that have expired are as they were, no token is made,
and what was printed stays. -/
structure Steady (s s' : Capacity) : Prop where
  count : s'.pool.children.length = s.pool.children.length
  childIndex : s'.childIndex = s.childIndex
  expired : s'.expired = s.expired
  live : s'.limiter.live ≤ s.limiter.live
  issued : s'.limiter.issued = s.limiter.issued
  stdout : s.stdout <+: s'.stdout

/-- What is read of the books is as it was. -/
theorem Steady.of_eq {s s' : Capacity} (hpool : s'.pool = s.pool) (hindex : s'.childIndex = s.childIndex)
    (hexpired : s'.expired = s.expired) (hlimiter : s'.limiter = s.limiter) (hstdout : s'.stdout = s.stdout) : s.Steady s' := by
  refine ⟨?_, hindex, hexpired, ?_, ?_, hstdout ▸ List.prefix_refl _⟩
  · rw [hpool]
  · rw [hlimiter]
  · rw [hlimiter]

theorem steady_pushCommand (s : Capacity) (k : Nat) (job : Line) (task : Token) : s.Steady (s.pushCommand k job task) := by
  unfold pushCommand
  split
  · exact ⟨List.length_set, rfl, rfl, Limiter.live_releaseAll_le _ _, Limiter.issued_releaseAll _ _, List.prefix_refl _⟩
  · exact .of_eq rfl rfl rfl rfl rfl

theorem steady_handleStdout (peer : Peering) (s : Capacity) (k : Nat) (ret : Line) : s.Steady (s.handleStdout peer k ret) := by
  rcases handleStdout_cases peer s k ret with h | ⟨_, _, _, -, -, h⟩
  · rw [h]
    exact .of_eq rfl rfl rfl rfl rfl
  · rw [h]
    cases peer with
    | serverSide => exact ⟨List.length_set, rfl, rfl, Multiset.erase_le _ _, rfl, List.prefix_append _ _⟩
    | clientSide cnx => exact ⟨List.length_set, rfl, rfl, Multiset.erase_le _ _, rfl, List.prefix_refl _⟩

theorem steady_resendJobs (s : Capacity) (k : Nat) : s.Steady (s.resendJobs k) := by
  unfold resendJobs
  split
  · split <;> exact .of_eq rfl rfl rfl rfl rfl
  · exact .of_eq rfl rfl rfl rfl rfl

theorem steady_overspillWork (s : Capacity) (c : ConnId) : s.Steady (s.overspillWork c) := by
  unfold overspillWork
  split
  · exact ⟨rfl, rfl, rfl, Limiter.live_releaseAll_le _ _, Limiter.issued_releaseAll _ _, List.prefix_refl _⟩
  · exact .of_eq rfl rfl rfl rfl rfl

theorem steady_jobDoneFrom (s : Capacity) (c : ConnId) (job : Line) : s.Steady (s.jobDoneFrom c job) := by
  rcases s.jobDoneFrom_cases c job with ⟨-, h⟩ | ⟨_, -, h⟩
  · rw [h, remoteAt_eq]
    exact .of_eq rfl rfl rfl rfl rfl
  · rw [h, remoteAt_eq]
    exact ⟨rfl, rfl, rfl, Multiset.erase_le _ _, rfl, List.prefix_append _ _⟩

theorem steady_dispatch {peer : Peering} {s s' : Capacity} {c : ConnId} {packet : Packet} (h : s.dispatch peer c packet = .ok s') :
    s.Steady s' := by
  cases packet with
  | version v capacity =>
    rcases dispatch_version h with rfl | ⟨_, ha⟩
    · exact .of_eq rfl rfl rfl rfl rfl
    · rw [(additional_eq_ok ha).2]
      exact ⟨rfl, rfl, rfl, le_rfl, rfl, List.prefix_refl _⟩
  | execute job =>
    cases h
    exact .of_eq rfl rfl rfl rfl rfl
  | completed job =>
    cases h
    exact steady_jobDoneFrom s c job
  | logMessage m =>
    cases h
    exact .of_eq rfl rfl rfl rfl rfl

end Capacity

/-- Child `k` exists and its queue has room. -/
def ChildPool.RoomAt (pool : ChildPool) (k : Nat) : Prop := ∃ child, pool.children[k]? = some child ∧ child.commands.full = false

/-- The event leaves an entry for the connection. -/
def Event.registers (peer : Peering) (c : ConnId) : Event → Prop
  | .packet d p => d = c ∧ p.registers peer
  | _ => False

namespace Control

/-- One event: the connections known after it. -/
theorem known_step {peer : Peering} {s s' : Control} {e : Event} (hs : s.step peer e = some s') (c : ConnId) :
    s'.cap.Known c ↔ (s.cap.Known c ∨ e.registers peer c) ∧ e ≠ .overspillWork c := by
  cases e with
  | nextJob job =>
    obtain ⟨-, rfl⟩ := step_nextJob hs
    simp [Event.registers]
  | consume =>
    obtain ⟨_, _, -, -, rfl⟩ := step_consume hs
    simp [Event.registers, Capacity.Known]
  | token =>
    obtain ⟨job, task, limiter, -, -, hplace⟩ := step_token hs
    simp only [Event.registers, or_false, ne_eq, reduceCtorEq, not_false_eq_true, and_true]
    rcases placeJob_cases hplace with ⟨d, remote, hsp, rfl⟩ | ⟨-, k, -, rfl⟩
    · exact Capacity.known_update (s := s.cap) (Capacity.spare_eq_some (s := s.cap.accept limiter) hsp).1 rfl c
    · exact Capacity.known_of_eq rfl c
  | written =>
    obtain ⟨job, task, k, -, rfl⟩ := step_written hs
    simp [Event.registers, Capacity.known_pushCommand]
  | stdout k ret =>
    cases hs
    simp [Event.registers, Capacity.known_handleStdout]
  | resend k =>
    cases hs
    simp [Event.registers, Capacity.known_resendJobs]
  | packet d packet =>
    simp only [Event.registers, ne_eq, reduceCtorEq, not_false_eq_true, and_true]
    rcases step_packet hs with ⟨cap, hd, rfl⟩ | ⟨⟨error, hd⟩, rfl⟩
    · rw [Capacity.known_dispatch hd, eq_comm (a := d)]
    · refine ⟨Or.inl, ?_⟩
      rintro (hc | ⟨rfl, -⟩)
      · exact hc
      · exact Capacity.known_of_dispatch_error hd
  | overspillWork d =>
    cases hs
    simp [Event.registers, Capacity.known_overspillWork, eq_comm]
  | expire d =>
    cases hs
    simp [Event.registers, Capacity.Known]
  | inputComplete =>
    cases hs
    simp [Event.registers, Capacity.Known]
  | tick d =>
    cases hs
    simp [Event.registers, Capacity.Known]

/-- The token event: a token is issued, and the job goes to a connection, or a child with room is chosen for it. -/
structure Issues (s s' : Control) : Prop where
  pool : s'.cap.pool = s.cap.pool
  expired : s'.cap.expired = s.cap.expired
  live : s'.cap.limiter.live ≤ s.cap.limiter.issued ::ₘ s.cap.limiter.live
  issued : s'.cap.limiter.issued = s.cap.limiter.issued + 1
  stdout : s'.cap.stdout = s.cap.stdout
  chosen : s'.cap.childIndex = s.cap.childIndex ∨
    (s.cap.pool.RoomAt s'.cap.childIndex ∧ ∃ job task, s'.call = .writing job task s'.cap.childIndex)

theorem issues_token {peer : Peering} {s s' : Control} (hs : s.step peer .token = some s') : s.Issues s' := by
  obtain ⟨job, task, limiter, -, hlim, hplace⟩ := step_token hs
  obtain ⟨-, heq⟩ := Option.ite_none_right_eq_some.mp hlim
  cases heq
  rcases placeJob_cases hplace with ⟨_, _, -, rfl⟩ | ⟨-, k, hk, rfl⟩
  · exact ⟨rfl, rfl, Limiter.live_releaseAll_le _ _, Limiter.issued_releaseAll _ _, rfl, Or.inl rfl⟩
  · exact ⟨rfl, rfl, le_rfl, rfl, rfl, Or.inr ⟨Capacity.rotate_eq_some hk, job, _, rfl⟩⟩

/-- Every event leaves these alone, except that `next_job` may take a token, and that a connection may expire. -/
theorem steady_step {peer : Peering} {s s' : Control} {e : Event} (hs : s.step peer e = some s') :
    s.cap.Steady s'.cap ∨ s.Issues s' ∨
      ∃ c, e = .expire c ∧ s' = { s with cap := { s.cap with expired := c :: s.cap.expired } } := by
  cases e with
  | nextJob job =>
    obtain ⟨-, rfl⟩ := step_nextJob hs
    exact Or.inl (.of_eq rfl rfl rfl rfl rfl)
  | consume =>
    obtain ⟨_, _, -, -, rfl⟩ := step_consume hs
    exact Or.inl (.of_eq rfl rfl rfl rfl rfl)
  | token => exact Or.inr (Or.inl (issues_token hs))
  | written =>
    obtain ⟨job, task, k, -, rfl⟩ := step_written hs
    exact Or.inl (Capacity.steady_pushCommand _ _ _ _)
  | stdout k ret =>
    cases hs
    exact Or.inl (Capacity.steady_handleStdout _ _ _ _)
  | resend k =>
    cases hs
    exact Or.inl (Capacity.steady_resendJobs _ _)
  | packet c packet =>
    rcases step_packet hs with ⟨cap, hd, rfl⟩ | ⟨-, rfl⟩
    · exact Or.inl (Capacity.steady_dispatch hd)
    · exact Or.inl (.of_eq rfl rfl rfl rfl rfl)
  | overspillWork c =>
    cases hs
    exact Or.inl (Capacity.steady_overspillWork _ _)
  | expire c =>
    cases hs
    exact Or.inr (Or.inr ⟨c, rfl, rfl⟩)
  | inputComplete =>
    cases hs
    exact Or.inl (.of_eq rfl rfl rfl rfl rfl)
  | tick d =>
    cases hs
    exact Or.inl (.of_eq rfl rfl rfl rfl rfl)

/-- No event changes the number of children. -/
theorem count_step {peer : Peering} {s s' : Control} {e : Event} (hs : s.step peer e = some s') :
    s'.cap.pool.children.length = s.cap.pool.children.length := by
  rcases steady_step hs with hsteady | hissues | ⟨c, -, rfl⟩
  · exact hsteady.count
  · rw [hissues.pool]
  · rfl

end Control

end FostWright
