import FostWright.Lemmas.Registry

/-!
# Completions that are not outstanding

A `completed` packet for a job that is not outstanding is only to be logged. The look-up `connections[cnx]` in `job_done` is what it
depends on: it changes nothing when the connection is known, and leaves an entry of capacity zero when it is not. That entry is what
`additional` finds when the connection announces its capacity afterwards.
-/

namespace FostWright

open Lib

namespace Capacity

/-- The job is not in the outstanding work of the connection. -/
def NotOutstanding (s : Capacity) (c : ConnId) (job : Line) : Prop :=
  ∀ remote, s.connections.find? c = some remote → remote.work.find? job = none

/-- The connections, the limit, the tokens alive, the queues of the children, the overspill, the count of completed jobs and standard
output are as they were. -/
structure Unchanged (s s' : Capacity) : Prop where
  connections : s'.connections = s.connections
  limit : s'.limiter.limit = s.limiter.limit
  live : s'.limiter.live = s.limiter.live
  children : s'.pool.children = s.pool.children
  overspill : s'.overspill = s.overspill
  completed : s'.completed = s.completed
  stdout : s'.stdout = s.stdout

/-- The handler of a `completed` packet for a job that is not outstanding changes nothing exactly when the connection is known. -/
theorem unchanged_jobDoneFrom_iff {s : Capacity} {c : ConnId} {job : Line} (h : s.NotOutstanding c job) :
    s.Unchanged (s.jobDoneFrom c job) ↔ s.Known c := by
  constructor
  · intro hsame
    have hknown := (known_jobDoneFrom s c job c).mpr (Or.inr rfl)
    exact (known_of_eq hsame.connections c).mp hknown
  · rintro ⟨remote, hc⟩
    have hat : s.remoteAt c = (s, remote) := by
      unfold remoteAt
      rw [hc]
    have hdone : s.jobDoneFrom c job = s := by
      unfold jobDoneFrom
      rw [hat]
      simp only [h remote hc]
    rw [hdone]
    exact ⟨rfl, rfl, rfl, rfl, rfl, rfl, rfl⟩

/-- A capacity that is announced is registered exactly when the connection is not known. -/
theorem registered_iff_not_known (s : Capacity) (c : ConnId) (v cap : Nat) :
    (∃ s', s.dispatch .serverSide c (.version v (some cap)) = .ok s' ∧
      s'.connections.find? c = some { cap := cap, work := OrdMap.empty } ∧ s'.limiter = s.limiter.increaseLimit cap) ↔
        ¬ s.Known c := by
  rw [not_known_iff]
  constructor
  · rintro ⟨s', hs', -⟩
    exact (additional_eq_ok hs').1
  · intro hc
    refine ⟨{ s with
      connections := s.connections.insert c { cap := cap, work := OrdMap.empty }
      limiter := s.limiter.increaseLimit cap }, ?_, OrdMap.find?_insert_self _ _ _, rfl⟩
    simp only [dispatch, inVersion, additional, hc]

end Capacity

/-- The event announces the capacity of the connection, or is the end of the connection. -/
def Event.Announces (c : ConnId) : Event → Prop
  | .packet d (.version _ (some _)) => d = c
  | .overspillWork d => d = c
  | _ => False

/-- The event is a `completed` packet of the connection. -/
def Event.Completes (c : ConnId) : Event → Prop
  | .packet d (.completed _) => d = c
  | _ => False

instance (c : ConnId) (e : Event) : Decidable (e.Announces c) := by
  unfold Event.Announces
  split <;> infer_instance

namespace Control

/-- Before a connection announces its capacity, what makes it known is a `completed` packet. -/
theorem known_step_of_not_announces {peer : Peering} {s s' : Control} {e : Event} {c : ConnId} (he : ¬ e.Announces c)
    (hs : s.step peer e = some s') : s'.cap.Known c ↔ s.cap.Known c ∨ e.Completes c := by
  have hclose : e ≠ .overspillWork c := by
    rintro rfl
    exact he rfl
  have hreg : e.registers peer c ↔ e.Completes c := by
    cases e with
    | packet d packet =>
      cases packet with
      | version v capacity =>
        cases capacity with
        | none => simp [Event.registers, Packet.registers, Event.Completes]
        | some cap =>
          have hd : d ≠ c := he
          simp [Event.registers, Event.Completes, hd]
      | completed job => simp [Event.registers, Packet.registers, Event.Completes]
      | execute job => simp [Event.registers, Packet.registers, Event.Completes]
      | logMessage m => simp [Event.registers, Packet.registers, Event.Completes]
    | _ => rfl
  rw [known_step hs, hreg, and_iff_left hclose]

/-- The same over a run. -/
theorem known_run_of_not_announces {peer : Peering} {n : Nat} {c : ConnId} {es : List Event} {s s' : Control}
    (hes : ∀ e ∈ es, ¬ e.Announces c) (hrun : (system peer n).run s es = some s') :
    s'.cap.Known c ↔ s.cap.Known c ∨ ∃ e ∈ es, e.Completes c := by
  induction es generalizing s with
  | nil =>
    cases hrun
    simp
  | cons e es ih =>
    obtain ⟨u, hs, hrun⟩ := Option.bind_eq_some_iff.mp hrun
    have htail := ih (fun e' he' => hes e' (List.mem_cons_of_mem e he')) hrun
    rw [htail, known_step_of_not_announces (hes e List.mem_cons_self) hs, List.exists_mem_cons_iff, or_assoc]

/-- In every state of the books: a `completed` packet for a job that is not outstanding changes nothing exactly when its connection is
known; and the first capacity that a connection announces is registered exactly when no `completed` packet came from it before. -/
theorem completion_changes_nothing_iff (peer : Peering) (n : Nat) (es : List Event) (s : Control)
    (hrun : (system peer n).run (system peer n).init es = some s) (c : ConnId) :
    (∀ job, s.cap.NotOutstanding c job →
      ∃ s', s.cap.dispatch peer c (.completed job) = .ok s' ∧ (s.cap.Unchanged s' ↔ s.cap.Known c)) ∧
    ((∀ e ∈ es, ¬ e.Announces c) → ∀ v cap,
      ((∃ s', s.cap.dispatch .serverSide c (.version v (some cap)) = .ok s' ∧
        s'.connections.find? c = some { cap := cap, work := OrdMap.empty } ∧ s'.limiter = s.cap.limiter.increaseLimit cap) ↔
          ∀ e ∈ es, ¬ e.Completes c)) := by
  constructor
  · intro job hjob
    exact ⟨s.cap.jobDoneFrom c job, rfl, Capacity.unchanged_jobDoneFrom_iff hjob⟩
  · intro hes v cap
    have hstart : ¬ (system peer n).init.cap.Known c := by
      rw [Capacity.not_known_iff]
      rfl
    rw [Capacity.registered_iff_not_known, known_run_of_not_announces hes hrun]
    simp [hstart]

/-- A connection that has announced its capacity completes a job that it was not given, and another one announces its capacity. -/
theorem completion_changes_nothing_run :
    ∃ s : Control, s.cap.Known 7 ∧
      (∃ s', s.cap.dispatch .serverSide 7 (.completed [97]) = .ok s' ∧ s.cap.Unchanged s') ∧
      ∃ s', s.cap.dispatch .serverSide 8 (.version 1 (some 2)) = .ok s' := by
  have hrun : ((system .serverSide 1).run (system .serverSide 1).init
      [.packet 7 (.version 1 (some 3)), .packet 8 (.version 1 none)]).isSome = true := by decide
  obtain ⟨s, hs⟩ := Option.isSome_iff_exists.mp hrun
  have hcap : s.cap.connections.find? 7 = some { cap := 3, work := OrdMap.empty } := by
    cases hs
    rfl
  obtain ⟨hdone, -⟩ := completion_changes_nothing_iff .serverSide 1 _ s hs 7
  obtain ⟨-, hversion⟩ := completion_changes_nothing_iff .serverSide 1 _ s hs 8
  have hnot : s.cap.NotOutstanding 7 [97] := by
    intro remote hr
    rw [hcap, Option.some.injEq] at hr
    rw [← hr]
    rfl
  obtain ⟨s', hs', hsame⟩ := hdone [97] hnot
  obtain ⟨s'', hs'', -⟩ := (hversion (by decide) 1 2).mpr (by simp [Event.Completes])
  exact ⟨s, ⟨_, hcap⟩, ⟨s', hs', hsame.mpr ⟨_, hcap⟩⟩, s'', hs''⟩

/-- A `completed` packet from a connection that is not known leaves an entry for it, and its capacity is then refused. -/
theorem completion_leaves_entry :
    ¬ ∀ (peer : Peering) (n : Nat) (s : Control), (system peer n).Reachable s → ∀ c job s', s.cap.NotOutstanding c job →
      s.cap.dispatch peer c (.completed job) = .ok s' → s.cap.Unchanged s' := by
  intro h
  have hsame := h .serverSide 1 (system .serverSide 1).init System.ReachFrom.refl 7 [97] _
    (fun remote hr => by cases hr) rfl
  have hlen := congrArg (fun m : OrdMap ConnId Remote => m.entries.length) hsame.connections
  exact absurd hlen (by decide)

end Control

end FostWright
