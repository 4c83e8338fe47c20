import FostWright.ExecHelper
import FostWright.Lemmas.Registry
import FostWright.Lib.Ledger
import Mathlib.Logic.Basic

/-!
# The jobs in flight

The texts of the jobs that a process has taken in and not finished, wherever they are: with a child, with a connection, in the
overspill or in `next_job`. Each event of the manager is one action of the abstract ledger on them, or none: a job enters, a job
is finished and printed, or a job is dropped because an equal text takes its place in the work of a connection
(`Control.step_follows`).
-/

namespace FostWright

open Lib

/-- The bag of texts as a weight. -/
def textOf (job : Line) (_ : Token) : Multiset Line := {job}

/-- The text that `next_job` was called with. -/
def NextJob.text : NextJob → Multiset Line
  | .idle => 0
  | .waiting job => {job}
  | .writing job _ _ => {job}

/-- The copies of a line in a list of lines, whichever of the two equality tests of lines counts them. -/
theorem count_coe (lines : List Line) (j : Line) : (lines : Multiset Line).count j = lines.count j := by
  rw [Multiset.coe_count]
  congr 1
  exact lawful_beq_subsingleton _ _

/-- The texts of the jobs with the children, with the connections and in the overspill. -/
def Capacity.inFlight (s : Capacity) : Multiset Line := s.weigh textOf + (s.overspill : Multiset Line)

/-- The texts of all jobs in flight, with that of the job that `next_job` has. -/
def Control.inFlight (s : Control) : Multiset Line := s.cap.inFlight + s.call.text

/-- The texts of the work of a connection are its keys. -/
theorem Remote.weigh_textOf (remote : Remote) : remote.weigh textOf = (remote.work.keys : Multiset Line) := by
  unfold Remote.weigh OrdMap.total OrdMap.keys textOf
  exact sum_map_singleton Prod.fst remote.work.entries

namespace Capacity

/-! ## One operation -/

/-- A job that is outstanding for a connection is in flight. -/
theorem count_weigh_pos {s : Capacity} {c : ConnId} {remote : Remote} {job : Line} {task : Token}
    (h : s.connections.find? c = some remote) (hj : remote.work.find? job = some task) :
    0 < (s.weigh textOf).count job := by
  rw [← weigh_erase h hj textOf, Multiset.count_add, textOf, Multiset.count_singleton_self]
  omega

/-- Giving a job to a connection puts it in flight, in the place of an equal text if there is one. -/
theorem inFlight_giveRemote {s : Capacity} {c : ConnId} {remote : Remote} (h : s.connections.find? c = some remote)
    (job : Line) (task : Token) :
    (s.giveRemote c remote job task).inFlight + (remote.work.find? job).elim 0 (textOf job) = s.inFlight + {job} := by
  have hw := weigh_giveRemote h job task textOf
  have hover : (s.giveRemote c remote job task).overspill = s.overspill := rfl
  unfold inFlight
  rw [hover, add_right_comm, hw, add_right_comm]
  rfl

/-- Pushing a job on the queue of a child with room puts it in flight. -/
theorem inFlight_pushCommand {s : Capacity} {k : Nat} {child : Childproc} (h : s.pool.children[k]? = some child)
    (hroom : child.commands.full = false) (job : Line) (task : Token) :
    (s.pushCommand k job task).inFlight = s.inFlight + {job} := by
  have hw := weigh_pushCommand h job task textOf
  rw [CircularBuffer.overwritten_of_not_full hroom, List.map_nil, List.sum_nil, add_zero] at hw
  have hover : (s.pushCommand k job task).overspill = s.overspill := by
    simp only [pushCommand, h]
  unfold inFlight
  rw [hover, hw, add_right_comm]
  rfl

/-- A line of a child is ignored, or it finishes a job with that text. -/
theorem inFlight_handleStdout (peer : Peering) (s : Capacity) (k : Nat) (ret : Line) :
    s.handleStdout peer k ret = s ∨
      ((s.handleStdout peer k ret).inFlight + {ret} = s.inFlight ∧
        (s.handleStdout peer k ret).stdout = (jobDoneCallback peer ret s).stdout ∧
        (s.handleStdout peer k ret).queue = (jobDoneCallback peer ret s).queue) := by
  rcases handleStdout_cases peer s k ret with hsame | ⟨child, job, child', hk, hc, hdone⟩
  · exact Or.inl hsame
  · obtain ⟨-, hret, -, -⟩ := Childproc.handleStdout_eq_some hc
    have hw := weigh_handleStdout peer hk hc textOf
    have hover : (s.handleStdout peer k ret).overspill = s.overspill := by rw [hdone, (jobDoneCallback_keeps _ _ _).2.1]
    refine Or.inr ⟨?_, ?_, ?_⟩
    · unfold inFlight
      rw [hover, add_right_comm, ← hw, textOf, hret]
    · rw [hdone]
      cases peer <;> rfl
    · rw [hdone]
      cases peer <;> rfl

/-- A `completed` packet finishes a job that is outstanding for its connection and prints it, and changes nothing else in
flight. -/
theorem inFlight_jobDoneFrom (s : Capacity) (c : ConnId) (job : Line) :
    ((s.jobDoneFrom c job).inFlight = s.inFlight ∧ (s.jobDoneFrom c job).stdout = s.stdout) ∨
      ((s.jobDoneFrom c job).inFlight + {job} = s.inFlight ∧ (s.jobDoneFrom c job).stdout = s.stdout ++ [job]) := by
  have hw := weigh_remoteAt s c textOf
  have hf := find?_remoteAt s c
  have hover := (s.jobDoneFrom_keeps c job).2.1
  have hout : (s.remoteAt c).1.stdout = s.stdout := by rw [remoteAt_eq]
  unfold inFlight
  rw [hover]
  rcases s.jobDoneFrom_cases c job with ⟨-, hdone⟩ | ⟨task, hj, hdone⟩
  · rw [hdone]
    exact Or.inl ⟨congrArg (· + _) hw, hout⟩
  · have he := weigh_erase hf hj textOf
    rw [hdone, ← hw, ← he, ← hout]
    exact Or.inr ⟨add_right_comm _ _ _, rfl⟩

/-- Forgetting a connection moves its work to the overspill: nothing enters or leaves the jobs in flight. -/
theorem inFlight_overspillWork (s : Capacity) (c : ConnId) : (s.overspillWork c).inFlight = s.inFlight := by
  cases hf : s.connections.find? c with
  | none => simp only [overspillWork, hf]
  | some remote =>
    have hw := weigh_overspillWork hf textOf
    have hover : (s.overspillWork c).overspill = s.overspill ++ remote.work.keys := by
      simp only [overspillWork, hf]
    unfold inFlight
    rw [hover, ← hw, remote.weigh_textOf, ← Multiset.coe_add]
    abel

/-- Registering a connection changes nothing in flight. -/
theorem inFlight_additional {s s' : Capacity} {c : ConnId} {cap : Nat} (h : s.additional c cap = .ok s') :
    s'.inFlight = s.inFlight ∧ s'.stdout = s.stdout := by
  unfold inFlight
  rw [weigh_additional h textOf, (additional_eq_ok h).2]
  exact ⟨rfl, rfl⟩

/-- A resend changes nothing in flight. -/
theorem inFlight_resendJobs (s : Capacity) (k : Nat) :
    (s.resendJobs k).inFlight = s.inFlight ∧ (s.resendJobs k).stdout = s.stdout := by
  unfold resendJobs
  split
  · split <;> exact ⟨rfl, rfl⟩
  · exact ⟨rfl, rfl⟩

end Capacity

/-! ## One event -/

/-- A job that `next_job` takes from the overspill stays in flight. -/
theorem Control.inFlight_consume {peer : Peering} {s s' : Control} (hs : s.step peer .consume = some s') :
    s'.inFlight = s.inFlight := by
  obtain ⟨job, rest, hcall, hover, rfl⟩ := step_consume hs
  unfold inFlight Capacity.inFlight
  rw [hcall, hover, ← Multiset.cons_coe, ← Multiset.singleton_add]
  change s.cap.weigh textOf + _ + {job} = s.cap.weigh textOf + _ + 0
  abel

/-- A job that `next_job` has written to a child with room stays in flight. -/
theorem Control.inFlight_written {peer : Peering} {n : Nat} {s s' : Control} (ha : s.Accounted n)
    (hs : s.step peer .written = some s') : s'.inFlight = s.inFlight := by
  obtain ⟨job, task, k, hcall, rfl⟩ := step_written hs
  obtain ⟨child, hk, hroom⟩ := ha.room job task k hcall
  unfold inFlight
  rw [Capacity.inFlight_pushCommand hk hroom, hcall]
  exact add_zero _

/-- The jobs that an event brings in from outside. -/
def Event.entering : Event → List Line
  | .nextJob job => [job]
  | .packet _ p => p.jobs
  | _ => []

/-- A token handed out now does not put a job in the place of an equal text: the connection with spare capacity that `next_job`
gives it to has no outstanding job with that text. -/
def Control.GivesFresh (s : Control) (e : Event) : Prop :=
  match e, s.call, s.cap.spare with
  | .token, .waiting job, some (_, remote) => (remote.work.find? job).isNone = true
  | _, _, _ => True

instance (s : Control) (e : Event) : Decidable (s.GivesFresh e) := by
  unfold Control.GivesFresh
  split <;> infer_instance

/-- The ledger shows the jobs in flight and the jobs printed. -/
structure Control.Shows (s : Control) (l : Ledger Line) : Prop where
  outstanding : l.outstanding = s.inFlight
  done : l.done = (s.cap.stdout : Multiset Line)

namespace Control

/-- What an event does to a ledger: nothing, or one action, which drops a job only when an equal text takes its place. -/
def Follows (s : Control) (e : Event) (l l' : Ledger Line) : Prop :=
  l'.entered = l.entered + (e.entering : Multiset Line) ∧
    (l' = l ∨ ∃ a, l.next a = some l' ∧ (s.GivesFresh e → Ledger.Lossless l a))

/-- An event that changes nothing in flight and prints nothing leaves the ledger alone. -/
theorem follows_idle {s s' : Control} {e : Event} {l : Ledger Line} (hl : s.Shows l) (he : e.entering = [])
    (hflight : s'.inFlight = s.inFlight) (hout : s'.cap.stdout = s.cap.stdout) : ∃ l', s'.Shows l' ∧ s.Follows e l l' := by
  refine ⟨l, ⟨hl.outstanding.trans hflight.symm, hl.done.trans (by rw [hout])⟩, ?_, Or.inl rfl⟩
  rw [he, Multiset.coe_nil, add_zero]

/-- An event that brings a job in enters it in the ledger. -/
theorem follows_enter {s s' : Control} {e : Event} {l : Ledger Line} {job : Line} (hl : s.Shows l)
    (he : e.entering = [job]) (hflight : s'.inFlight = s.inFlight + {job}) (hout : s'.cap.stdout = s.cap.stdout) :
    ∃ l', s'.Shows l' ∧ s.Follows e l l' := by
  refine ⟨_, ⟨?_, ?_⟩, ?_, Or.inr ⟨.enter job, rfl, fun _ => trivial⟩⟩
  · change job ::ₘ l.outstanding = _
    rw [hl.outstanding, hflight, ← Multiset.singleton_add, add_comm]
  · rw [hout]
    exact hl.done
  · rw [he, Multiset.coe_singleton, add_comm, Multiset.singleton_add]

/-- An event that prints a job and takes it out of flight finishes it in the ledger. -/
theorem follows_finish {s s' : Control} {e : Event} {l : Ledger Line} {job : Line} (hl : s.Shows l)
    (he : e.entering = []) (hflight : s'.inFlight + {job} = s.inFlight) (hout : s'.cap.stdout = s.cap.stdout ++ [job]) :
    ∃ l', s'.Shows l' ∧ s.Follows e l l' := by
  have hmem : job ∈ l.outstanding := by
    rw [hl.outstanding, ← hflight]
    exact Multiset.mem_add.mpr (Or.inr (Multiset.mem_singleton_self job))
  refine ⟨_, ⟨?_, ?_⟩, ?_, Or.inr ⟨.finish job, if_pos hmem, fun _ => trivial⟩⟩
  · change l.outstanding.erase job = _
    rw [hl.outstanding, ← hflight, add_comm, Multiset.singleton_add, Multiset.erase_cons_head]
  · change job ::ₘ l.done = _
    rw [hout, hl.done, ← Multiset.coe_add, Multiset.coe_singleton, add_comm, Multiset.singleton_add]
  · rw [he, Multiset.coe_nil, add_zero]

/-- A token event moves the job of `next_job` to a connection or keeps it for a child. It drops a job when the connection has one
with an equal text. -/
theorem follows_token {s s' : Control} {l : Ledger Line} (hl : s.Shows l) (hs : s.step .serverSide .token = some s') :
    ∃ l', s'.Shows l' ∧ s.Follows .token l l' := by
  obtain ⟨job, task, limiter, hcall, hlim, hplace⟩ := step_token hs
  rcases placeJob_cases hplace with ⟨c, remote, hsp, rfl⟩ | ⟨-, k, hk, rfl⟩
  · obtain ⟨hc, -, -⟩ := Capacity.spare_eq_some hsp
    have hgive := Capacity.inFlight_giveRemote hc job task
    cases hj : remote.work.find? job with
    | none =>
      rw [hj, Option.elim_none, add_zero] at hgive
      refine follows_idle hl rfl ?_ rfl
      unfold inFlight
      rw [hgive, hcall]
      exact add_zero _
    | some old =>
      rw [hj, Option.elim_some] at hgive
      have hflight : (s.cap.inFlight + {job} : Multiset Line) = s.inFlight := by
        unfold inFlight
        rw [hcall]
        rfl
      have hmem : job ∈ l.outstanding := by
        rw [hl.outstanding, ← hflight]
        exact Multiset.mem_add.mpr (Or.inr (Multiset.mem_singleton_self job))
      refine ⟨{ l with outstanding := l.outstanding.erase job, dropped := job ::ₘ l.dropped }, ⟨?_, hl.done⟩, ?_,
        Or.inr ⟨.drop job, if_pos hmem, ?_⟩⟩
      · have hdrop : (s.cap.inFlight + {job} : Multiset Line) =
            ((s.cap.accept limiter).giveRemote c remote job task).inFlight + {job} := hgive.symm
        change l.outstanding.erase job = _
        rw [hl.outstanding, ← hflight, hdrop, add_comm, Multiset.singleton_add, Multiset.erase_cons_head]
        exact (add_zero _).symm
      · exact (add_zero _).symm
      · intro hfresh
        have hspare : s.cap.spare = some (c, remote) := hsp
        unfold GivesFresh at hfresh
        simp only [hcall, hspare, hj] at hfresh
        cases hfresh
  · refine follows_idle hl rfl ?_ rfl
    unfold inFlight
    rw [hcall]
    rfl

/-- A packet of a connection brings in the job of an `execute`, finishes the job of a `completed` that is outstanding, and changes
nothing else in flight. -/
theorem follows_packet {s : Control} {cap : Capacity} {c : ConnId} {packet : Packet} {l : Ledger Line} (hl : s.Shows l)
    (hd : s.cap.dispatch .serverSide c packet = .ok cap) :
    ∃ l', ({ s with cap := cap } : Control).Shows l' ∧ s.Follows (.packet c packet) l l' := by
  cases packet with
  | version v capacity =>
    have hkeep : cap.inFlight = s.cap.inFlight ∧ cap.stdout = s.cap.stdout := by
      rcases Capacity.dispatch_version hd with rfl | ⟨cap', ha⟩
      · exact ⟨rfl, rfl⟩
      · exact Capacity.inFlight_additional ha
    refine follows_idle hl rfl ?_ hkeep.2
    unfold inFlight
    rw [hkeep.1]
  | execute job =>
    cases hd
    refine follows_enter hl rfl ?_ rfl
    unfold inFlight Capacity.inFlight Capacity.inExecute
    rw [← Multiset.coe_add, Multiset.coe_singleton]
    change s.cap.weigh textOf + _ + _ = _
    abel
  | completed job =>
    cases hd
    rcases Capacity.inFlight_jobDoneFrom s.cap c job with ⟨hflight, hout⟩ | ⟨hflight, hout⟩
    · refine follows_idle hl rfl ?_ hout
      unfold inFlight
      rw [hflight]
    · refine follows_finish hl rfl ?_ hout
      unfold inFlight
      rw [← hflight, add_right_comm]
  | logMessage m =>
    cases hd
    exact follows_idle hl rfl rfl rfl

/-- A packet whose handler throws brings no job in. -/
theorem jobs_of_dispatch_error {peer : Peering} {s : Capacity} {c : ConnId} {packet : Packet} {error : String}
    (h : s.dispatch peer c packet = .error error) : packet.jobs = [] := by
  cases packet with
  | execute job => cases h
  | _ => rfl

/-- One event of the manager is one action of the ledger, or none. -/
theorem step_follows {n : Nat} {s s' : Control} {e : Event} {l : Ledger Line} (ha : s.Accounted n) (hl : s.Shows l)
    (hs : s.step .serverSide e = some s') :
    ∃ l', s'.Shows l' ∧ s.Follows e l l' := by
  cases e with
  | nextJob job =>
    obtain ⟨hcall, rfl⟩ := step_nextJob hs
    refine follows_enter hl rfl ?_ rfl
    unfold inFlight
    rw [hcall]
    exact congrArg (· + _) (add_zero _).symm
  | consume =>
    refine follows_idle hl rfl (inFlight_consume hs) ?_
    obtain ⟨_, _, _, _, rfl⟩ := step_consume hs
    rfl
  | token => exact follows_token hl hs
  | written =>
    refine follows_idle hl rfl (inFlight_written ha hs) ?_
    obtain ⟨job, task, k, hcall, rfl⟩ := step_written hs
    unfold Capacity.pushCommand
    split <;> rfl
  | stdout k ret =>
    cases hs
    rcases Capacity.inFlight_handleStdout .serverSide s.cap k ret with h | ⟨hflight, hout, -⟩
    · refine follows_idle hl rfl ?_ ?_
      · unfold inFlight
        rw [h]
      · rw [h]
    · refine follows_finish hl rfl ?_ hout
      unfold inFlight
      rw [← hflight, add_right_comm]
  | resend k =>
    cases hs
    obtain ⟨hflight, hout⟩ := Capacity.inFlight_resendJobs s.cap k
    refine follows_idle hl rfl ?_ hout
    unfold inFlight
    rw [hflight]
  | packet c packet =>
    rcases step_packet hs with ⟨cap, hd, rfl⟩ | ⟨⟨error, hd⟩, rfl⟩
    · exact follows_packet hl hd
    · exact follows_idle hl (jobs_of_dispatch_error hd) rfl rfl
  | overspillWork c =>
    cases hs
    refine follows_idle hl rfl ?_ ?_
    · unfold inFlight
      rw [Capacity.inFlight_overspillWork]
    · unfold Capacity.overspillWork
      split <;> rfl
  | expire c =>
    cases hs
    exact follows_idle hl rfl rfl rfl
  | inputComplete =>
    cases hs
    exact follows_idle hl rfl rfl rfl
  | tick d =>
    cases hs
    exact follows_idle hl rfl rfl rfl

end Control

/-! ## One action of the manager -/

namespace ExecHelper

/-- The condition on the token event, for the actions of the manager. -/
def GivesFresh (s : ExecHelper) : Action → Prop
  | .internal e => s.control.GivesFresh e
  | _ => True

instance (s : ExecHelper) (a : Action) : Decidable (s.GivesFresh a) :=
  match a with
  | .internal e => inferInstanceAs (Decidable (s.control.GivesFresh e))
  | .consume => instDecidableTrue
  | .drained => instDecidableTrue
  | .line _ => instDecidableTrue
  | .eof => instDecidableTrue
  | .allDone => instDecidableTrue
  | .inbound _ _ => instDecidableTrue
  | .closed _ => instDecidableTrue
  | .expire _ => instDecidableTrue

/-- The jobs that came in so far. -/
def submitted (s : ExecHelper) : Multiset Line := (s.read : Multiset Line) + (s.executed : Multiset Line)

/-- What an action does to the books: nothing, or one event about the same connection, whose jobs are those that came in. -/
theorem step_event {s s' : ExecHelper} {a : Action} (h : s.step a = some s') :
    (s'.control = s.control ∧ s'.submitted = s.submitted) ∨
      ∃ e, s.control.step .serverSide e = some s'.control ∧ e.about = a.about ∧
        s'.submitted = s.submitted + (e.entering : Multiset Line) ∧ (s.GivesFresh a → s.control.GivesFresh e) := by
  cases steps_of_step h with
  | consume _ hc => exact Or.inr ⟨.consume, hc, rfl, (add_zero _).symm, fun _ => trivial⟩
  | drained => exact Or.inl ⟨rfl, rfl⟩
  | drainedLast _ _ _ hc => exact Or.inr ⟨.inputComplete, hc, rfl, (add_zero _).symm, fun _ => trivial⟩
  | @line l _ _ hc =>
    refine Or.inr ⟨.nextJob l, hc, rfl, ?_, fun _ => trivial⟩
    simp only [submitted, Event.entering, ← Multiset.coe_add]
    rw [add_right_comm]
  | eof => exact Or.inl ⟨rfl, rfl⟩
  | allDone => exact Or.inl ⟨rfl, rfl⟩
  | @inbound c packet _ _ hd =>
    refine Or.inr ⟨.packet c packet, by simp only [Control.step, hd], rfl, ?_, fun _ => trivial⟩
    simp only [submitted, Event.entering, ← Multiset.coe_add]
    rw [add_assoc]
  | @thrown c => exact Or.inr ⟨.overspillWork c, rfl, rfl, (add_zero _).symm, fun _ => trivial⟩
  | @closed c => exact Or.inr ⟨.overspillWork c, rfl, rfl, (add_zero _).symm, fun _ => trivial⟩
  | @expire c _ _ hc => exact Or.inr ⟨.expire c, hc, rfl, (add_zero _).symm, fun _ => trivial⟩
  | @internal e _ he hc =>
    have hnone : e.entering = [] ∧ e.about = none := by
      cases e <;> first | exact ⟨rfl, rfl⟩ | cases he
    refine Or.inr ⟨e, hc, hnone.2, ?_, id⟩
    rw [hnone.1]
    exact (add_zero _).symm

end ExecHelper

/-! ## What puts nothing new on the books -/

/-- The overspill stays as it is and no token is made. -/
structure Capacity.NothingNew (s s' : Capacity) : Prop where
  overspill : s'.overspill = s.overspill
  live : s'.limiter.live ≤ s.limiter.live

namespace Capacity

theorem nothingNew_refl (s : Capacity) : s.NothingNew s := ⟨rfl, le_rfl⟩

theorem nothingNew_handleStdout (s : Capacity) (k : Nat) (ret : Line) : s.NothingNew (s.handleStdout .serverSide k ret) := by
  rcases handleStdout_cases .serverSide s k ret with hsame | ⟨_, _, _, -, -, hdone⟩
  · rw [hsame]
    exact s.nothingNew_refl
  · rw [hdone]
    exact ⟨rfl, Multiset.erase_le _ _⟩

theorem nothingNew_resendJobs (s : Capacity) (k : Nat) : s.NothingNew (s.resendJobs k) := by
  unfold resendJobs
  split
  · split <;> exact ⟨rfl, le_rfl⟩
  · exact s.nothingNew_refl

theorem nothingNew_jobDoneFrom (s : Capacity) (c : ConnId) (job : Line) : s.NothingNew (s.jobDoneFrom c job) :=
  ⟨(s.jobDoneFrom_keeps c job).2.1, (s.steady_jobDoneFrom c job).live⟩

/-- A packet that is handled and brings no job in. -/
theorem nothingNew_dispatch {s s' : Capacity} {c : ConnId} {packet : Packet} (h : s.dispatch .serverSide c packet = .ok s')
    (hjobs : packet.jobs = []) : s.NothingNew s' := by
  cases packet with
  | version v capacity =>
    rcases dispatch_version h with rfl | ⟨cap, ha⟩
    · exact s'.nothingNew_refl
    · rw [(additional_eq_ok ha).2]
      exact ⟨rfl, le_rfl⟩
  | execute job => cases hjobs
  | completed job =>
    cases h
    exact s.nothingNew_jobDoneFrom c job
  | logMessage m =>
    cases h
    exact s.nothingNew_refl

/-- A connection without outstanding work is forgotten. -/
theorem nothingNew_overspillWork {s : Capacity} {c : ConnId}
    (h : ∀ remote, s.connections.find? c = some remote → remote.work.size = 0) : s.NothingNew (s.overspillWork c) := by
  refine ⟨?_, (s.steady_overspillWork c).live⟩
  unfold overspillWork
  split
  · rename_i remote hc
    have hnil : remote.work.entries = [] := List.length_eq_zero_iff.mp (h remote hc)
    simp only [OrdMap.keys, hnil, List.map_nil, List.append_nil]
  · rfl

end Capacity

/-- While `next_job` is not called, the limiter, the children and the clock put nothing new on the books. -/
theorem Control.nothingNew_internal {s s' : Control} {e : Event} (he : e.internal = true) (hcall : s.call = .idle)
    (hs : s.step .serverSide e = some s') : s'.call = .idle ∧ s.cap.NothingNew s'.cap := by
  cases e with
  | token =>
    obtain ⟨job, _, _, hwait, -⟩ := step_token hs
    rw [hcall] at hwait
    cases hwait
  | written =>
    obtain ⟨job, _, _, hwrite, -⟩ := step_written hs
    rw [hcall] at hwrite
    cases hwrite
  | stdout k ret =>
    cases hs
    exact ⟨hcall, s.cap.nothingNew_handleStdout k ret⟩
  | resend k =>
    cases hs
    exact ⟨hcall, s.cap.nothingNew_resendJobs k⟩
  | tick d =>
    cases hs
    exact ⟨hcall, rfl, le_rfl⟩
  | _ => cases he

end FostWright
