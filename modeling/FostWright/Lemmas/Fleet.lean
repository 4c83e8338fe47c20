import FostWright.Theorems.Network
import FostWright.Theorems.Workers

/-!
# A client among workers

A client has only jobs that were given to it, which were lines of stdin. Without the children, what happens at a connection is a step of one of
its ends, which leaves the children of that end as they are or begins to write a job to one of them.
-/

namespace FostWright

open Lib

namespace Net

/-! ## What a client has -/

/-- The jobs on their way to the client and in it are among those that were given to it. -/
def Holds (c : ConnId) (s : Net) : Prop :=
  ((s.outward c).flatMap Packet.jobs : Multiset Line) + s.client.inFlight ≤ (s.dispatched : Multiset Line)

theorem holds_init (n m overspillCap : Nat) (c : ConnId) : (system n m overspillCap c).init.Holds c := by
  have hclient := (inv_init n m overspillCap c).idle rfl
  unfold Holds
  rw [hclient]
  exact le_rfl

/-- Where packets go on and jobs are done, nothing is added. -/
theorem Holds.moved {c : ConnId} {s t : Net} (h : s.Holds c) (hdispatched : t.dispatched = s.dispatched)
    (hjobs : ((t.outward c).flatMap Packet.jobs : Multiset Line) + t.client.inFlight ≤
      ((s.outward c).flatMap Packet.jobs : Multiset Line) + s.client.inFlight) : t.Holds c := by
  unfold Holds at h ⊢
  rw [hdispatched]
  exact hjobs.trans h

/-- Where only packets to the client go on, without a job that was not among them. -/
theorem Holds.outward {c : ConnId} {s t : Net} (h : s.Holds c) (hdispatched : t.dispatched = s.dispatched)
    (hclient : t.client.inFlight = s.client.inFlight) (hjobs : (t.outward c).flatMap Packet.jobs = (s.outward c).flatMap Packet.jobs) :
    t.Holds c := by
  refine h.moved hdispatched ?_
  rw [hclient, hjobs]

/-- A packet brings its jobs to the client. -/
theorem inFlight_processInbound {m : Nat} {s : Control} (ha : s.Accounted m) (hb : s.cap.Bare) (c : ConnId) (packet : Packet) :
    ({ s with cap := s.cap.processInbound (.clientSide c) c packet } : Control).inFlight = (packet.jobs : Multiset Line) + s.inFlight := by
  obtain ⟨hover, hpool, -⟩ := s.cap.processInbound_client c packet
  rw [Control.inFlight_of_bare (ha.processInbound c packet) (Capacity.bare_processInbound hb c packet), Control.inFlight_of_bare ha hb]
  unfold Capacity.weighChildren
  simp only [hover, hpool, ← Multiset.coe_add]
  abel

/-- One action. -/
theorem Holds.step {n m overspillCap : Nat} {c : ConnId} {s s' : Net} {a : Action} (hsound : s.Sound n m overspillCap c) (h : s.Holds c)
    (hs : s.step overspillCap c a = some s') : s'.Holds c := by
  cases steps_of_step hs with
  | @server a server habout hstep =>
    unfold Holds Net.outward at h ⊢
    rcases ExecHelper.step_frame habout hstep with ⟨-, hqueue⟩ | ⟨remote, job, task, -, -, hqueue⟩
    · simp only [hqueue, List.drop_length, List.flatMap_nil, List.append_nil]
      exact h
    · have hgiven : [Packet.execute job].flatMap Packet.jobs = [job] := rfl
      simp only [hqueue, List.drop_left, ← List.append_assoc, List.flatMap_append, hgiven, ← Multiset.coe_add] at h ⊢
      rw [add_right_comm]
      exact add_le_add_left h _
  | client he hstep =>
    refine h.moved rfl (add_le_add_right ?_ _)
    rcases (Control.step_client hsound.inv.client hsound.inv.bare he hstep).2 with ⟨hsame, -⟩ | ⟨ret, hless, -⟩
    · exact hsame.le
    · exact hless ▸ Multiset.le_add_right _ _
  | accepted =>
    refine h.outward rfl rfl ?_
    unfold Net.outward
    simp [ExecHelper.withCap, Capacity.established, Capacity.produce, Capacity.outVersion, Packet.jobs]
  | connected => exact h.outward rfl rfl rfl
  | @serverSends packet cap htaken =>
    obtain ⟨hqueue, hcap⟩ := Capacity.consumePacket_eq_some htaken
    refine h.outward rfl rfl ?_
    unfold Net.outward
    simp only [ExecHelper.withCap_cap, hqueue, List.append_assoc, List.singleton_append]
  | @clientSends packet cap htaken =>
    obtain ⟨-, hcap⟩ := Capacity.consumePacket_eq_some htaken
    refine h.outward rfl ?_ rfl
    rw [hcap]
    rfl
  | @serverReceives packet rest server hreceived _ _ hstep =>
    refine h.outward rfl rfl ?_
    have hqueue : server.control.cap.queue = s.server.control.cap.queue := by
      cases ExecHelper.steps_of_step hstep with
      | inbound _ hhandled => exact Capacity.queue_dispatch hhandled
      | thrown => exact Capacity.queue_overspillWork _ _
    unfold Net.outward
    rw [hqueue]
  | serverWarns => exact h.outward rfl rfl rfl
  | @clientReceives packet rest hreceived =>
    refine h.moved rfl ?_
    rw [inFlight_processInbound hsound.inv.client hsound.inv.bare]
    unfold Net.outward
    simp only [hreceived, List.cons_append, List.flatMap_cons, ← Multiset.coe_add]
    refine le_of_eq ?_
    abel
  | @clientWarns packet rest hreceived =>
    refine h.moved rfl (add_le_add_left ?_ _)
    unfold Net.outward
    simp only [hreceived, List.cons_append, List.flatMap_cons, ← Multiset.coe_add]
    exact Multiset.le_add_left _ _
  | serverLogs =>
    refine h.outward rfl rfl ?_
    unfold Net.outward
    simp [ExecHelper.withCap, Capacity.produce, Packet.jobs]
  | clientLogs => exact h.outward rfl rfl rfl
  | close => exact h.outward rfl rfl rfl
  | serverCloses _ hstep =>
    refine h.outward rfl rfl ?_
    cases ExecHelper.steps_of_step hstep with
    | closed =>
      unfold Net.outward
      rw [← Capacity.queue_overspillWork s.server.control.cap c]

/-- The jobs of a client were given to it. -/
theorem Holds.mem_dispatched {c : ConnId} {s : Net} (h : s.Holds c) : ∀ job ∈ s.client.inFlight, job ∈ s.dispatched :=
  fun _ hjob => Multiset.mem_coe.mp (Multiset.mem_of_le h (Multiset.mem_add.mpr (Or.inr hjob)))

/-- What is given to the client is then outstanding. -/
theorem mem_dispatched_of_step {overspillCap : Nat} {c : ConnId} {s s' : Net} {a : Action} (hs : s.step overspillCap c a = some s') {job : Line}
    (hjob : job ∈ s'.dispatched) : job ∈ s.dispatched ∨ job ∈ s'.server.control.inFlight := by
  cases steps_of_step hs with
  | @server a server habout hstep =>
    rcases ExecHelper.step_frame habout hstep with ⟨-, hqueue⟩ | ⟨remote, given, task, -, hfind, hqueue⟩
    · simp only [hqueue, List.drop_length, List.flatMap_nil, List.append_nil] at hjob
      exact Or.inl hjob
    · simp only [hqueue, List.drop_left] at hjob
      rcases List.mem_append.mp hjob with hjob | hjob
      · exact Or.inl hjob
      · obtain rfl : job = given := List.mem_singleton.mp hjob
        have houtstanding : job ∈ server.control.cap.outstanding c := by
          rw [Capacity.outstanding, hfind, Option.elim_some, Remote.mem_weigh_textOf]
          exact ⟨task, OrdMap.find?_insert_self _ _ _⟩
        exact Or.inr (Multiset.mem_add.mpr (Or.inl (Multiset.mem_of_le (Capacity.outstanding_le_inFlight _ c) houtstanding)))
  | _ => exact Or.inl hjob

end Net

namespace ExecHelper

/-- What was read stays. -/
theorem read_subset {s s' : ExecHelper} {a : Action} (hs : s.step a = some s') : s.read ⊆ s'.read := by
  cases steps_of_step hs with
  | line => exact List.subset_append_left _ _
  | _ => exact List.Subset.refl _

end ExecHelper

namespace Network

theorem client_relink_self (s : Network) (c : ConnId) (t : Net) : ((s.relink c t).side c).client = t.client := by
  simp only [relink, Function.update_self]

theorem client_relink_other (s : Network) {c d : ConnId} (hd : d ≠ c) (t : Net) :
    ((s.relink c t).side d).client = (s.side d).client := by
  simp only [relink, Function.update_of_ne hd]

/-- What holds of the clients in every run without empty jobs. -/
theorem holds_of_reach {n : Nat} {m : ConnId → Nat} {overspillCap : Nat} {clients : Finset ConnId} {s : Network}
    (h : (system n m overspillCap clients).Reach NonEmptyJobs s) (c : ConnId) : (s.link c).Holds c := by
  refine h.invariant₂ (J := Sound n m overspillCap) (I := fun s => ∀ c, (s.link c).Holds c) (fun _ hu => sound_of_reach hu)
    (fun c => Net.holds_init n (m c) overspillCap c) ?_ c
  intro s a s' hsound hi _ hs d
  cases steps_of_step hs with
  | server habout hstep => exact (hi d).step (hsound d) (step_withServer overspillCap habout hstep d)
  | @link c a t hown _ hstep =>
    by_cases hd : d = c
    · subst hd
      rw [relink_self]
      exact (hi d).step (hsound d) hstep
    · rw [relink_other s hd]
      refine (hi d).outward rfl rfl ?_
      have hqueue : t.server.control.cap.queue d = (s.link d).server.control.cap.queue d := by
        rcases Net.server_of_step (hsound c).handshake hown hstep with ⟨queue, hqueue, hserver⟩ | ⟨_, -, -, hqueue⟩
        · rw [hserver]
          exact hqueue d hd
        · exact congrFun hqueue d
      unfold Net.outward
      simp only [hqueue]

/-- What was given to a client is a line of stdin. -/
theorem mem_read_of_dispatched {n : Nat} {m : ConnId → Nat} {overspillCap : Nat} {clients : Finset ConnId} {s : Network}
    (h : (system n m overspillCap clients).Reach DistinctLines s) (c : ConnId) : ∀ job ∈ (s.link c).dispatched, job ∈ s.server.read := by
  refine h.invariant₂ (J := (system n m overspillCap clients).Reach DistinctLines)
    (I := fun s => ∀ c, ∀ job ∈ (s.link c).dispatched, job ∈ s.server.read) (fun _ hu => hu) (fun _ _ hjob => absurd hjob List.not_mem_nil) ?_ c
  intro s a s' hreach hi hok hs d job hjob
  have hsound := sound_of_reach (hreach.mono nonEmptyJobs_of_distinct)
  have hflight : job ∈ s'.server.control.inFlight → job ∈ s'.server.read := by
    intro hin
    rw [← Multiset.mem_coe, (read_of_distinct (hreach.step a hok hs)).2]
    exact Multiset.mem_add.mpr (Or.inr hin)
  cases steps_of_step hs with
  | server habout hstep =>
    rcases Net.mem_dispatched_of_step (step_withServer overspillCap habout hstep d) hjob with hold | hnew
    · exact ExecHelper.read_subset hstep (hi d job hold)
    · exact hflight hnew
  | @link c a t hown _ hstep =>
    have hread : s.server.read ⊆ t.server.read := by
      rcases Net.server_of_step (hsound c).handshake hown hstep with ⟨queue, -, hserver⟩ | ⟨b, -, hserver, -⟩
      · rw [hserver]
        exact List.Subset.refl _
      · exact ExecHelper.read_subset hserver
    by_cases hd : d = c
    · subst hd
      rw [relink_self] at hjob
      rcases Net.mem_dispatched_of_step hstep hjob with hold | hnew
      · exact hread (hi d job hold)
      · exact hflight hnew
    · rw [relink_other s hd] at hjob
      exact hread (hi d job hjob)

end Network

/-! ## One process at a time -/

namespace Net

/-- What happens at a connection without the children leaves the books of one end as they are, and the children of the other. -/
theorem leaves_step {n m overspillCap : Nat} {c : ConnId} {s t : Net} {a : Action} (hsound : t.Sound n m overspillCap c)
    (hserver : ∀ job ∈ t.server.control.inFlight, Answerable job) (hclient : ∀ job ∈ t.client.inFlight, Answerable job)
    (hown : ∀ b, a ≠ .server b) (hevent : ∀ e, a = .client e → e.ofChildren = false)
    (hs : s.step overspillCap c a = some t) :
    (Slot.Leaves (s.server.control.slots n) (t.server.control.slots n) ∧ t.client = s.client) ∨
      (t.server.control = s.server.control ∧ Slot.Leaves (s.client.slots m) (t.client.slots m)) := by
  have hkept : ∀ (k : Nat) {u v : Control}, v.cap.pool = u.cap.pool → v.call = u.call → v.cap.inputComplete = u.cap.inputComplete →
      Slot.Leaves (u.slots k) (v.slots k) :=
    fun k _ _ hpool hcall hflag => Control.leaves_of_pool k hpool (fun _ => by rw [hcall]) (Or.inl hflag)
  cases steps_of_step hs with
  | server => exact absurd rfl (hown _)
  | @client e client he hstep =>
    have hfree := hevent e rfl
    refine Or.inr ⟨rfl, Control.leaves_step hsound.inv.client (fun job hjob => hclient job (Multiset.mem_add.mpr (Or.inr hjob))) hstep ?_ ?_⟩
    · rintro rfl
      cases hfree
    · rintro k ret rfl
      cases hfree
  | accepted => exact Or.inl ⟨hkept n rfl rfl rfl, rfl⟩
  | connected => exact Or.inr ⟨rfl, hkept m rfl rfl rfl⟩
  | serverSends htaken =>
    obtain ⟨-, hcap⟩ := Capacity.consumePacket_eq_some htaken
    rw [hcap]
    exact Or.inl ⟨hkept n rfl rfl rfl, rfl⟩
  | clientSends htaken =>
    obtain ⟨-, hcap⟩ := Capacity.consumePacket_eq_some htaken
    rw [hcap]
    exact Or.inr ⟨rfl, hkept m rfl rfl rfl⟩
  | serverReceives _ _ _ hstep => exact Or.inl ⟨ExecHelper.leaves_step hsound.inv.server hserver rfl hstep, rfl⟩
  | serverWarns => exact Or.inl ⟨hkept n rfl rfl rfl, rfl⟩
  | @clientReceives packet =>
    have hevent : s.client.step (.clientSide c) (.packet c packet) =
        some { s.client with cap := s.client.cap.processInbound (.clientSide c) c packet } := by
      simp only [Control.step, Capacity.processInbound]
      cases s.client.cap.dispatch (.clientSide c) c packet <;> rfl
    have hflag := Control.inputComplete_step (fun he => by cases he) hevent
    exact Or.inr ⟨rfl, hkept m (s.client.cap.processInbound_client c packet).2.1 rfl hflag⟩
  | clientWarns => exact Or.inl ⟨hkept n rfl rfl rfl, rfl⟩
  | serverLogs => exact Or.inl ⟨hkept n rfl rfl rfl, rfl⟩
  | clientLogs => exact Or.inr ⟨rfl, hkept m rfl rfl rfl⟩
  | close => exact Or.inl ⟨hkept n rfl rfl rfl, rfl⟩
  | serverCloses _ hstep => exact Or.inl ⟨ExecHelper.leaves_step (a := .closed c) hsound.inv.server hserver rfl hstep, rfl⟩

end Net

end FostWright
