import FostWright.Theorems.Handshake
import FostWright.Theorems.Progress

/-!
# One connection of many

What holds of the server and one of its clients in every run without empty jobs (`Net.Sound`), also when the server has others: it is kept
by what happens at the two ends, and by what the server does about another connection. A job that the server gives away costs a packet
there, its work in the client and a packet back, and where nothing can go on at the client and on the way no job is left there.
-/

namespace FostWright

open Lib

namespace Control

/-- A connection that is forgotten: its jobs cost no more than before, where each outstanding job cost enough to do it again. -/
theorem remaining_overspillWork {n : Nat} (d : Nat) {s : Control} (ha : s.Accounted n) (c : ConnId) :
    ({ s with cap := s.cap.overspillWork c } : Control).remaining d 8 ≤ s.remaining (d + 12) 8 := by
  have ha' : ({ s with cap := s.cap.overspillWork c } : Control).Accounted n := @Control.Accounted.step .serverSide n s _ (.overspillWork c) ha rfl
  have hflight := congrArg Multiset.card (s.cap.inFlight_overspillWork c)
  have hcard := fun t : Capacity => (t.card_weigh (w := textOf) (fun _ _ => rfl)).trans (t.card_weigh (w := tokenOf) (fun _ _ => rfl)).symm
  have hlive := ha.books.tokens_eq
  have hlive' := ha'.books.tokens_eq
  unfold Capacity.inFlight at hflight
  rw [Multiset.card_add, Multiset.card_add, hcard, hcard, Multiset.coe_card, Multiset.coe_card] at hflight
  simp only at hlive'
  have hsum : (s.cap.overspillWork c).overspill.length + (s.cap.overspillWork c).limiter.outstanding =
      s.cap.overspill.length + s.cap.limiter.outstanding := by
    omega
  have hcall : s.call.remaining d 8 ≤ s.call.remaining (d + 12) 8 := by
    cases s.call <;> simp only [NextJob.remaining] <;> omega
  have hmul := congrArg (d * ·) hsum
  simp only [Nat.mul_add] at hmul
  unfold remaining
  simp only [Nat.add_mul]
  omega

end Control

namespace ExecHelper

theorem withCap_cap (s : ExecHelper) (cap : Capacity) : (s.withCap cap).control.cap = cap := rfl

/-- The queues are not part of the order. -/
theorem Orderly.queue {n : Nat} {s : ExecHelper} (h : s.Orderly n) (queue : ConnId → List Packet) :
    (s.withCap { s.control.cap with queue := queue }).Orderly n :=
  ⟨⟨h.control.books.queue queue, h.control.known, h.control.expired, h.control.nonEmpty⟩, h.idle, h.done⟩

/-- What takes the server forward leaves less to do; where it queues an `execute` packet, less by what the packet costs. -/
theorem remaining_of_productive {n d : Nat} (hd : 0 < d) {s s' : ExecHelper} {a : Action} (h : s.Orderly n) (hp : s.Productive a)
    (hs : s.step a = some s') :
    s'.control.cap.queue = s.control.cap.queue ∧ s'.remaining d 8 < s.remaining d 8 ∨
      ∃ c job, s'.control.cap.queue = Function.update s.control.cap.queue c (s.control.cap.queue c ++ [.execute job]) ∧
        s'.remaining d 8 + 8 < s.remaining d 8 := by
  have hlt := remaining_lt hd 8 h hp hs
  rcases productive_cases hp hs with ⟨e, he, hc, hstage⟩ | ⟨-, -, -, hqueue, -⟩
  · rcases Control.queue_of_step hc with hqueue | ⟨job, c, _, rfl, -, -, hqueue⟩ | ⟨_, _, _, hpeer, -⟩
    · exact Or.inl ⟨hqueue, hlt⟩
    · have htoken := Control.remaining_token d 8 hc
      refine Or.inr ⟨c, job, hqueue, ?_⟩
      unfold remaining
      rw [hstage]
      omega
    · cases hpeer
  · exact Or.inl ⟨hqueue, hlt⟩

end ExecHelper

/-- The work of a connection is in flight. -/
theorem Capacity.outstanding_le_inFlight (s : Capacity) (c : ConnId) : s.outstanding c ≤ s.inFlight := by
  unfold outstanding
  cases hfind : s.connections.find? c with
  | none => exact Multiset.zero_le _
  | some remote =>
    have hmem := List.mem_map_of_mem (f := fun e => e.2.weigh textOf) ((OrdMap.mem_entries_iff _ c remote).mpr hfind)
    refine (List.le_sum_of_mem hmem).trans ?_
    unfold inFlight weigh
    exact (Multiset.le_add_left _ _).trans (Multiset.le_add_right _ _)

namespace Net

/-! ## No empty job -/

/-- The jobs of the server are not empty and were not when they were given away; the client knows of no connection that is gone. -/
structure Orderly (n : Nat) (s : Net) : Prop where
  server : s.server.Orderly n
  dispatched : [] ∉ s.dispatched
  client : s.client.cap.expired = []

theorem orderly_init (n m overspillCap : Nat) (c : ConnId) : (system n m overspillCap c).init.Orderly n :=
  ⟨ExecHelper.orderly_init n, List.not_mem_nil, rfl⟩

/-- One action that brings in no empty job. -/
theorem Orderly.step {n m overspillCap : Nat} {c : ConnId} {s s' : Net} {a : Action} (hh : s.Handshake m overspillCap c)
    (h : s.Orderly n) (hok : s.NonEmptyJobs a) (hs : s.step overspillCap c a = some s') : s'.Orderly n := by
  cases steps_of_step hs with
  | @server a server habout hstep =>
    have hserver := h.server.step hok hstep
    refine ⟨hserver, ?_, h.client⟩
    rcases ExecHelper.step_frame habout hstep with ⟨-, hqueue⟩ | ⟨remote, job, task, -, hfind, hqueue⟩
    · simp only [hqueue, List.drop_length, List.flatMap_nil, List.append_nil]
      exact h.dispatched
    · have hjob : job ∈ server.control.cap.outstanding c := by
        rw [Capacity.outstanding, hfind, Option.elim_some, Remote.mem_weigh_textOf]
        exact ⟨task, OrdMap.find?_insert_self _ _ _⟩
      have hne : job ≠ [] := by
        rintro rfl
        exact hserver.control.nonEmptyBooks (Multiset.mem_of_le (Capacity.outstanding_le_inFlight _ c) hjob)
      simp only [hqueue, List.drop_left]
      intro hempty
      rcases List.mem_append.mp hempty with hempty | hempty
      · exact h.dispatched hempty
      · exact hne (List.mem_singleton.mp hempty).symm
  | client he hstep =>
    refine ⟨h.server, h.dispatched, ?_⟩
    rcases Control.steady_step hstep with hsteady | hissues | ⟨d, rfl, -⟩
    · exact hsteady.expired.trans h.client
    · exact hissues.expired.trans h.client
    · cases he
  | accepted => exact ⟨h.server.queue _, h.dispatched, h.client⟩
  | connected => exact ⟨h.server, h.dispatched, h.client⟩
  | serverSends htaken =>
    obtain ⟨-, hcap⟩ := Capacity.consumePacket_eq_some htaken
    rw [hcap]
    exact ⟨h.server.queue _, h.dispatched, h.client⟩
  | clientSends htaken =>
    obtain ⟨-, hcap⟩ := Capacity.consumePacket_eq_some htaken
    rw [hcap]
    exact ⟨h.server, h.dispatched, h.client⟩
  | serverReceives hreceived _ _ hstep =>
    refine ⟨h.server.step ?_ hstep, h.dispatched, h.client⟩
    rw [ExecHelper.NonEmptyJobs, (hh.receive hreceived).1.1]
    exact List.not_mem_nil
  | serverWarns => exact ⟨h.server, h.dispatched, h.client⟩
  | @clientReceives packet => exact ⟨h.server, h.dispatched, (s.client.cap.expired_processInbound c packet).trans h.client⟩
  | clientWarns => exact ⟨h.server, h.dispatched, h.client⟩
  | serverLogs => exact ⟨h.server.queue _, h.dispatched, h.client⟩
  | clientLogs => exact ⟨h.server, h.dispatched, h.client⟩
  | close => exact ⟨h.server, h.dispatched, h.client⟩
  | serverCloses _ hstep => exact ⟨h.server.step (a := .closed c) trivial hstep, h.dispatched, h.client⟩

/-! ## The two ends among others -/

/-- What holds of the two ends in every run without empty jobs. -/
structure Sound (n m overspillCap : Nat) (c : ConnId) (s : Net) : Prop where
  inv : s.Inv n m c
  handshake : s.Handshake m overspillCap c
  orderly : s.Orderly n
  mirror : ∃ t, Mirror.system.Reachable t ∧ (s.Open c → s.Shows c t)

theorem sound_init (n m overspillCap : Nat) (c : ConnId) : (system n m overspillCap c).init.Sound n m overspillCap c := by
  obtain ⟨t, ht, hinv, hshows⟩ := shows_of_reachable (System.ReachFrom.refl (S := system n m overspillCap c))
  exact ⟨hinv, handshake_init n m overspillCap c, orderly_init n m overspillCap c, t, ht, hshows⟩

/-- One action that brings in no empty job. -/
theorem Sound.step {n m overspillCap : Nat} {c : ConnId} {s s' : Net} {a : Action} (h : s.Sound n m overspillCap c)
    (hok : s.NonEmptyJobs a) (hs : s.step overspillCap c a = some s') : s'.Sound n m overspillCap c := by
  refine ⟨h.inv.step hs, h.handshake.step h.inv hs, h.orderly.step h.handshake hok hs, ?_⟩
  obtain ⟨t, ht, hshows⟩ := h.mirror
  by_cases hopen : s'.Open c
  · obtain ⟨t', ht', hshows'⟩ := step_follows h.inv (hshows (open_of_step hs hopen)) hs hopen
    exact ⟨t', ht.trans ht', fun _ => hshows'⟩
  · exact ⟨t, ht, fun hopen' => absurd hopen' hopen⟩

/-- The queues of other connections. -/
theorem Sound.elsewhere {n m overspillCap : Nat} {c : ConnId} {s : Net} (h : s.Sound n m overspillCap c)
    {queue : ConnId → List Packet} (hqueue : queue c = s.server.control.cap.queue c) :
    ({ s with server := s.server.withCap { s.server.control.cap with queue := queue } } : Net).Sound n m overspillCap c := by
  have houtward : Handles s.clientVersion s.accepted (s.toClient ++ queue c) := by
    rw [hqueue]
    exact h.inv.outward
  refine ⟨inv_outward h.inv id houtward, ?_, ⟨h.orderly.server.queue _, h.orderly.dispatched, h.orderly.client⟩, ?_⟩
  · exact h.handshake.keep rfl (fun remote hremote => ⟨remote, hremote, rfl⟩) rfl Iff.rfl rfl rfl id
  · obtain ⟨t, ht, hshows⟩ := h.mirror
    refine ⟨t, ht, fun hopen => ?_⟩
    have hs := hshows hopen
    refine ⟨hs.work, hs.copies.trans ?_, hs.sent⟩
    unfold copies outward
    simp only [ExecHelper.withCap_cap, hqueue]
    rfl

/-- A connection that is open is read from. -/
theorem Sound.open {n m overspillCap : Nat} {c : ConnId} {s : Net} (h : s.Sound n m overspillCap c) (hopen : s.closed = false) :
    s.Open c :=
  ⟨hopen, fun hin => Bool.noConfusion (hopen.symm.trans (h.handshake.ended hin))⟩

/-! ## What is left to do -/

/-- `accepted` is called once. -/
theorem accepted_of_step {overspillCap : Nat} {c : ConnId} {s s' : Net} (h : s.step overspillCap c .accepted = some s') :
    s.accepted = false := by
  simp only [step] at h
  split at h
  · cases h
  · rename_i haccepted
    exact Bool.eq_false_iff.mpr haccepted

/-- The version packet that an end queues when it is established. -/
theorem queued_established (s : Capacity) (overspillCap : Nat) (c : ConnId) :
    (s.established overspillCap c).queued c = s.queued c + 2 :=
  @Capacity.queued_append s _ c (s.outVersion overspillCap) (Function.update_self _ _ _)

/-- What takes one end or a packet forward leaves less to do, as long as the connection stays as it is. -/
theorem between_lt {n m overspillCap d : Nat} {c : ConnId} {s s' : Net} {a : Action} (h : s.Sound n m overspillCap c)
    (hserver : ∀ b, a ≠ .server b) (hcloses : a ≠ .serverCloses) (hp : s.Productive a) (hs : s.step overspillCap c a = some s') :
    s'.server.remaining d 8 + s'.between c < s.server.remaining d 8 + s.between c ∧ s'.server.ended = s.server.ended := by
  cases steps_of_step hs with
  | server => exact absurd rfl (hserver _)
  | client _ hstep =>
    have hlt := Control.remaining_reported_lt h.inv.client h.inv.bare hp hstep
    refine ⟨?_, rfl⟩
    simp only [between]
    omega
  | accepted =>
    have hserver : (s.server.withCap (s.server.control.cap.established overspillCap c)).remaining d 8 = s.server.remaining d 8 := rfl
    have hqueued := queued_established s.server.control.cap overspillCap c
    refine ⟨?_, rfl⟩
    simp only [between, hserver, accepted_of_step hs, establishing, ExecHelper.withCap_cap, hqueued]
    simp only [if_true, Bool.false_eq_true, if_false]
    omega
  | connected =>
    have hclient : ({ s.client with cap := s.client.cap.established overspillCap c } : Control).remaining 3 0 = s.client.remaining 3 0 :=
      rfl
    have hqueued := queued_established s.client.cap overspillCap c
    refine ⟨?_, rfl⟩
    simp only [between, hclient, connected_of_step hs, establishing, hqueued]
    simp only [if_true, Bool.false_eq_true, if_false]
    omega
  | @serverSends packet cap htaken =>
    obtain ⟨hq, hcap⟩ := Capacity.consumePacket_eq_some htaken
    have hserver : (s.server.withCap cap).remaining d 8 = s.server.remaining d 8 := by
      rw [hcap]
      rfl
    have hqueued := Capacity.queued_consumePacket hq
    refine ⟨?_, rfl⟩
    simp only [between, hserver, hqueued, List.map_append, List.sum_append, List.map_singleton, List.sum_singleton,
      ExecHelper.withCap_cap]
    omega
  | @clientSends packet cap htaken =>
    obtain ⟨hq, hcap⟩ := Capacity.consumePacket_eq_some htaken
    have hclient : ({ s.client with cap := cap } : Control).remaining 3 0 = s.client.remaining 3 0 := by
      rw [hcap]
      rfl
    have hqueued := Capacity.queued_consumePacket hq
    refine ⟨?_, rfl⟩
    simp only [between, hclient, hqueued, List.map_append, List.sum_append, List.map_singleton, List.sum_singleton]
    omega
  | @serverReceives packet rest server hreceived _ hknown hstep =>
    have hpos := packet.remaining_pos
    cases ExecHelper.steps_of_step hstep with
    | @inbound _ _ cap _ hhandled =>
      have hle := Control.remaining_dispatch d 8 hhandled (h.handshake.receive hreceived).1.1
      have hqueued := Capacity.queued_of_eq (congrFun (Capacity.queue_dispatch hhandled) c)
      refine ⟨?_, rfl⟩
      simp only [between, ExecHelper.remaining, hqueued, hreceived, List.map_cons, List.sum_cons]
      omega
    | thrown halive hhandled =>
      obtain ⟨-, _, _, hok, -⟩ := h.handshake.dispatch hreceived hknown halive
      rw [hok] at hhandled
      cases hhandled
  | @serverWarns packet rest hreceived =>
    have hpos := packet.remaining_pos
    refine ⟨?_, rfl⟩
    simp only [between, hreceived, List.map_cons, List.sum_cons]
    omega
  | @clientReceives packet rest hreceived =>
    have hlt := s.client.remaining_processInbound c packet
    have hqueued := Capacity.queued_of_eq (congrFun (s.client.cap.processInbound_client c packet).2.2 c)
    refine ⟨?_, rfl⟩
    simp only [between, hqueued, hreceived, List.map_cons, List.sum_cons]
    omega
  | @clientWarns packet rest hreceived =>
    have hpos := packet.remaining_pos
    refine ⟨?_, rfl⟩
    simp only [between, hreceived, List.map_cons, List.sum_cons]
    omega
  | serverLogs => exact hp.elim
  | clientLogs => exact hp.elim
  | close => exact hp.elim
  | serverCloses => exact absurd rfl hcloses

/-- Where nothing can go on at the client and on the way, no job is left there: a job would be in a packet that can be sent or received, or
in the client. -/
theorem Sound.copies_of_stuck {n m overspillCap : Nat} (hm : 0 < m) {c : ConnId} {s : Net} (h : s.Sound n m overspillCap c)
    (hopen : s.closed = false) (haccepted : s.accepted = true) (hconnected : s.connected = true)
    (hstuck : ∀ a, (∀ b, a ≠ .server b) → s.Productive a → s.step overspillCap c a = none) : s.copies c = 0 := by
  have halive := (h.open hopen).2
  have htoClient : s.toClient = [] := by
    cases hlist : s.toClient with
    | nil => rfl
    | cons packet rest =>
      have hnone := hstuck .clientReceives (fun _ h => by cases h) trivial
      simp [Net.step, hlist, hconnected] at hnone
  have htoServer : s.toServer = [] := by
    cases hlist : s.toServer with
    | nil => rfl
    | cons packet rest =>
      have hnone := hstuck .serverReceives (fun _ h => by cases h) trivial
      simp only [Net.step, hlist, haccepted, halive, not_false_eq_true, and_self, if_true, Option.map_eq_none_iff] at hnone
      split at hnone
      · simp only [ExecHelper.step, if_neg halive] at hnone
        split at hnone <;> cases hnone
      · cases hnone
  have hqueue : s.server.control.cap.queue c = [] := by
    have hnone := hstuck .serverSends (fun _ h => by cases h) trivial
    simp only [Net.step, haccepted, hopen, Bool.false_eq_true, not_false_eq_true, and_self, if_true, Option.map_eq_none_iff,
      Capacity.consumePacket] at hnone
    split at hnone
    · cases hnone
    · rename_i hq
      exact hq
  have hreports : s.client.cap.queue c = [] := by
    have hnone := hstuck .clientSends (fun _ h => by cases h) trivial
    simp only [Net.step, hconnected, hopen, Bool.false_eq_true, not_false_eq_true, and_self, if_true, Option.map_eq_none_iff,
      Capacity.consumePacket] at hnone
    split at hnone
    · cases hnone
    · rename_i hq
      exact hq
  have hcopies : s.copies c = s.client.inFlight := by
    rw [copies_eq h.inv, Net.outward, Net.inward, htoClient, htoServer, hqueue, hreports]
    simp
  by_contra hsome
  have hnonempty : [] ∉ s.client.inFlight := by
    intro hin
    obtain ⟨t, ht, hshows⟩ := h.mirror
    have hs := hshows (h.open hopen)
    rw [← hcopies, ← hs.copies] at hin
    have hsent := Mirror.sent_of_copy ht _ hin
    rw [hs.sent] at hsent
    exact h.orderly.dispatched (Multiset.mem_coe.mp hsent)
  obtain ⟨e, client, he, hp, hs⟩ :=
    Control.exists_productive_client (c := c) hm h.inv.client h.inv.bare h.orderly.client hnonempty (hcopies ▸ hsome)
  have hnone := hstuck (.client e) (fun _ h => by cases h) hp
  simp [Net.step, he, hs] at hnone

/-- Where there is no copy of a job, none is outstanding. -/
theorem Sound.outstanding_of_copies {n m overspillCap : Nat} {c : ConnId} {s : Net} (h : s.Sound n m overspillCap c)
    (hopen : s.closed = false) (hcopies : s.copies c = 0) : s.server.control.cap.outstanding c = 0 := by
  obtain ⟨t, ht, hshows⟩ := h.mirror
  have hs := hshows (h.open hopen)
  rw [← hs.work]
  refine Multiset.eq_zero_of_forall_notMem ?_
  intro job hjob
  have hcopy := (Mirror.agree_of_reach ht).copied job hjob
  rw [hs.copies, hcopies] at hcopy
  exact Multiset.notMem_zero job hcopy

end Net

end FostWright
