import FostWright.Lemmas.Net

/-!
# Server and client agree on outstanding work

The work that the server keeps for a connection, and the copies of jobs that are in packets and in the client, follow the abstract
`Mirror`: the server gives a job away by entering it in its work and queueing an `execute` packet in one step, and gets it back by
handling a `completed` packet. Everything else only moves copies. A packet with a job is never one that the receiving end does
not know yet, because the version packet of the other end is in front of it.
-/

namespace FostWright

open Lib

/-! ## One direction of the connection -/

/-- Every packet that carries a job is known by the version negotiated when it is received. -/
def Handled : Nat → List Packet → Prop
  | _, [] => True
  | version, packet :: rest =>
    (packet.jobs = [] ∧ packet.results = [] ∨ packet.since ≤ version) ∧ Handled (negotiate version packet) rest

theorem handled_append (version : Nat) (ps qs : List Packet) :
    Handled version (ps ++ qs) ↔ Handled version ps ∧ Handled (ps.foldl negotiate version) qs := by
  induction ps generalizing version with
  | nil => exact (and_iff_right trivial).symm
  | cons p ps ih => exact (and_congr_right fun _ => ih _).trans and_assoc.symm

/-- The packets of one direction, in the order in which they are received: every job is handled, and once the sending end is
established the version is the highest after the last of them. -/
structure Handles (version : Nat) (ready : Bool) (packets : List Packet) : Prop where
  handled : Handled version packets
  announced : ready = true → packets.foldl negotiate version = maxVersion

namespace Handles

variable {version : Nat} {ready : Bool} {packets : List Packet}

/-- A packet without a job may be sent at any time, one with a job once the end is established. -/
theorem produce (h : Handles version ready packets) (packet : Packet) (hkeep : ∀ v, negotiate v packet = v)
    (hjob : packet.jobs = [] ∧ packet.results = [] ∨ ready = true ∧ packet.since ≤ maxVersion) :
    Handles version ready (packets ++ [packet]) := by
  have hlast : (packets ++ [packet]).foldl negotiate version = packets.foldl negotiate version := by
    rw [List.foldl_append]
    exact hkeep _
  refine ⟨(handled_append _ _ _).mpr ⟨h.handled, ?_, trivial⟩, fun hr => hlast.trans (h.announced hr)⟩
  rcases hjob with hjob | ⟨hr, hsince⟩
  · exact Or.inl hjob
  · exact Or.inr (h.announced hr ▸ hsince)

/-- The version packet that `established` queues. -/
theorem announce (h : Handles version ready packets) (capacity : Option Nat) :
    Handles version true (packets ++ [.version maxVersion capacity]) := by
  refine ⟨(handled_append _ _ _).mpr ⟨h.handled, Or.inl ⟨rfl, rfl⟩, trivial⟩, fun _ => ?_⟩
  rw [List.foldl_append]
  exact min_self maxVersion

/-- The first packet is received. -/
theorem receive {packet : Packet} {rest : List Packet} (h : Handles version ready (packet :: rest)) :
    Handles (negotiate version packet) ready rest :=
  ⟨h.handled.2, h.announced⟩

/-- A packet that is only warned about carries no job. -/
theorem unknown {packet : Packet} {rest : List Packet} (h : Handles version ready (packet :: rest))
    (hunknown : ¬packet.since ≤ version) : packet.jobs = [] ∧ packet.results = [] :=
  h.handled.1.resolve_right hunknown

end Handles

/-- A packet that `process_outbound` takes is the front of the queue; nothing else changes. -/
theorem Capacity.consumePacket_eq_some {s cap : Capacity} {c : ConnId} {packet : Packet}
    (h : s.consumePacket c = some (packet, cap)) :
    s.queue c = packet :: cap.queue c ∧ cap = { s with queue := cap.queue } := by
  unfold consumePacket at h
  split at h
  · rename_i first rest hq
    cases h
    exact ⟨hq.trans (congrArg _ (Function.update_self c rest s.queue).symm), rfl⟩
  · cases h

namespace Net

/-! ## The invariant -/

/-- The packets on their way to the client, first the ones in the socket. -/
def outward (c : ConnId) (s : Net) : List Packet := s.toClient ++ s.server.control.cap.queue c

/-- The packets on their way to the server. -/
def inward (c : ConnId) (s : Net) : List Packet := s.toServer ++ s.client.cap.queue c

/-- The copies of jobs between the two books: in `execute` packets on their way to the client, in the overspill, the `next_job`
and the children of the client, and in `completed` packets on their way back. -/
def copies (c : ConnId) (s : Net) : Multiset Line :=
  ((s.outward c).flatMap Packet.jobs : Multiset Line) +
    ((s.client.cap.overspill : Multiset Line) + s.client.call.text + s.client.cap.weighChildren textOf) +
    ((s.inward c).flatMap Packet.results : Multiset Line)

/-- What holds of the two ends, open or not. -/
structure Inv (n m : Nat) (c : ConnId) (s : Net) : Prop where
  server : s.server.control.Accounted n
  client : s.client.Accounted m
  bare : s.client.cap.Bare
  outward : Handles s.clientVersion s.accepted (s.outward c)
  inward : Handles s.serverVersion s.connected (s.inward c)
  registered : s.server.control.cap.connections.find? c ≠ none → s.accepted = true ∧ c ∉ s.server.ended
  idle : s.connected = false → s.client.inFlight = 0

/-- The packets on their way to the client when the first one is received. -/
theorem Inv.outward_received {n m : Nat} {c : ConnId} {s : Net} (h : s.Inv n m c) {packet : Packet} {rest : List Packet}
    (hreceived : s.toClient = packet :: rest) :
    Handles s.clientVersion s.accepted (packet :: (rest ++ s.server.control.cap.queue c)) := by
  have houtward := h.outward
  unfold Net.outward at houtward
  rwa [hreceived] at houtward

/-- The packets on their way to the server when the first one is received. -/
theorem Inv.inward_received {n m : Nat} {c : ConnId} {s : Net} (h : s.Inv n m c) {packet : Packet} {rest : List Packet}
    (hreceived : s.toServer = packet :: rest) :
    Handles s.serverVersion s.connected (packet :: (rest ++ s.client.cap.queue c)) := by
  have hinward := h.inward
  unfold Net.inward at hinward
  rwa [hreceived] at hinward

/-- The initial state. -/
theorem inv_init (n m overspillCap : Nat) (c : ConnId) : (system n m overspillCap c).init.Inv n m c := by
  have hclient : ({ cap := Capacity.init m, call := .idle } : Control).Accounted m :=
    Control.accounted_of_reachable .serverSide System.ReachFrom.refl
  have hbare : (Capacity.init m).Bare := fun _ _ hd => by cases hd
  refine ⟨Control.accounted_of_reachable .serverSide System.ReachFrom.refl, hclient, hbare,
    ⟨trivial, fun hr => by cases hr⟩, ⟨trivial, fun hr => by cases hr⟩, fun hne => absurd rfl hne, ?_⟩
  intro _
  have hflight := Control.inFlight_of_bare hclient hbare
  refine hflight.trans ?_
  simp [Capacity.init, NextJob.text, Capacity.weighChildren, Childproc.weigh, CircularBuffer.empty]

/-- An action of the server that is not about `c` keeps the invariant. -/
theorem inv_server {n m : Nat} {c : ConnId} {s : Net} (h : s.Inv n m c) {a : ExecHelper.Action} {server : ExecHelper}
    (habout : a.about ≠ some c) (hs : s.server.step a = some server) (dispatched : List Line) :
    ({ s with server := server, dispatched := dispatched } : Net).Inv n m c := by
  have hended := ExecHelper.ended_of_step habout hs
  have hserver := ExecHelper.accounted_step h.server hs
  rcases ExecHelper.step_frame habout hs with ⟨hfind, hqueue⟩ | ⟨remote, job, task, hfind, -, hqueue⟩
  · refine ⟨hserver, h.client, h.bare, ?_, h.inward, ?_, h.idle⟩
    · unfold Net.outward
      simp only [hqueue]
      exact h.outward
    · intro hne
      rw [hfind] at hne
      exact (h.registered hne).imp_right (fun halive => halive ∘ hended.mp)
  · obtain ⟨haccepted, halive⟩ := h.registered (by simp [hfind])
    refine ⟨hserver, h.client, h.bare, ?_, h.inward, fun _ => ⟨haccepted, halive ∘ hended.mp⟩, h.idle⟩
    have hproduce := h.outward.produce (.execute job) (fun _ => rfl) (Or.inr ⟨haccepted, le_rfl⟩)
    unfold Net.outward at hproduce ⊢
    rwa [hqueue, ← List.append_assoc]

/-- A client with a job in flight is connected. -/
theorem Inv.connected_of_job {n m : Nat} {c : ConnId} {s : Net} (h : s.Inv n m c) {job : Line} {rest : Multiset Line}
    (hflight : rest + {job} = s.client.inFlight) : s.connected = true := by
  by_contra hno
  have hcard := congrArg Multiset.card hflight
  rw [h.idle (by simpa using hno), Multiset.card_add, Multiset.card_singleton, Multiset.card_zero] at hcard
  omega

/-- What goes on in the client keeps the invariant. -/
theorem inv_client {n m : Nat} {c : ConnId} {s : Net} (h : s.Inv n m c) {e : Event} {client : Control}
    (he : e.ofClient = true) (hs : s.client.step (.clientSide c) e = some client) :
    ({ s with client := client } : Net).Inv n m c := by
  obtain ⟨hconn, hmove⟩ := Control.step_client h.client h.bare he hs
  have hbare : client.cap.Bare := fun d remote hd => h.bare d remote (hconn ▸ hd)
  refine ⟨h.server, h.client.step hs, hbare, h.outward, ?_, h.registered, ?_⟩
  · rcases hmove with ⟨-, hqueue⟩ | ⟨ret, hflight, hqueue⟩
    · unfold Net.inward
      simp only [hqueue]
      exact h.inward
    · have hconnected := h.connected_of_job hflight
      have hproduce := h.inward.produce (.completed ret) (fun _ => rfl) (Or.inr ⟨hconnected, le_rfl⟩)
      unfold Net.inward at hproduce ⊢
      rwa [hqueue, ← List.append_assoc]
  · intro hno
    rcases hmove with ⟨hflight, -⟩ | ⟨ret, hflight, -⟩
    · exact hflight.trans (h.idle hno)
    · exact Bool.noConfusion (hno.symm.trans (h.connected_of_job hflight))

/-- A packet that the server handles keeps the invariant. -/
theorem inv_serverReceives {n m : Nat} {c : ConnId} {s : Net} (h : s.Inv n m c) {packet : Packet} {rest : List Packet}
    {server : ExecHelper} (hreceived : s.toServer = packet :: rest) (hready : s.accepted = true)
    (hs : s.server.step (.inbound c packet) = some server) :
    ({ s with server := server, toServer := rest, serverVersion := negotiate s.serverVersion packet } : Net).Inv n m c := by
  have hqueue : server.control.cap.queue = s.server.control.cap.queue ∧
      (server.control.cap.connections.find? c ≠ none → c ∉ server.ended) := by
    cases ExecHelper.steps_of_step hs with
    | inbound halive hd => exact ⟨Capacity.queue_dispatch hd, fun _ => halive⟩
    | thrown =>
      refine ⟨Capacity.queue_overspillWork _ _, fun hne => absurd ?_ hne⟩
      exact (Capacity.find?_overspillWork _ _ _).trans (if_pos rfl)
  refine ⟨ExecHelper.accounted_step h.server hs, h.client, h.bare, ?_, (h.inward_received hreceived).receive,
    fun hne => ⟨hready, hqueue.2 hne⟩, h.idle⟩
  unfold Net.outward
  simp only [hqueue.1]
  exact h.outward

/-- A packet that the client handles keeps the invariant. -/
theorem inv_clientReceives {n m : Nat} {c : ConnId} {s : Net} (h : s.Inv n m c) {packet : Packet} {rest : List Packet}
    (hreceived : s.toClient = packet :: rest) (hready : s.connected = true) :
    ({ s with
        client := { s.client with cap := s.client.cap.processInbound (.clientSide c) c packet }
        toClient := rest
        clientVersion := negotiate s.clientVersion packet } : Net).Inv n m c := by
  obtain ⟨-, -, hqueue⟩ := s.client.cap.processInbound_client c packet
  refine ⟨h.server, h.client.processInbound c packet, Capacity.bare_processInbound h.bare c packet,
    (h.outward_received hreceived).receive, ?_, h.registered, fun hno => Bool.noConfusion (hno.symm.trans hready)⟩
  unfold Net.inward
  simp only [hqueue]
  exact h.inward

/-- What becomes of the packets of the server's queue and of the socket keeps the invariant, as far as they are handled. -/
theorem inv_outward {n m : Nat} {c : ConnId} {s : Net} (h : s.Inv n m c) {accepted : Bool} {queue : ConnId → List Packet}
    {toClient : List Packet} {clientVersion : Nat} (haccepted : s.accepted = true → accepted = true)
    (hhandles : Handles clientVersion accepted (toClient ++ queue c)) :
    ({ s with
        server := s.server.withCap { s.server.control.cap with queue := queue }
        toClient := toClient
        clientVersion := clientVersion
        accepted := accepted } : Net).Inv n m c :=
  ⟨h.server.queue queue, h.client, h.bare, hhandles, h.inward, fun hne => (h.registered hne).imp_left haccepted, h.idle⟩

/-- What becomes of the packets of the client's queue and of the socket keeps the invariant, as far as they are handled. -/
theorem inv_inward {n m : Nat} {c : ConnId} {s : Net} (h : s.Inv n m c) {connected : Bool} {queue : ConnId → List Packet}
    {toServer : List Packet} {serverVersion : Nat} (hconnected : s.connected = true → connected = true)
    (hhandles : Handles serverVersion connected (toServer ++ queue c)) :
    ({ s with
        client := { s.client with cap := { s.client.cap with queue := queue } }
        toServer := toServer
        serverVersion := serverVersion
        connected := connected } : Net).Inv n m c := by
  refine ⟨h.server, h.client.queue queue, h.bare, h.outward, hhandles, h.registered, fun hno => h.idle ?_⟩
  rw [← Bool.not_eq_true] at hno ⊢
  exact hno ∘ hconnected

/-- A queue to which a packet was added. -/
theorem append_update (queue : ConnId → List Packet) (c : ConnId) (socket : List Packet) (packet : Packet) :
    socket ++ Function.update queue c (queue c ++ [packet]) c = socket ++ queue c ++ [packet] := by
  rw [Function.update_self, List.append_assoc]

/-- One action keeps the invariant. -/
theorem Inv.step {n m overspillCap : Nat} {c : ConnId} {s s' : Net} {a : Action} (h : s.Inv n m c)
    (hs : s.step overspillCap c a = some s') : s'.Inv n m c := by
  cases steps_of_step hs with
  | server habout hstep => exact inv_server h habout hstep _
  | client he hstep => exact inv_client h he hstep
  | accepted =>
    refine inv_outward h (fun _ => rfl) ?_
    rw [append_update]
    exact h.outward.announce _
  | connected =>
    refine inv_inward h (fun _ => rfl) ?_
    rw [append_update]
    exact h.inward.announce _
  | serverSends htaken =>
    obtain ⟨hq, hcap⟩ := Capacity.consumePacket_eq_some htaken
    rw [hcap]
    refine inv_outward h id ?_
    have houtward := h.outward
    unfold Net.outward at houtward
    rwa [List.append_assoc, List.singleton_append, ← hq]
  | clientSends htaken =>
    obtain ⟨hq, hcap⟩ := Capacity.consumePacket_eq_some htaken
    rw [hcap]
    refine inv_inward h id ?_
    have hinward := h.inward
    unfold Net.inward at hinward
    rwa [List.append_assoc, List.singleton_append, ← hq]
  | serverReceives hreceived hready _ hstep => exact inv_serverReceives h hreceived hready hstep
  | serverWarns hreceived => exact inv_inward h id (h.inward_received hreceived).receive
  | clientReceives hreceived hready => exact inv_clientReceives h hreceived hready
  | clientWarns hreceived => exact inv_outward h id (h.outward_received hreceived).receive
  | serverLogs =>
    refine inv_outward h id ?_
    rw [append_update]
    exact h.outward.produce _ (fun _ => rfl) (Or.inl ⟨rfl, rfl⟩)
  | clientLogs =>
    refine inv_inward h id ?_
    rw [append_update]
    exact h.inward.produce _ (fun _ => rfl) (Or.inl ⟨rfl, rfl⟩)
  | close => exact ⟨h.server, h.client, h.bare, h.outward, h.inward, h.registered, h.idle⟩
  | serverCloses _ hstep =>
    have hserver := ExecHelper.accounted_step h.server hstep
    cases ExecHelper.steps_of_step hstep with
    | closed =>
      refine ⟨hserver, h.client, h.bare, ?_, h.inward, fun hne => absurd ?_ hne, h.idle⟩
      · have houtward := h.outward
        unfold Net.outward at houtward ⊢
        simp only [Capacity.queue_overspillWork]
        exact houtward
      · exact (Capacity.find?_overspillWork _ _ _).trans (if_pos rfl)

/-! ## The two ends follow the abstract pair -/

/-- The connection is open: the socket is not closed, and the server still reads from it. -/
def Open (c : ConnId) (s : Net) : Prop := s.closed = false ∧ c ∉ s.server.ended

/-- The work of the connection, the copies between the books and the texts dispatched. -/
structure Shows (c : ConnId) (s : Net) (t : Mirror Line) : Prop where
  work : t.work = s.server.control.cap.outstanding c
  copies : t.copies = s.copies c
  sent : t.sent = (s.dispatched : Multiset Line)

/-- The copies, with what is in flight in the client as one bag. -/
theorem copies_eq {n m : Nat} {c : ConnId} {s : Net} (h : s.Inv n m c) :
    s.copies c = ((s.outward c).flatMap Packet.jobs : Multiset Line) + s.client.inFlight +
      ((s.inward c).flatMap Packet.results : Multiset Line) := by
  unfold Net.copies
  rw [Control.inFlight_of_bare h.client h.bare]

/-- An open connection was open before. -/
theorem open_of_step {overspillCap : Nat} {c : ConnId} {s s' : Net} {a : Action} (hs : s.step overspillCap c a = some s')
    (hopen : s'.Open c) : s.Open c := by
  obtain ⟨hclosed, halive⟩ := hopen
  cases steps_of_step hs with
  | server habout hstep => exact ⟨hclosed, halive ∘ (ExecHelper.ended_of_step habout hstep).mpr⟩
  | serverReceives _ _ _ hstep =>
    cases ExecHelper.steps_of_step hstep with
    | inbound halive' => exact ⟨hclosed, halive'⟩
    | thrown halive' => exact ⟨hclosed, halive'⟩
  | close => cases hclosed
  | serverCloses hclosed' => exact Bool.noConfusion (hclosed.symm.trans hclosed')
  | _ => exact ⟨hclosed, halive⟩

/-- What a step does to the abstract pair: it is shown by the next state after at most one action. -/
def Follows (c : ConnId) (s' : Net) (t : Mirror Line) : Prop :=
  ∃ t', Mirror.system.ReachFrom System.anyStep t t' ∧ s'.Shows c t'

/-- A step that only moves copies. -/
theorem follows_idle {c : ConnId} {s s' : Net} {t : Mirror Line} (ht : s.Shows c t)
    (hwork : s'.server.control.cap.outstanding c = s.server.control.cap.outstanding c) (hcopies : s'.copies c = s.copies c)
    (hsent : s'.dispatched = s.dispatched) : s'.Follows c t :=
  ⟨t, System.ReachFrom.refl, ht.work.trans hwork.symm, ht.copies.trans hcopies.symm, ht.sent.trans (by rw [hsent])⟩

/-- The server gives a job to the connection: it is entered in the work and an `execute` packet is queued. -/
theorem follows_server {c : ConnId} {s : Net} {t : Mirror Line} (ht : s.Shows c t) {a : ExecHelper.Action}
    {server : ExecHelper} (habout : a.about ≠ some c) (hs : s.server.step a = some server) :
    ({ s with
        server := server
        dispatched := s.dispatched ++
          ((server.control.cap.queue c).drop (s.server.control.cap.queue c).length).flatMap Packet.jobs } : Net).Follows c t := by
  rcases ExecHelper.step_frame habout hs with ⟨hfind, hqueue⟩ | ⟨remote, job, task, hfind, hfind', hqueue⟩
  · refine follows_idle ht ?_ ?_ ?_
    · simp only [Capacity.outstanding, hfind]
    · simp only [copies, outward, inward, hqueue]
    · simp only [hqueue, List.drop_length, List.flatMap_nil, List.append_nil]
  · refine ⟨_, System.ReachFrom.single (.send job) trivial rfl, ?_, ?_, ?_⟩
    · simp only [Capacity.outstanding, hfind', Option.elim_some, Remote.weigh_insert]
      rw [ht.work, Capacity.outstanding, hfind, Option.elim_some]
    · simp only [ht.copies, copies, outward, inward, hqueue, List.flatMap_append, List.flatMap_singleton, Packet.jobs,
        ← Multiset.coe_add, Multiset.coe_singleton, ← Multiset.singleton_add]
      abel
    · simp only [ht.sent, hqueue, List.drop_left]
      rw [← Multiset.coe_add, add_comm]
      rfl

/-- A job that the client completes becomes a `completed` packet. -/
theorem follows_client {n m : Nat} {c : ConnId} {s : Net} {t : Mirror Line} (h : s.Inv n m c) (ht : s.Shows c t) {e : Event}
    {client : Control} (he : e.ofClient = true) (hs : s.client.step (.clientSide c) e = some client) :
    ({ s with client := client } : Net).Follows c t := by
  obtain ⟨-, hmove⟩ := Control.step_client h.client h.bare he hs
  refine follows_idle ht rfl ?_ rfl
  rw [copies_eq h, copies_eq (inv_client h he hs)]
  rcases hmove with ⟨hflight, hqueue⟩ | ⟨ret, hflight, hqueue⟩
  · simp only [outward, inward, hflight, hqueue]
  · have hresults : (s.toServer ++ client.cap.queue c).flatMap Packet.results = (s.inward c).flatMap Packet.results ++ [ret] := by
      rw [hqueue, ← List.append_assoc, List.flatMap_append]
      rfl
    unfold Net.inward
    rw [hresults, ← Multiset.coe_add, Multiset.coe_singleton, ← hflight]
    change _ + client.inFlight + _ = _
    unfold Net.inward Net.outward
    abel

/-- The server handles a packet: a `completed` packet takes its job out of the work. -/
theorem follows_serverReceives {c : ConnId} {s : Net} {t : Mirror Line} (ht : s.Shows c t) {packet : Packet}
    {rest : List Packet} {cap : Capacity} (hreceived : s.toServer = packet :: rest)
    (hhandled : s.server.control.cap.dispatch .serverSide c packet = .ok cap) (executed : List Line) :
    ({ s with
        server := { s.server with control := { s.server.control with cap := cap }, executed := executed }
        toServer := rest
        serverVersion := negotiate s.serverVersion packet } : Net).Follows c t := by
  have hqueue := Capacity.queue_dispatch hhandled
  have hresults : (s.inward c).flatMap Packet.results = packet.results ++ (rest ++ s.client.cap.queue c).flatMap Packet.results := by
    unfold Net.inward
    rw [hreceived]
    rfl
  rcases packet.results_cases with hnone | ⟨job, rfl⟩
  · refine follows_idle ht (Capacity.outstanding_dispatch hhandled hnone) ?_ rfl
    unfold Net.copies
    rw [hresults, hnone, List.nil_append]
    simp only [outward, inward, hqueue]
  · cases hhandled
    have hcopies : s.copies c = job ::ₘ (((s.outward c).flatMap Packet.jobs : Multiset Line) +
        ((s.client.cap.overspill : Multiset Line) + s.client.call.text + s.client.cap.weighChildren textOf) +
        ((rest ++ s.client.cap.queue c).flatMap Packet.results : Multiset Line)) := by
      rw [Net.copies, hresults, ← Multiset.coe_add, ← Multiset.singleton_add]
      change _ + ({job} + _) = _
      abel
    refine ⟨_, System.ReachFrom.single (.settle job) trivial (if_pos ?_), ?_, ?_, ht.sent⟩
    · rw [ht.copies, hcopies]
      exact Multiset.mem_cons_self job _
    · simp only [ht.work]
      exact (Capacity.outstanding_jobDoneFrom _ c job).symm
    · simp only [ht.copies, hcopies, Multiset.erase_cons_head]
      simp only [copies, outward, inward, hqueue]

/-- The client handles a packet: the job of an `execute` packet is then in the overspill. -/
theorem follows_clientReceives {c : ConnId} {s : Net} {t : Mirror Line} (ht : s.Shows c t) {packet : Packet}
    {rest : List Packet} (hreceived : s.toClient = packet :: rest) :
    ({ s with
        client := { s.client with cap := s.client.cap.processInbound (.clientSide c) c packet }
        toClient := rest
        clientVersion := negotiate s.clientVersion packet } : Net).Follows c t := by
  obtain ⟨hover, hpool, hqueue⟩ := s.client.cap.processInbound_client c packet
  refine follows_idle ht rfl ?_ rfl
  unfold Net.copies Net.outward Net.inward Capacity.weighChildren
  simp only [hover, hpool, hqueue, hreceived, List.cons_append, List.flatMap_cons, ← Multiset.coe_add]
  abel

/-- Packets of the server's queue or of the socket that go on with the same jobs. -/
theorem follows_outward {c : ConnId} {s : Net} {t : Mirror Line} (ht : s.Shows c t) {accepted : Bool}
    {queue : ConnId → List Packet} {toClient : List Packet} {clientVersion : Nat}
    (hjobs : (toClient ++ queue c).flatMap Packet.jobs = (s.outward c).flatMap Packet.jobs) :
    ({ s with
        server := s.server.withCap { s.server.control.cap with queue := queue }
        toClient := toClient
        clientVersion := clientVersion
        accepted := accepted } : Net).Follows c t := by
  refine follows_idle ht rfl ?_ rfl
  unfold Net.copies
  rw [← hjobs]
  rfl

/-- Packets of the client's queue or of the socket that go on with the same jobs. -/
theorem follows_inward {c : ConnId} {s : Net} {t : Mirror Line} (ht : s.Shows c t) {connected : Bool}
    {queue : ConnId → List Packet} {toServer : List Packet} {serverVersion : Nat}
    (hresults : (toServer ++ queue c).flatMap Packet.results = (s.inward c).flatMap Packet.results) :
    ({ s with
        client := { s.client with cap := { s.client.cap with queue := queue } }
        toServer := toServer
        serverVersion := serverVersion
        connected := connected } : Net).Follows c t := by
  refine follows_idle ht rfl ?_ rfl
  unfold Net.copies
  rw [← hresults]
  rfl

/-- One step of the two ends, while the connection is open, is at most one step of the abstract pair. -/
theorem step_follows {n m overspillCap : Nat} {c : ConnId} {s s' : Net} {a : Action} {t : Mirror Line} (h : s.Inv n m c)
    (ht : s.Shows c t) (hs : s.step overspillCap c a = some s') (hopen : s'.Open c) : s'.Follows c t := by
  cases steps_of_step hs with
  | server habout hstep => exact follows_server ht habout hstep
  | client he hstep => exact follows_client h ht he hstep
  | accepted =>
    refine follows_outward ht ?_
    rw [append_update, List.flatMap_append]
    exact List.append_nil _
  | connected =>
    refine follows_inward ht ?_
    rw [append_update, List.flatMap_append]
    exact List.append_nil _
  | serverSends htaken =>
    obtain ⟨hq, hcap⟩ := Capacity.consumePacket_eq_some htaken
    rw [hcap]
    refine follows_outward ht ?_
    rw [List.append_assoc, List.singleton_append, ← hq]
    rfl
  | clientSends htaken =>
    obtain ⟨hq, hcap⟩ := Capacity.consumePacket_eq_some htaken
    rw [hcap]
    refine follows_inward ht ?_
    rw [List.append_assoc, List.singleton_append, ← hq]
    rfl
  | serverReceives hreceived _ _ hstep =>
    cases ExecHelper.steps_of_step hstep with
    | inbound _ hhandled => exact follows_serverReceives ht hreceived hhandled _
    | thrown => exact absurd List.mem_cons_self hopen.2
  | serverWarns hreceived hunknown =>
    obtain ⟨-, hnone⟩ := (h.inward_received hreceived).unknown hunknown
    refine follows_inward ht ?_
    rw [Net.inward, hreceived, List.cons_append, List.flatMap_cons, hnone, List.nil_append]
  | clientReceives hreceived => exact follows_clientReceives ht hreceived
  | clientWarns hreceived hunknown =>
    obtain ⟨hnone, -⟩ := (h.outward_received hreceived).unknown hunknown
    refine follows_outward ht ?_
    rw [Net.outward, hreceived, List.cons_append, List.flatMap_cons, hnone, List.nil_append]
  | serverLogs =>
    refine follows_outward ht ?_
    rw [append_update, List.flatMap_append]
    exact List.append_nil _
  | clientLogs =>
    refine follows_inward ht ?_
    rw [append_update, List.flatMap_append]
    exact List.append_nil _
  | close => cases hopen.1
  | serverCloses hclosed => exact Bool.noConfusion (hopen.1.symm.trans hclosed)

/-- In every run the invariant holds and, while the connection is open, the two ends show a reached state of the abstract pair. -/
theorem shows_of_reachable {n m overspillCap : Nat} {c : ConnId} {s : Net} (h : (system n m overspillCap c).Reachable s) :
    ∃ t, Mirror.system.Reachable t ∧ s.Inv n m c ∧ (s.Open c → s.Shows c t) := by
  refine h.simulation (R := fun s t => s.Inv n m c ∧ (s.Open c → s.Shows c t)) ⟨inv_init n m overspillCap c, fun _ => ?_⟩ ?_
  · refine ⟨rfl, ?_, rfl⟩
    have hinit := inv_init n m overspillCap c
    rw [copies_eq hinit, hinit.idle rfl]
    rfl
  · rintro s a s' t ⟨hinv, hshows⟩ - hs
    by_cases hopen : s'.Open c
    · obtain ⟨t', ht', hshows'⟩ := step_follows hinv (hshows (open_of_step hs hopen)) hs hopen
      exact ⟨t', ht', hinv.step hs, fun _ => hshows'⟩
    · exact ⟨t, System.ReachFrom.refl, hinv.step hs, fun hopen' => absurd hopen' hopen⟩

/-! ## Agreement -/

/-- In every state of the two ends in which the connection is not closed and is registered at the server: every job of its work has
a copy between the books, and where the texts dispatched to it are pairwise different it has exactly one, there is no other copy,
and there are at most as many as the capacity of the connection. -/
theorem server_client_agree (n m overspillCap : Nat) (c : ConnId) (s : Net) (h : (system n m overspillCap c).Reachable s)
    (hopen : s.closed = false) (remote : Remote) (hregistered : s.server.control.cap.connections.find? c = some remote) :
    (∀ j ∈ remote.work.keys, 1 ≤ (s.copies c).count j) ∧
      (s.dispatched.Nodup →
        (∀ j ∈ remote.work.keys, (s.copies c).count j = 1) ∧ (∀ j ∈ s.copies c, j ∈ remote.work.keys) ∧
          Multiset.card (s.copies c) ≤ remote.cap) := by
  obtain ⟨t, ht, hinv, hshows⟩ := shows_of_reachable h
  obtain ⟨-, halive⟩ := hinv.registered (by simp [hregistered])
  have hs := hshows ⟨hopen, halive⟩
  have hagree := Mirror.agree_of_reach ht
  have hwork : t.work = (remote.work.keys : Multiset Line) := by
    rw [hs.work, Capacity.outstanding, hregistered, Option.elim_some, Remote.weigh_textOf]
  refine ⟨?_, ?_⟩
  · intro j hj
    rw [Multiset.one_le_count_iff_mem, ← hs.copies]
    exact hagree.copied j (by rwa [hwork])
  · intro hnodup
    have hexact : s.copies c = (remote.work.keys : Multiset Line) := by
      rw [← hs.copies, ← hwork]
      refine hagree.exact ?_
      rw [hs.sent]
      exact hnodup
    rw [hexact]
    refine ⟨?_, fun j hj => hj, ?_⟩
    · intro j hj
      exact Multiset.count_eq_one_of_mem (Multiset.coe_nodup.mpr remote.work.nodup_keys) hj
    · rw [Multiset.coe_card, OrdMap.keys, List.length_map]
      exact hinv.server.books.bounded c remote hregistered

/-- One job on its way back in a `completed` packet, one with the child of the client and one in an `execute` packet. -/
theorem server_client_agree_run :
    ∃ (s : Net) (remote : Remote), s.server.control.cap.connections.find? 7 = some remote ∧
      remote.work.keys = [[97], [98], [99]] ∧ s.dispatched = [[97], [98], [99]] ∧
      (∀ j ∈ remote.work.keys, 1 ≤ (s.copies 7).count j) ∧
      (∀ j ∈ remote.work.keys, (s.copies 7).count j = 1) ∧ (∀ j ∈ s.copies 7, j ∈ remote.work.keys) ∧
      Multiset.card (s.copies 7) ≤ remote.cap := by
  obtain ⟨s, hs, hp⟩ := System.reachable_of_run (S := system 1 1 2 7)
    [.accepted, .connected, .clientSends, .serverReceives, .serverSends, .clientReceives, .server .drained, .server (.line [97]),
      .server (.internal .token), .server .drained, .server (.line [98]), .server (.internal .token), .server .drained,
      .server (.line [99]), .server (.internal .token), .serverSends, .serverSends, .clientReceives, .client .consume,
      .client .token, .client .written, .client (.stdout 0 [97]), .clientSends, .clientReceives, .client .consume, .client .token,
      .client .written]
    (fun s => decide (s.closed = false) && s.dispatched == [[97], [98], [99]] &&
      (s.server.control.cap.connections.find? 7).elim false (fun remote => remote.work.keys == [[97], [98], [99]])) (by decide)
  simp only [Bool.and_eq_true, decide_eq_true_eq, beq_iff_eq] at hp
  obtain ⟨⟨hopen, hdispatched⟩, hreg⟩ := hp
  cases hf : s.server.control.cap.connections.find? 7 with
  | none => simp [hf] at hreg
  | some remote =>
    simp only [hf, Option.elim_some, beq_iff_eq] at hreg
    obtain ⟨hcopied, hexact⟩ := server_client_agree 1 1 2 7 s hs hopen remote hf
    exact ⟨s, remote, hf, hreg, hdispatched, hcopied, hexact (hdispatched ▸ of_decide_eq_true rfl)⟩

end Net

end FostWright
