import FostWright.Theorems.Net

/-!
# The handshake

What the version packets settle. A client announces its slots and those of its overspill once, in the first packet that it sends; that is
the capacity it is registered with, and nothing that comes after it makes a handler throw. So a server stops to read from a connection only
when the socket has closed, and gives a client no more jobs than it has announced.
-/

namespace FostWright

open Lib

/-- A version packet. -/
def Packet.isVersion : Packet → Bool
  | .version _ _ => true
  | _ => false

/-- The slots of a client with `m` children, with those of its overspill. -/
def announcedCap (m overspillCap : Nat) : Nat := bufferSize * m + overspillCap * m

/-- What a client sends: the version packet of its slots, and never a job. -/
def Packet.FromClient (m overspillCap : Nat) (packet : Packet) : Prop :=
  packet.jobs = [] ∧ (packet.isVersion = true → packet = .version maxVersion (some (announcedCap m overspillCap)))

/-- The version packet of a client without connections of its own. -/
theorem Capacity.outVersion_of_bare {m : Nat} {s : Capacity} {held : Multiset Token} (ha : s.Accounted m held) (h : s.Bare)
    (overspillCap : Nat) : s.outVersion overspillCap = .version maxVersion (some (announcedCap m overspillCap)) := by
  unfold outVersion announcedCap
  rw [limit_of_bare ha h, ha.children, Int.toNat_natCast]

namespace Net

/-- Whether the connection is registered at the server, as a number. -/
def registrations (c : ConnId) (s : Net) : Nat := if (s.server.control.cap.connections.find? c).isSome then 1 else 0

/-- What holds between the version packet of the client and the registration of its connection. -/
structure Handshake (m overspillCap : Nat) (c : ConnId) (s : Net) : Prop where
  window : ∀ remote, s.server.control.cap.connections.find? c = some remote → remote.cap = announcedCap m overspillCap
  fromClient : ∀ packet ∈ s.inward c, packet.FromClient m overspillCap
  once : (s.inward c).countP Packet.isVersion + s.registrations c ≤ if s.connected then 1 else 0
  negotiated : 0 < s.serverVersion → c ∉ s.server.ended → s.registrations c = 1
  ended : c ∈ s.server.ended → s.closed = true

theorem handshake_init (n m overspillCap : Nat) (c : ConnId) : (system n m overspillCap c).init.Handshake m overspillCap c :=
  ⟨nofun, nofun, le_rfl, fun h => absurd h (lt_irrefl 0), nofun⟩

/-- `connected` is called once. -/
theorem connected_of_step {overspillCap : Nat} {c : ConnId} {s s' : Net} (h : s.step overspillCap c .connected = some s') :
    s.connected = false := by
  simp only [step] at h
  split at h
  · cases h
  · rename_i hconnected
    exact Bool.eq_false_iff.mpr hconnected

/-- A packet that is not a version packet adds nothing to the handshake. -/
theorem Handshake.append {m overspillCap : Nat} {c : ConnId} {s s' : Net} (h : s.Handshake m overspillCap c) (packet : Packet)
    (hinward : s'.inward c = s.inward c ++ [packet]) (hjobs : packet.jobs = []) (hplain : packet.isVersion = false)
    (hserver : s'.server = s.server) (hversion : s'.serverVersion = s.serverVersion) (hconnected : s'.connected = s.connected)
    (hclosed : s'.closed = s.closed) : s'.Handshake m overspillCap c := by
  have hregs : s'.registrations c = s.registrations c := by
    unfold registrations
    rw [hserver]
  refine ⟨hserver ▸ h.window, ?_, ?_, ?_, ?_⟩
  · intro p hp
    rw [hinward] at hp
    rcases List.mem_append.mp hp with hp | hp
    · exact h.fromClient p hp
    · obtain rfl := List.mem_singleton.mp hp
      exact ⟨hjobs, fun hv => absurd hv (by rw [hplain]; exact Bool.false_ne_true)⟩
  · rw [hinward, List.countP_append, List.countP_singleton, if_neg (by rw [hplain]; exact Bool.false_ne_true), hregs, hconnected]
    exact h.once
  · rw [hversion, hserver, hregs]
    exact h.negotiated
  · rw [hserver, hclosed]
    exact h.ended

/-- The same packets on their way to the server, and the same registration there. -/
theorem Handshake.keep {m overspillCap : Nat} {c : ConnId} {s s' : Net} (h : s.Handshake m overspillCap c)
    (hinward : s'.inward c = s.inward c)
    (hwindow : ∀ remote, s'.server.control.cap.connections.find? c = some remote →
      ∃ old, s.server.control.cap.connections.find? c = some old ∧ old.cap = remote.cap)
    (hregs : s'.registrations c = s.registrations c) (hended : c ∈ s'.server.ended ↔ c ∈ s.server.ended)
    (hversion : s'.serverVersion = s.serverVersion) (hconnected : s'.connected = s.connected)
    (hclosed : s.closed = true → s'.closed = true) : s'.Handshake m overspillCap c := by
  refine ⟨?_, ?_, ?_, ?_, ?_⟩
  · intro remote hremote
    obtain ⟨old, hold, hcap⟩ := hwindow remote hremote
    exact hcap.symm.trans (h.window old hold)
  · rw [hinward]
    exact h.fromClient
  · rw [hinward, hregs, hconnected]
    exact h.once
  · intro hpos halive
    rw [hregs]
    exact h.negotiated (hversion ▸ hpos) (halive ∘ hended.mpr)
  · exact fun hin => hclosed (h.ended (hended.mp hin))

/-- An action of the server that is not about the connection. -/
theorem Handshake.server {m overspillCap : Nat} {c : ConnId} {s : Net} (h : s.Handshake m overspillCap c) {a : ExecHelper.Action}
    {server : ExecHelper} (habout : a.about ≠ some c) (hs : s.server.step a = some server) (dispatched : List Line) :
    ({ s with server := server, dispatched := dispatched } : Net).Handshake m overspillCap c := by
  have hended := ExecHelper.ended_of_step habout hs
  rcases ExecHelper.step_frame habout hs with ⟨hfind, -⟩ | ⟨remote, job, task, hfind, hfind', -⟩
  · refine h.keep rfl (fun remote hremote => ⟨remote, hfind ▸ hremote, rfl⟩) ?_ hended rfl rfl id
    unfold registrations
    simp only [hfind]
  · refine h.keep rfl ?_ ?_ hended rfl rfl id
    · intro other hother
      obtain rfl := Option.some.inj (hfind'.symm.trans hother)
      exact ⟨remote, hfind, rfl⟩
    · unfold registrations
      simp only [hfind, hfind', Option.isSome_some]

/-- The packets on their way to the server without the first one, which is not a version packet. -/
theorem Handshake.receive {m overspillCap : Nat} {c : ConnId} {s : Net} (h : s.Handshake m overspillCap c) {packet : Packet}
    {rest : List Packet} (hreceived : s.toServer = packet :: rest) :
    packet.FromClient m overspillCap ∧ (∀ p ∈ rest ++ s.client.cap.queue c, p.FromClient m overspillCap) ∧
      (rest ++ s.client.cap.queue c).countP Packet.isVersion + (if packet.isVersion then 1 else 0) + s.registrations c ≤
        if s.connected then 1 else 0 := by
  have hinward : s.inward c = packet :: (rest ++ s.client.cap.queue c) := by
    unfold Net.inward
    rw [hreceived]
    rfl
  have hfrom := h.fromClient
  have honce := h.once
  rw [hinward] at hfrom honce
  rw [List.countP_cons] at honce
  exact ⟨hfrom _ List.mem_cons_self, fun p hp => hfrom p (List.mem_cons_of_mem _ hp), honce⟩

/-- The version packet registers the connection with what the client has announced; any other packet that is handled finds it
registered. Neither throws. -/
theorem Handshake.dispatch {m overspillCap : Nat} {c : ConnId} {s : Net} (h : s.Handshake m overspillCap c) {packet : Packet}
    {rest : List Packet} (hreceived : s.toServer = packet :: rest) (hknown : packet.since ≤ s.serverVersion)
    (halive : c ∉ s.server.ended) :
    1 ≤ (if packet.isVersion then 1 else 0) + s.registrations c ∧
      ∃ cap remote, s.server.control.cap.dispatch .serverSide c packet = .ok cap ∧ cap.connections.find? c = some remote ∧
        remote.cap = announcedCap m overspillCap := by
  obtain ⟨hfrom, -, honce⟩ := h.receive hreceived
  by_cases hv : packet.isVersion = true
  · refine ⟨by rw [if_pos hv]; exact Nat.le_add_right 1 _, ?_⟩
    rw [if_pos hv] at honce
    rw [hfrom.2 hv]
    have hnone : s.server.control.cap.connections.find? c = none := by
      by_contra hsome
      have hreg : s.registrations c = 1 := if_pos (Option.isSome_iff_ne_none.mpr hsome)
      split at honce <;> omega
    have hok : s.server.control.cap.additional c (announcedCap m overspillCap) =
        .ok { s.server.control.cap with
          connections := s.server.control.cap.connections.insert c { cap := announcedCap m overspillCap, work := OrdMap.empty }
          limiter := s.server.control.cap.limiter.increaseLimit (announcedCap m overspillCap) } := by
      unfold Capacity.additional
      rw [hnone]
    exact ⟨_, _, hok, OrdMap.find?_insert_self _ _ _, rfl⟩
  · have hreg : s.registrations c = 1 := by
      refine h.negotiated ?_ halive
      refine lt_of_lt_of_le ?_ hknown
      cases packet <;> first | exact absurd rfl hv | exact Nat.one_pos
    refine ⟨hreg.ge.trans (Nat.le_add_left _ _), ?_⟩
    obtain ⟨remote, hremote⟩ : ∃ remote, s.server.control.cap.connections.find? c = some remote := by
      rw [← Option.isSome_iff_exists]
      unfold registrations at hreg
      by_contra hno
      rw [if_neg hno] at hreg
      cases hreg
    have hwindow := h.window remote hremote
    cases packet with
    | version v capacity => exact absurd rfl hv
    | execute job => exact ⟨_, remote, rfl, hremote, hwindow⟩
    | logMessage message => exact ⟨_, remote, rfl, hremote, hwindow⟩
    | completed job =>
      have hat : s.server.control.cap.remoteAt c = (s.server.control.cap, remote) := by
        unfold Capacity.remoteAt
        rw [hremote]
      rcases s.server.control.cap.jobDoneFrom_cases c job with ⟨-, hdone⟩ | ⟨task, -, hdone⟩
      · rw [hat] at hdone
        exact ⟨_, remote, congrArg Except.ok hdone, hremote, hwindow⟩
      · rw [hat] at hdone
        exact ⟨_, _, congrArg Except.ok hdone, OrdMap.find?_insert_self _ _ _, hwindow⟩

/-- One action. -/
theorem Handshake.step {n m overspillCap : Nat} {c : ConnId} {s s' : Net} {a : Action} (hi : s.Inv n m c)
    (h : s.Handshake m overspillCap c) (hs : s.step overspillCap c a = some s') : s'.Handshake m overspillCap c := by
  cases steps_of_step hs with
  | server habout hstep => exact h.server habout hstep _
  | client he hstep =>
    obtain ⟨-, hmove⟩ := Control.step_client hi.client hi.bare he hstep
    rcases hmove with ⟨-, hqueue⟩ | ⟨ret, -, hqueue⟩
    · refine h.keep ?_ (fun remote hremote => ⟨remote, hremote, rfl⟩) rfl Iff.rfl rfl rfl id
      simp only [Net.inward, hqueue]
    · refine h.append (.completed ret) ?_ rfl rfl rfl rfl rfl rfl
      simp only [Net.inward, hqueue, List.append_assoc]
  | accepted => exact h.keep rfl (fun remote hremote => ⟨remote, hremote, rfl⟩) rfl Iff.rfl rfl rfl id
  | connected =>
    have hinward : ({ s with client := { s.client with cap := s.client.cap.established overspillCap c }, connected := true } : Net).inward
        c = s.inward c ++ [.version maxVersion (some (announcedCap m overspillCap))] := by
      rw [← Capacity.outVersion_of_bare hi.client.books hi.bare overspillCap]
      exact append_update _ _ _ _
    have honce := h.once
    rw [if_neg (by rw [connected_of_step hs]; exact Bool.false_ne_true)] at honce
    refine ⟨h.window, ?_, ?_, h.negotiated, h.ended⟩
    · intro p hp
      rw [hinward] at hp
      rcases List.mem_append.mp hp with hp | hp
      · exact h.fromClient p hp
      · obtain rfl := List.mem_singleton.mp hp
        exact ⟨rfl, fun _ => rfl⟩
    · rw [hinward, List.countP_append]
      change _ + 1 + s.registrations c ≤ 1
      omega
  | serverSends htaken =>
    obtain ⟨-, hcap⟩ := Capacity.consumePacket_eq_some htaken
    rw [hcap]
    exact h.keep rfl (fun remote hremote => ⟨remote, hremote, rfl⟩) rfl Iff.rfl rfl rfl id
  | clientSends htaken =>
    obtain ⟨hq, hcap⟩ := Capacity.consumePacket_eq_some htaken
    refine h.keep ?_ (fun remote hremote => ⟨remote, hremote, rfl⟩) rfl Iff.rfl rfl rfl id
    unfold Net.inward
    rw [hq]
    simp only [List.append_assoc, List.singleton_append]
  | @serverReceives packet rest server hreceived _ hknown hstep =>
    obtain ⟨-, hrest, honce⟩ := h.receive hreceived
    cases ExecHelper.steps_of_step hstep with
    | inbound halive hhandled =>
      obtain ⟨hone, cap, remote, hok, hfind, hcap⟩ := h.dispatch hreceived hknown halive
      obtain rfl := Except.ok.inj (hhandled.symm.trans hok)
      refine ⟨fun other hother => ?_, hrest, ?_, fun _ _ => ?_, h.ended⟩
      · obtain rfl := Option.some.inj (hfind.symm.trans hother)
        exact hcap
      · simp only [registrations, hfind, Option.isSome_some, if_true]
        have hcount : (rest ++ s.client.cap.queue c).countP Packet.isVersion + 1 ≤ if s.connected then 1 else 0 := by omega
        exact hcount
      · simp only [registrations, hfind, Option.isSome_some, if_true]
    | thrown halive hhandled =>
      obtain ⟨-, cap, remote, hok, -⟩ := h.dispatch hreceived hknown halive
      rw [hok] at hhandled
      cases hhandled
  | @serverWarns packet rest hreceived hunknown =>
    obtain ⟨-, hrest, honce⟩ := h.receive hreceived
    have hsame : negotiate s.serverVersion packet = s.serverVersion := by
      cases packet <;> first | rfl | exact absurd (Nat.zero_le _) hunknown
    refine ⟨h.window, hrest, ?_, ?_, h.ended⟩
    · exact (Nat.add_le_add_right (Nat.le_add_right _ _) _).trans honce
    · simp only [hsame]
      exact h.negotiated
  | @clientReceives packet =>
    obtain ⟨-, -, hqueue⟩ := s.client.cap.processInbound_client c packet
    refine h.keep ?_ (fun remote hremote => ⟨remote, hremote, rfl⟩) rfl Iff.rfl rfl rfl id
    unfold Net.inward
    simp only [hqueue]
  | clientWarns => exact h.keep rfl (fun remote hremote => ⟨remote, hremote, rfl⟩) rfl Iff.rfl rfl rfl id
  | serverLogs => exact h.keep rfl (fun remote hremote => ⟨remote, hremote, rfl⟩) rfl Iff.rfl rfl rfl id
  | @clientLogs message => exact h.append (.logMessage message) (append_update _ _ _ _) rfl rfl rfl rfl rfl rfl
  | close => exact ⟨h.window, h.fromClient, h.once, h.negotiated, fun _ => rfl⟩
  | serverCloses hclosed hstep =>
    cases ExecHelper.steps_of_step hstep with
    | closed =>
      have hnone : (s.server.control.cap.overspillWork c).connections.find? c = none :=
        (Capacity.find?_overspillWork _ _ _).trans (if_pos rfl)
      refine ⟨?_, h.fromClient, ?_, fun _ halive => absurd List.mem_cons_self halive, fun _ => hclosed⟩
      · intro remote hremote
        rw [hnone] at hremote
        cases hremote
      · have honce := h.once
        simp only [registrations, hnone, Option.isSome_none, Bool.false_eq_true, if_false]
        exact (Nat.le_add_right _ _).trans honce

end Net

end FostWright
