import FostWright.Lemmas.Network
import FostWright.Network
import Mathlib.Algebra.BigOperators.Group.Finset.Piecewise

/-!
# The cluster comes to its end

Each connection of the network is one of `Net` with a server that also does other things, so that what holds of two ends holds of all
connections at once. A connection that is closed gives its jobs back; each time a job is given back one connection less is left, so that
only so many rounds are possible.
-/

namespace FostWright

open Lib

namespace Net

/-- What happens at a connection changes the server at its queue, or is a packet of the connection, without a job, or its end. -/
theorem server_of_step {m overspillCap : Nat} {c : ConnId} {s t : Net} {a : Action} (hh : s.Handshake m overspillCap c)
    (hown : ∀ b, a ≠ .server b) (hs : s.step overspillCap c a = some t) :
    (∃ queue : ConnId → List Packet, (∀ d, d ≠ c → queue d = s.server.control.cap.queue d) ∧
        t.server = s.server.withCap { s.server.control.cap with queue := queue }) ∨
      ∃ b, (b = .closed c ∨ ∃ packet : Packet, packet.jobs = [] ∧ b = .inbound c packet) ∧ s.server.step b = some t.server ∧
        t.server.control.cap.queue = s.server.control.cap.queue := by
  have hsame : t.server = s.server → ∃ queue : ConnId → List Packet, (∀ d, d ≠ c → queue d = s.server.control.cap.queue d) ∧
      t.server = s.server.withCap { s.server.control.cap with queue := queue } :=
    fun h => ⟨s.server.control.cap.queue, fun _ _ => rfl, h⟩
  cases steps_of_step hs with
  | server => exact absurd rfl (hown _)
  | client => exact Or.inl (hsame rfl)
  | accepted => exact Or.inl ⟨_, fun d hd => Function.update_of_ne hd _ _, rfl⟩
  | connected => exact Or.inl (hsame rfl)
  | @serverSends packet cap htaken =>
    obtain ⟨-, hcap⟩ := Capacity.consumePacket_eq_some htaken
    refine Or.inl ⟨cap.queue, fun d hd => ?_, congrArg s.server.withCap hcap⟩
    unfold Capacity.consumePacket at htaken
    split at htaken
    · cases htaken
      exact Function.update_of_ne hd _ _
    · cases htaken
  | clientSends => exact Or.inl (hsame rfl)
  | @serverReceives packet rest server hreceived _ _ hstep =>
    refine Or.inr ⟨.inbound c packet, Or.inr ⟨packet, (hh.receive hreceived).1.1, rfl⟩, hstep, ?_⟩
    cases ExecHelper.steps_of_step hstep with
    | inbound _ hhandled => exact Capacity.queue_dispatch hhandled
    | thrown => exact Capacity.queue_overspillWork _ _
  | serverWarns => exact Or.inl (hsame rfl)
  | clientReceives => exact Or.inl (hsame rfl)
  | clientWarns => exact Or.inl (hsame rfl)
  | serverLogs => exact Or.inl ⟨_, fun d hd => Function.update_of_ne hd _ _, rfl⟩
  | clientLogs => exact Or.inl (hsame rfl)
  | close => exact Or.inl (hsame rfl)
  | serverCloses _ hstep =>
    refine Or.inr ⟨.closed c, Or.inl rfl, hstep, ?_⟩
    cases ExecHelper.steps_of_step hstep with
    | closed => exact Capacity.queue_overspillWork _ _

end Net

namespace Network

theorem relink_self (s : Network) (c : ConnId) (t : Net) : (s.relink c t).link c = t := by
  simp only [link, relink, Function.update_self]

theorem relink_other (s : Network) {c d : ConnId} (hd : d ≠ c) (t : Net) :
    (s.relink c t).link d = { s.link d with server := t.server } := by
  simp only [link, relink, Function.update_of_ne hd]

/-- What the server does by itself is an action at every connection. -/
theorem step_withServer (overspillCap : Nat) {s : Network} {a : ExecHelper.Action} {server : ExecHelper} (habout : a.about = none)
    (hs : s.server.step a = some server) (c : ConnId) :
    (s.link c).step overspillCap c (.server a) = some ((s.withServer server).link c) := by
  have hne : a.about ≠ some c := by
    rw [habout]
    exact nofun
  have hstep : (s.link c).server.step a = some server := hs
  simp only [Net.step, if_neg hne, hstep, Option.map_some]
  rfl

/-! ## Every connection is sound -/

/-- What holds of every connection in every run without empty jobs. -/
def Sound (n : Nat) (m : ConnId → Nat) (overspillCap : Nat) (s : Network) : Prop :=
  ∀ c, (s.link c).Sound n (m c) overspillCap c

theorem sound_init (n : Nat) (m : ConnId → Nat) (overspillCap : Nat) (clients : Finset ConnId) :
    (system n m overspillCap clients).init.Sound n m overspillCap :=
  fun c => Net.sound_init n (m c) overspillCap c

/-- One action that brings in no empty job. -/
theorem Sound.step {n : Nat} {m : ConnId → Nat} {overspillCap : Nat} {clients : Finset ConnId} {s s' : Network} {a : Action}
    (h : s.Sound n m overspillCap) (hok : s.NonEmptyJobs a) (hs : s.step overspillCap clients a = some s') :
    s'.Sound n m overspillCap := by
  intro d
  cases steps_of_step hs with
  | @server a _ habout hstep => exact (h d).step (a := .server a) hok (step_withServer overspillCap habout hstep d)
  | @link c a t hown _ hstep =>
    have hempty : (s.link c).NonEmptyJobs a := by
      cases a with
      | server b => exact absurd rfl (hown b)
      | _ => trivial
    by_cases hd : d = c
    · subst hd
      rw [relink_self]
      exact (h d).step hempty hstep
    · rw [relink_other s hd]
      rcases Net.server_of_step (h c).handshake hown hstep with ⟨queue, hqueue, hserver⟩ | ⟨b, hb, hserver, hqueue⟩
      · rw [hserver]
        exact (h d).elsewhere (hqueue d hd)
      · -- the packet or the end of another connection is an action of the server here
        obtain ⟨hne, hempty⟩ : b.about ≠ some d ∧ s.server.NonEmptyJobs b := by
          rcases hb with rfl | ⟨packet, hjobs, rfl⟩
          · exact ⟨fun hcd => hd (Option.some.inj hcd).symm, trivial⟩
          · refine ⟨fun hcd => hd (Option.some.inj hcd).symm, ?_⟩
            rw [ExecHelper.NonEmptyJobs, hjobs]
            exact List.not_mem_nil
        refine (h d).step (a := .server b) hempty ?_
        have hstep' : (s.link d).server.step b = some t.server := hserver
        have hnone : ((t.server.control.cap.queue d).drop ((s.link d).server.control.cap.queue d).length).flatMap Packet.jobs = [] := by
          rw [hqueue]
          simp [Network.link]
        simp only [Net.step, if_neg hne, hstep', Option.map_some, hnone, List.append_nil]

theorem sound_of_reach {n : Nat} {m : ConnId → Nat} {overspillCap : Nat} {clients : Finset ConnId} {s : Network}
    (h : (system n m overspillCap clients).Reach NonEmptyJobs s) : s.Sound n m overspillCap :=
  h.invariant (sound_init n m overspillCap clients) (fun _ _ _ hi hok hs => hi.step hok hs)

/-- Only the clients are ever accepted. -/
theorem mem_of_accepted {n : Nat} {m : ConnId → Nat} {overspillCap : Nat} {clients : Finset ConnId} {ok : Network → Action → Prop}
    {s : Network} (h : (system n m overspillCap clients).Reach ok s) : ∀ c, (s.side c).accepted = true → c ∈ clients := by
  refine h.invariant (I := fun s => ∀ c, (s.side c).accepted = true → c ∈ clients) nofun ?_
  intro s a s' hi _ hs d hd
  cases steps_of_step hs with
  | server => exact hi d hd
  | @link c a t hown hclient hstep =>
    by_cases hdc : d = c
    · exact hdc ▸ hclient
    · refine hi d ?_
      have hside : ((s.relink c t).side d) = s.side d := Function.update_of_ne hdc _ _
      rwa [hside] at hd

/-! ## What is left to do -/

/-- What the server does by itself ends no connection. -/
theorem ended_of_own {s s' : ExecHelper} {a : ExecHelper.Action} (habout : a.about = none) (hs : s.step a = some s') :
    s'.ended = s.ended := by
  cases ExecHelper.steps_of_step hs with
  | thrown => cases habout
  | closed => cases habout
  | _ => rfl

/-- What the server queues at a connection adds to what is between its two ends. -/
theorem between_server {c : ConnId} {s : Net} {server : ExecHelper} {dispatched : List Line} {k : Nat}
    (hqueued : server.control.cap.queued c = s.server.control.cap.queued c + k) :
    ({ s with server := server, dispatched := dispatched } : Net).between c = s.between c + k := by
  simp only [Net.between, hqueued]
  omega

/-- What the server does by itself, with what it queues for any of the clients. -/
theorem remaining_withServer {n : Nat} {m : ConnId → Nat} {overspillCap : Nat} {clients : Finset ConnId} {s : Network}
    (h : s.Sound n m overspillCap) {a : ExecHelper.Action} {server : ExecHelper} (habout : a.about = none)
    (hp : s.server.Productive a) (hs : s.server.step a = some server) : (s.withServer server).remaining clients < s.remaining clients := by
  have hunended : (s.withServer server).unended clients = s.unended clients := by
    unfold unended
    simp only [withServer, ended_of_own habout hs]
  have horderly : s.server.Orderly n := (h 0).orderly.server
  unfold remaining
  rw [hunended]
  change server.remaining _ 8 + _ + _ < _
  rcases ExecHelper.remaining_of_productive (d := 12 * s.unended clients + 1) (Nat.succ_pos _) horderly hp hs with
    ⟨hqueue, hlt⟩ | ⟨d, job, hqueue, hlt⟩
  · have hsum : ∑ c ∈ clients, ((s.withServer server).link c).between c = ∑ c ∈ clients, (s.link c).between c := by
      refine Finset.sum_congr rfl (fun c _ => ?_)
      exact between_server (s := s.link c) (k := 0) (Capacity.queued_of_eq (congrFun hqueue c))
    rw [hsum]
    omega
  · have hbetween : ∀ c, ((s.withServer server).link c).between c = (s.link c).between c + if c = d then 8 else 0 := by
      intro c
      refine between_server (s := s.link c) ?_
      change server.control.cap.queued c = s.server.control.cap.queued c + _
      by_cases hc : c = d
      · subst hc
        rw [if_pos rfl, Capacity.queued_append ((congrFun hqueue c).trans (Function.update_self _ _ _))]
        rfl
      · rw [if_neg hc]
        exact Capacity.queued_of_eq ((congrFun hqueue c).trans (Function.update_of_ne hc _ _))
    have hsum : ∑ c ∈ clients, ((s.withServer server).link c).between c ≤ ∑ c ∈ clients, (s.link c).between c + 8 := by
      rw [Finset.sum_congr rfl (fun c _ => hbetween c), Finset.sum_add_distrib, Finset.sum_ite_eq']
      split <;> omega
    omega

/-- The other connections stay as they are, except for their queues. -/
theorem between_relink {n : Nat} {m : ConnId → Nat} {overspillCap : Nat} {clients : Finset ConnId} {s : Network}
    (h : s.Sound n m overspillCap) {c : ConnId} {a : Net.Action} {t : Net} (hown : ∀ b, a ≠ .server b) (hclient : c ∈ clients)
    (hs : (s.link c).step overspillCap c a = some t) :
    ∑ d ∈ clients, ((s.relink c t).link d).between d + (s.link c).between c = ∑ d ∈ clients, (s.link d).between d + t.between c := by
  have hother : ∀ d ∈ clients.erase c, ((s.relink c t).link d).between d = (s.link d).between d := by
    intro d hd
    have hdc := Finset.ne_of_mem_erase hd
    rw [relink_other s hdc]
    refine between_server (s := s.link d) (k := 0) (Capacity.queued_of_eq ?_)
    rcases Net.server_of_step (h c).handshake hown hs with ⟨queue, hqueue, hserver⟩ | ⟨b, -, -, hqueue⟩
    · rw [hserver]
      exact hqueue d hdc
    · exact congrFun hqueue d
  have hsum := Finset.sum_congr rfl hother
  have hafter := Finset.add_sum_erase clients (fun d => ((s.relink c t).link d).between d) hclient
  have hbefore := Finset.add_sum_erase clients (fun d => (s.link d).between d) hclient
  simp only [relink_self] at hafter hbefore
  omega

/-- A connection that has ended is one connection less. -/
theorem unended_cons {clients : Finset ConnId} {ended : List ConnId} {c : ConnId} (hclient : c ∈ clients) (halive : c ∉ ended) :
    (clients.filter (fun d => d ∉ c :: ended)).card + 1 = (clients.filter (fun d => d ∉ ended)).card := by
  have hfilter : clients.filter (fun d => d ∉ c :: ended) = (clients.filter (fun d => d ∉ ended)).erase c := by
    ext d
    simp only [Finset.mem_filter, Finset.mem_erase, List.mem_cons, not_or]
    tauto
  rw [hfilter]
  exact Finset.card_erase_add_one (Finset.mem_filter.mpr ⟨hclient, halive⟩)

/-- A connection that the server is done with: its jobs go back, and there is one connection less for them to go to. -/
theorem remaining_closed {n : Nat} {m : ConnId → Nat} {overspillCap : Nat} {clients : Finset ConnId} {s : Network}
    (h : s.Sound n m overspillCap) {c : ConnId} (hclient : c ∈ clients) (halive : c ∉ s.server.ended) {t : Net}
    (hserver : t.server = { s.server with
      control := { s.server.control with cap := s.server.control.cap.overspillWork c }, ended := c :: s.server.ended })
    (hbetween : t.between c = (s.link c).between c)
    (hsum : ∑ d ∈ clients, ((s.relink c t).link d).between d + (s.link c).between c =
      ∑ d ∈ clients, (s.link d).between d + t.between c) : (s.relink c t).remaining clients < s.remaining clients := by
  have hunended : (s.relink c t).unended clients + 1 = s.unended clients := by
    refine Eq.trans ?_ (unended_cons hclient halive)
    unfold unended
    simp only [relink, hserver]
  have hbooks : s.server.control.Accounted n := (h c).orderly.server.control.books
  have hcost := Control.remaining_overspillWork (12 * (s.relink c t).unended clients + 1) hbooks c
  have hserver' : (s.relink c t).server = t.server := rfl
  have hdone : 12 * ((s.relink c t).unended clients + 1) + 1 = 12 * (s.relink c t).unended clients + 1 + 12 := by omega
  unfold remaining
  rw [← hunended, hdone, hserver', hserver]
  simp only [ExecHelper.remaining]
  omega

/-- What takes the network forward leaves less to do. -/
theorem remaining_lt {n : Nat} {m : ConnId → Nat} {overspillCap : Nat} {clients : Finset ConnId} {s s' : Network} {a : Action}
    (h : s.Sound n m overspillCap) (hp : s.Productive a) (hs : s.step overspillCap clients a = some s') :
    s'.remaining clients < s.remaining clients := by
  cases steps_of_step hs with
  | server habout hstep => exact remaining_withServer h habout hp hstep
  | @link c a t hown hclient hstep =>
    have hsum := between_relink h hown hclient hstep
    by_cases hcloses : a = .serverCloses
    · subst hcloses
      cases Net.steps_of_step hstep with
      | serverCloses _ hserver =>
        cases ExecHelper.steps_of_step hserver with
        | closed halive =>
          refine remaining_closed h hclient halive rfl ?_ hsum
          exact between_server (k := 0) (Capacity.queued_of_eq (congrFun (Capacity.queue_overspillWork _ c) c))
    · have hlt := Net.between_lt (d := 12 * s.unended clients + 1) (h c) hown hcloses hp hstep
      have hunended : (s.relink c t).unended clients = s.unended clients := by
        unfold unended
        exact congrArg (fun ended => (clients.filter (fun d => d ∉ ended)).card) hlt.2
      have hserver := hlt.1
      unfold remaining
      rw [hunended]
      simp only [relink, link] at hserver hsum ⊢
      omega

/-! ## There is always something to wait for -/

/-- What takes the network forward brings in no job. -/
theorem Productive.nonEmptyJobs {s : Network} {a : Action} (h : s.Productive a) : s.NonEmptyJobs a := by
  cases a with
  | server a => exact ExecHelper.Productive.nonEmptyJobs h
  | link => trivial

/-- The manager has returned, and at each connection that is open both ends are established and no job is on its way. -/
def Finished (clients : Finset ConnId) (s : Network) : Prop :=
  s.server.Finished ∧ ∀ c ∈ clients, (s.side c).closed = false →
    (s.side c).accepted = true ∧ (s.side c).connected = true ∧ (s.link c).copies c = 0

/-- A connection of a network that is stuck: it has ended, or both ends are established and no job is on its way. -/
theorem link_of_stuck {n : Nat} {m : ConnId → Nat} {overspillCap : Nat} {clients : Finset ConnId} (hm : ∀ c ∈ clients, 0 < m c)
    {s : Network} (h : s.Sound n m overspillCap) (hstuck : (system n m overspillCap clients).Stuck Productive s) {c : ConnId}
    (hclient : c ∈ clients) :
    ((s.side c).closed = true → c ∈ s.server.ended) ∧
      ((s.side c).closed = false → (s.side c).accepted = true ∧ (s.side c).connected = true ∧ (s.link c).copies c = 0) := by
  have hlink : ∀ a, (∀ b, a ≠ .server b) → (s.link c).Productive a → (s.link c).step overspillCap c a = none := by
    intro a hown hp
    have hnone := hstuck (.link c a) hp
    cases a with
    | server b => exact absurd rfl (hown b)
    | _ => simpa only [system, step, if_pos hclient, Option.map_eq_none_iff] using hnone
  refine ⟨?_, ?_⟩
  · intro hclosed
    have hnone := hlink .serverCloses (fun _ h => by cases h) trivial
    by_contra halive
    simp [Net.step, link, hclosed, ExecHelper.step, halive] at hnone
  · intro hopen
    have haccepted : (s.side c).accepted = true := by
      have hnone := hlink .accepted (fun _ h => by cases h) trivial
      by_contra hno
      simp [Net.step, link, hno] at hnone
    have hconnected : (s.side c).connected = true := by
      have hnone := hlink .connected (fun _ h => by cases h) trivial
      by_contra hno
      simp [Net.step, link, hno] at hnone
    exact ⟨haccepted, hconnected, (h c).copies_of_stuck (hm c hclient) hopen haccepted hconnected hlink⟩

/-- A network that is stuck has come to its end. -/
theorem finished_of_stuck {n : Nat} {m : ConnId → Nat} {overspillCap : Nat} {clients : Finset ConnId} (hn : 0 < n)
    (hm : ∀ c ∈ clients, 0 < m c) {s : Network} (h : s.Sound n m overspillCap)
    (haccepted : ∀ c, (s.side c).accepted = true → c ∈ clients) (hstuck : (system n m overspillCap clients).Stuck Productive s) :
    s.Finished clients := by
  refine ⟨?_, fun c hclient => (link_of_stuck hm h hstuck hclient).2⟩
  have horderly : s.server.Orderly n := (h 0).orderly.server
  by_contra hopen
  rcases ExecHelper.exists_productive hn horderly (fun hreturned => hopen (horderly.finished hreturned)) with
    ⟨a, server, habout, hp, hs⟩ | ⟨c, job, remote, hfind, htask⟩
  · have hnone := hstuck (.server a) hp
    simp [system, step, habout, hs] at hnone
  · have hregistered : (s.link c).server.control.cap.connections.find? c = some remote := hfind
    obtain ⟨hready, halive⟩ := (h c).inv.registered (by rw [hregistered]; exact Option.some_ne_none _)
    have hclient := haccepted c hready
    obtain ⟨hclosed, hcopies⟩ := link_of_stuck hm h hstuck hclient
    have hsocket : (s.side c).closed = false := Bool.eq_false_iff.mpr (fun hc => halive (hclosed hc))
    have hnone := (h c).outstanding_of_copies hsocket (hcopies hsocket).2.2
    have hjob : job ∈ (s.link c).server.control.cap.outstanding c := by
      rw [Capacity.outstanding, hregistered, Option.elim_some, Remote.mem_weigh_textOf]
      exact Option.isSome_iff_exists.mp htask
    rw [hnone] at hjob
    exact Multiset.notMem_zero job hjob

/-- From every state that a manager with a child and clients with a child each get to while no line of stdin is empty, whichever connections
have closed, they come to their end, if their children answer and stdin ends: there is only so much to do, and when nothing is left to do the
manager has returned, and no job is left with a client whose connection is open or on the way there or back. -/
theorem cluster_comes_to_its_end (n : Nat) (m : ConnId → Nat) (overspillCap : Nat) (clients : Finset ConnId) (hn : 0 < n)
    (hm : ∀ c ∈ clients, 0 < m c) (s : Network) (h : (system n m overspillCap clients).Reach NonEmptyJobs s) :
    (system n m overspillCap clients).ComesTo Productive (s.remaining clients) (Finished clients) s := by
  have hlowers : (system n m overspillCap clients).Lowers Productive ((system n m overspillCap clients).Reach NonEmptyJobs)
      (remaining clients) := by
    refine ⟨?_, ?_⟩
    · intro s a t hs hp hstep
      exact .step a hs hp.nonEmptyJobs hstep
    · intro s a t hs hp hstep
      exact remaining_lt (sound_of_reach hs) hp hstep
  refine hlowers.comesTo h ?_
  intro t ht hstuck
  exact finished_of_stuck hn hm (sound_of_reach ht) (mem_of_accepted ht) hstuck

/-- Two clients with a child each: the connection of the first has closed with a job, and the second has got it, and another one. -/
theorem cluster_comes_to_its_end_run :
    ∃ s : Network, s.server.read = [[97], [98]] ∧ (s.side 7).closed = true ∧ (s.side 7).dispatched = [[97]] ∧
      (s.side 8).dispatched = [[97], [98]] ∧
      (system 1 (fun _ => 1) 0 {7, 8}).ComesTo Productive (s.remaining {7, 8}) (Finished {7, 8}) s := by
  obtain ⟨s, hs, hp⟩ := System.reach_of_restrict_run (S := system 1 (fun _ => 1) 0 {7, 8}) NonEmptyJobs
    [.link 7 .accepted, .link 7 .connected, .link 7 .clientSends, .link 7 .serverReceives, .server .drained, .server (.line [97]),
      .server (.internal .token), .link 8 .accepted, .link 8 .connected, .link 8 .clientSends, .link 8 .serverReceives, .link 7 .close,
      .link 7 .serverCloses, .server .consume, .server (.expire 7), .server (.internal .token), .server .drained,
      .server (.line [98]), .server (.internal .token), .link 8 .serverSends, .link 8 .clientReceives]
    (fun s => s.server.read == [[97], [98]] && (s.side 7).closed && (s.side 7).dispatched == [[97]] &&
      (s.side 8).dispatched == [[97], [98]]) (by decide)
  simp only [Bool.and_eq_true, beq_iff_eq] at hp
  obtain ⟨⟨⟨hread, hclosed⟩, hfirst⟩, hsecond⟩ := hp
  exact ⟨s, hread, hclosed, hfirst, hsecond, cluster_comes_to_its_end 1 (fun _ => 1) 0 {7, 8} (by decide) (by decide) s hs⟩

end Network

end FostWright
