import FostWright.Filter
import FostWright.Theorems.Cluster

/-!
# Every line of stdin is printed

What the stdin coroutine has read is the lines of the bytes that it has taken, so that a run on bytes whose lines are not empty and pairwise
different is a run of the network on distinct lines. When stdin has ended the buffer, the jobs and the clients empty one after the other;
what the manager has then printed is what there was to read.
-/

namespace FostWright

open Lib

namespace ExecHelper

/-- Nothing but a read of stdin adds to the lines read, or finds the input to have ended. -/
theorem read_of_step {s s' : ExecHelper} {a : Action} (ha : a.reads = false) (hs : s.step a = some s') :
    s'.read = s.read ∧ s'.stage.pastReading = s.stage.pastReading := by
  cases steps_of_step hs with
  | drained hstage => exact ⟨rfl, by rw [hstage]; rfl⟩
  | drainedLast hstage => exact ⟨rfl, by rw [hstage]; rfl⟩
  | line => cases ha
  | eof => cases ha
  | allDone hstage => exact ⟨rfl, by rw [hstage]; rfl⟩
  | _ => exact ⟨rfl, rfl⟩

/-- What a line of stdin costs. -/
theorem remaining_line (d x : Nat) {s s' : ExecHelper} {l : Line} (hs : s.step (.line l) = some s') :
    s'.remaining d x = s.remaining d x + (d + x + 3) ∧ s'.control.cap = s.control.cap := by
  cases steps_of_step hs with
  | line hstage hc =>
    obtain ⟨hcall, rfl⟩ := Control.step_nextJob hc
    refine ⟨?_, rfl⟩
    simp only [remaining, Control.remaining, hcall, hstage, NextJob.remaining, Stage.remaining]
    omega

end ExecHelper

namespace Network

theorem read_of_step {overspillCap : Nat} {clients : Finset ConnId} {s s' : Network} {a : Action} (ha : a.reads = false)
    (hs : s.step overspillCap clients a = some s') :
    s'.server.read = s.server.read ∧ s'.server.stage.pastReading = s.server.stage.pastReading := by
  cases steps_of_step hs with
  | server _ hstep => exact ExecHelper.read_of_step ha hstep
  | @link c a t hown _ hstep =>
    change t.server.read = (s.link c).server.read ∧ t.server.stage.pastReading = (s.link c).server.stage.pastReading
    cases Net.steps_of_step hstep with
    | server => exact absurd rfl (hown _)
    | @serverReceives packet _ _ _ _ _ hserver => exact ExecHelper.read_of_step (a := .inbound c packet) rfl hserver
    | serverCloses _ hserver => exact ExecHelper.read_of_step (a := .closed c) rfl hserver
    | _ => exact ⟨rfl, rfl⟩

/-- While no connection is closed, nothing is put into the overspill once the stdin coroutine is past its last `clear_overspill`. -/
theorem overspill_of_open {n : Nat} {m : ConnId → Nat} {overspillCap : Nat} {clients : Finset ConnId} {s : Network}
    (h : (system n m overspillCap clients).Reach NonEmptyJobs s) :
    (∀ c, (s.side c).closed = false) → s.server.pastClearing = true → s.server.control.cap.overspill = [] := by
  refine h.invariant₂ (J := Sound n m overspillCap)
    (I := fun s => (∀ c, (s.side c).closed = false) → s.server.pastClearing = true → s.server.control.cap.overspill = [])
    (fun _ hu => sound_of_reach hu) (fun _ _ => rfl) ?_
  intro s a s' hsound hi hok hs hopen hpast
  have hsound' := hsound.step hok hs
  cases steps_of_step hs with
  | @server a server habout hstep =>
    have hkeep : server.stage = s.server.stage → server.control.cap.overspill = s.server.control.cap.overspill →
        server.control.cap.overspill = [] := by
      intro hstage hsame
      refine hsame.trans (hi hopen ?_)
      unfold ExecHelper.pastClearing at hpast ⊢
      exact hstage ▸ hpast
    cases ExecHelper.steps_of_step hstep with
    | consume hstage => simp [ExecHelper.pastClearing, withServer, hstage] at hpast
    | drained => cases hpast
    | drainedLast _ _ hempty hc =>
      cases hc
      exact hempty
    | line => cases hpast
    | eof => cases hpast
    | allDone hstage => exact hi hopen (by simp [ExecHelper.pastClearing, hstage])
    | inbound => cases habout
    | thrown => cases habout
    | closed => cases habout
    | expire _ hc =>
      cases hc
      exact hkeep rfl rfl
    | internal he hc => exact hkeep rfl (Control.overspill_internal he hc)
  | @link c a t hown _ hstep =>
    have hself := relink_self s c t
    have hended : c ∉ t.server.ended := ((hsound' c).open (hopen c)).2
    have hbefore : ∀ d, (s.side d).closed = false := by
      intro d
      by_cases hd : d = c
      · subst hd
        exact (Net.open_of_step hstep (hself ▸ (hsound' d).open (hopen d))).1
      · have hsame := congrArg Net.closed (relink_other s hd t)
        exact hsame.symm.trans (hopen d)
    have hkeep : t.server.stage = s.server.stage → t.server.control.cap.overspill = s.server.control.cap.overspill →
        t.server.control.cap.overspill = [] := by
      intro hstage hsame
      refine hsame.trans (hi hbefore ?_)
      unfold ExecHelper.pastClearing at hpast ⊢
      exact hstage ▸ hpast
    rcases Net.server_of_step (hsound c).handshake hown hstep with ⟨queue, -, hserver⟩ | ⟨b, hb, hserver, -⟩
    · refine hkeep ?_ ?_
      · rw [hserver]
        rfl
      · rw [hserver]
        rfl
    · rcases hb with rfl | ⟨packet, hjobs, rfl⟩
      · have hclosed := ExecHelper.steps_of_step hserver
        generalize t.server = server at hclosed hended
        cases hclosed with
        | closed => exact absurd (List.mem_cons_self ..) hended
      · have hinbound := ExecHelper.steps_of_step hserver
        change t.server.control.cap.overspill = []
        generalize t.server = server at hinbound hended hkeep ⊢
        cases hinbound with
        | inbound _ hhandled => exact hkeep rfl (Capacity.nothingNew_dispatch hhandled hjobs).overspill
        | thrown => exact absurd (List.mem_cons_self ..) hended

/-- What a line of stdin costs. -/
theorem remaining_line {overspillCap : Nat} {clients : Finset ConnId} {s s' : Network} {l : Line}
    (hs : s.step overspillCap clients (.server (.line l)) = some s') :
    s'.remaining clients ≤ s.remaining clients + (12 * clients.card + 12) := by
  cases steps_of_step hs with
  | @server _ server _ hserver =>
    obtain ⟨hcost, hcap⟩ := ExecHelper.remaining_line (12 * s.unended clients + 1) 8 hserver
    have hunended : (s.withServer server).unended clients = s.unended clients := by
      unfold unended
      simp only [withServer, ended_of_own (a := .line l) rfl hserver]
    have hsum : ∑ c ∈ clients, ((s.withServer server).link c).between c = ∑ c ∈ clients, (s.link c).between c := by
      refine Finset.sum_congr rfl (fun c _ => ?_)
      refine between_server (s := s.link c) (k := 0) (Capacity.queued_of_eq ?_)
      exact congrArg (fun cap => cap.queue c) hcap
    have hcard : s.unended clients ≤ clients.card := Finset.card_filter_le _ _
    unfold remaining
    rw [hunended, hsum]
    change server.remaining _ 8 + _ + _ ≤ _
    omega

end Network

/-! ## What is read -/

/-- The lines of what arrives first come first. -/
theorem readLines_mono {stream more : List Byte} (h : stream <+: more) : readLines stream <+: readLines more := by
  obtain ⟨rest, rfl⟩ := h
  unfold readLines
  rw [unframe_append, List.map_append]
  exact List.prefix_append _ _

namespace Filter

/-- The lines of the stream are not empty and pairwise different. -/
def Distinct (stream : List Byte) : Prop := (readLines stream).Nodup ∧ [] ∉ readLines stream

theorem Distinct.of_first {stream more : List Byte} (h : Distinct more) (hinit : stream <+: more) : Distinct stream :=
  ⟨h.1.sublist (readLines_mono hinit).sublist, fun hmem => h.2 ((readLines_mono hinit).subset hmem)⟩

/-- The lines read are the frames taken, and the input was found to have ended when nothing was left to take. -/
structure Reads (s : Filter) (ws : List (List Byte)) : Prop where
  framed : s.reader.Framed newline ws
  read : s.network.server.read = ws.map readLine
  atEnd : s.network.server.stage.pastReading = true → s.reader.AtEnd newline

/-- Where no frame is left, nothing comes after the end of the input. -/
theorem atEnd_feed {r r' : Reader Byte} {f : Feed Byte} (h : r.AtEnd newline) : r.feed newline f ≠ some r' := by
  obtain ⟨hended, hpipe, -⟩ := h
  cases f with
  | arrive piece => simp [Reader.feed, hended]
  | finish => simp [Reader.feed, hended]
  | readSome k =>
    simp only [Reader.feed, hpipe, List.length_nil, ne_eq, Option.ite_none_right_eq_some, not_and]
    intro hk
    omega

/-- One action: it takes one more frame, or none. -/
theorem Reads.step {overspillCap : Nat} {clients : Finset ConnId} {s s' : Filter} {ws : List (List Byte)} (h : s.Reads ws) {a : Action}
    (hs : s.step overspillCap clients a = some s') : ∃ ws', s'.Reads ws' := by
  cases steps_of_step hs with
  | feed _ hmoved => exact ⟨ws, h.framed.feed hmoved, h.read, fun hpast => absurd hmoved (atEnd_feed (h.atEnd hpast))⟩
  | readSome hmoved => exact ⟨ws, h.framed.feed hmoved, h.read, fun hpast => absurd hmoved (atEnd_feed (h.atEnd hpast))⟩
  | @line w rest network hbuffer hfirst hstep =>
    cases Network.steps_of_step hstep with
    | server _ hserver =>
      cases ExecHelper.steps_of_step hserver with
      | line =>
        refine ⟨ws ++ [w], h.framed.take hbuffer hfirst, ?_, fun hpast => by cases hpast⟩
        simp only [Network.withServer, h.read, List.map_append, List.map_singleton]
  | inputError hend hstep =>
    cases Network.steps_of_step hstep with
    | server _ hserver =>
      cases ExecHelper.steps_of_step hserver with
      | eof => exact ⟨ws, h.framed, h.read, fun _ => hend⟩
  | network hreads hstep =>
    obtain ⟨hread, hstage⟩ := Network.read_of_step hreads hstep
    exact ⟨ws, h.framed, hread.trans h.read, fun hpast => h.atEnd (hstage ▸ hpast)⟩

theorem reads_of_reach {n : Nat} {m : ConnId → Nat} {overspillCap : Nat} {clients : Finset ConnId} {ok : Filter → Action → Prop}
    {s : Filter} (h : (system n m overspillCap clients).Reach ok s) : ∃ ws, s.Reads ws := by
  refine h.invariant (I := fun s => ∃ ws, s.Reads ws) ⟨[], Reader.framed_start newline, rfl, fun hpast => by cases hpast⟩ ?_
  rintro s a s' ⟨ws, hws⟩ - hs
  exact hws.step hs

/-- The lines read come first in the stream; at the end of the input they are its lines. -/
theorem Reads.first {s : Filter} {ws : List (List Byte)} (h : s.Reads ws) : ws.map readLine <+: readLines s.reader.arrived := by
  unfold readLines
  rw [h.framed.unframe_arrived, List.map_append]
  exact List.prefix_append _ _

theorem Reads.read_eq {s : Filter} {ws : List (List Byte)} (h : s.Reads ws) (hpast : s.network.server.stage.pastReading = true) :
    s.network.server.read = readLines s.reader.arrived := by
  unfold readLines
  rw [h.framed.unframe_idle (h.atEnd hpast).2, h.read]

/-- What has arrived stays. -/
theorem arrived_step {overspillCap : Nat} {clients : Finset ConnId} {s s' : Filter} {a : Action}
    (hs : s.step overspillCap clients a = some s') : s.reader.arrived <+: s'.reader.arrived := by
  have hfeed : ∀ {f : Feed Byte} {reader : Reader Byte}, s.reader.feed newline f = some reader → s.reader.arrived <+: reader.arrived := by
    intro f reader hmoved
    cases f with
    | arrive piece =>
      obtain ⟨-, rfl⟩ := (Option.ite_none_left_eq_some.mp hmoved).imp_right Option.some.inj
      exact List.prefix_append _ _
    | finish =>
      obtain ⟨-, rfl⟩ := (Option.ite_none_left_eq_some.mp hmoved).imp_right Option.some.inj
      exact List.prefix_refl _
    | readSome k =>
      obtain ⟨-, rfl⟩ := (Option.ite_none_right_eq_some.mp hmoved).imp_right Option.some.inj
      exact List.prefix_refl _
  cases steps_of_step hs with
  | feed _ hmoved => exact hfeed hmoved
  | readSome hmoved => exact hfeed hmoved
  | _ => exact List.prefix_refl _

/-- A run on a stream whose lines are distinct is one of the network on distinct lines. -/
theorem network_of_reach {n : Nat} {m : ConnId → Nat} {overspillCap : Nat} {clients : Finset ConnId} {s : Filter}
    (h : (system n m overspillCap clients).Reachable s) (hlines : Distinct s.reader.arrived) :
    (Network.system n m overspillCap clients).Reach Network.DistinctLines s.network := by
  revert hlines
  refine h.invariant₂ (J := fun s => (system n m overspillCap clients).Reachable s)
    (I := fun s => Distinct s.reader.arrived → (Network.system n m overspillCap clients).Reach Network.DistinctLines s.network)
    (fun _ hu => hu) (fun _ => .refl) ?_
  intro s a s' hs hi _ hstep hlines
  have hbefore := hi (hlines.of_first (arrived_step hstep))
  obtain ⟨ws, hws⟩ := reads_of_reach (hs.step a trivial hstep)
  cases steps_of_step hstep with
  | feed => exact hbefore
  | readSome => exact hbefore
  | @line w rest network hbuffer hfirst hnetwork =>
    refine .step (.server (.line (readLine w))) hbefore ?_ hnetwork
    cases Network.steps_of_step hnetwork with
    | server _ hserver =>
      cases ExecHelper.steps_of_step hserver with
      | line =>
        have hread : s.network.server.read ++ [readLine w] = ws.map readLine := hws.read
        have hinit : s.network.server.read ++ [readLine w] <+: readLines s.reader.arrived := hread ▸ hws.first
        have hnodup := hlines.1.sublist hinit.sublist
        refine ⟨fun hempty => hlines.2 (hinit.subset (by simp [hempty])), ?_⟩
        rw [List.nodup_append] at hnodup
        exact fun hmem => hnodup.2.2 _ hmem _ (List.mem_singleton_self _) rfl
  | inputError _ hnetwork => exact .step (.server .eof) hbefore trivial hnetwork
  | @network a _ hreads hnetwork =>
    refine .step a hbefore ?_ hnetwork
    cases Network.steps_of_step hnetwork with
    | @server b _ habout =>
      cases b with
      | line => cases hreads
      | inbound => cases habout
      | _ => trivial
    | link => trivial

/-! ## Progress -/

/-- Moving bytes to the buffer leaves less to do. -/
theorem work_readSome {r r' : Reader Byte} {k : Nat} (h : r.feed newline (.readSome k) = some r') : r'.work < r.work := by
  obtain ⟨⟨-, hpos, hle⟩, rfl⟩ := (Option.ite_none_right_eq_some.mp h).imp_right Option.some.inj
  simp only [Reader.work, List.length_drop, List.length_append, List.length_take]
  omega

/-- What takes the stream or the jobs forward leaves less to do. -/
theorem remaining_lt {n : Nat} {m : ConnId → Nat} {overspillCap : Nat} {clients : Finset ConnId} {s s' : Filter} {a : Action}
    (h : s.network.Sound n m overspillCap) (hp : s.Productive a) (hs : s.step overspillCap clients a = some s') :
    s'.remaining clients < s.remaining clients := by
  have hbytes : ∀ {k k' : Nat}, k' < k → (12 * clients.card + 13) * k' + (12 * clients.card + 13) ≤ (12 * clients.card + 13) * k := by
    intro k k' hlt
    exact Nat.mul_le_mul_left (12 * clients.card + 13) hlt
  unfold remaining
  cases steps_of_step hs with
  | feed => exact hp.elim
  | readSome hmoved =>
    have hwork := hbytes (work_readSome hmoved)
    simp only
    omega
  | line hbuffer _ hnetwork =>
    have hwork := hbytes (Reader.work_take hbuffer)
    have hline := Network.remaining_line hnetwork
    simp only
    omega
  | inputError _ hnetwork => exact Nat.add_lt_add_left (Network.remaining_lt h (a := .server .eof) trivial hnetwork) _
  | network _ hnetwork => exact Nat.add_lt_add_left (Network.remaining_lt h hp hnetwork) _

/-! ## The end -/

/-- The manager has returned; each line of the stream is printed once, or is in the overspill, which takes a connection that has closed. -/
structure Printed (stream : List Byte) (clients : Finset ConnId) (s : Filter) : Prop where
  finished : s.network.Finished clients
  once : (readLines stream : Multiset Line) =
    (s.network.server.control.cap.stdout : Multiset Line) + (s.network.server.control.cap.overspill : Multiset Line)
  all : (∀ c, (s.network.side c).closed = false) → s.network.server.control.cap.stdout.Perm (readLines stream)

/-- When stdin has ended and nothing can go on, the stdin coroutine is not reading. -/
theorem stage_of_stuck {n : Nat} {m : ConnId → Nat} {overspillCap : Nat} {clients : Finset ConnId} {s : Filter}
    (h : s.network.server.Orderly n) (hended : s.reader.ended = true) (hstuck : (system n m overspillCap clients).Stuck Productive s) :
    s.network.server.stage ≠ .readLine := by
  intro hstage
  have hcall : s.network.server.control.call = .idle := h.idle (fun last hlast => by rw [hstage] at hlast; cases hlast)
  rcases s.reader.progress newline with ⟨r, hfeed, -⟩ | ⟨k, hread⟩ | hidle
  · have hnone := hstuck (.readSome s.reader.pipe.length) trivial
    simp [system, step, hstage, hfeed] at hnone
  · obtain ⟨w, rest, hbuffer, -, rfl⟩ := Reader.readUntil_eq_some hread
    have hnone := hstuck .line trivial
    simp [system, step, hread, hbuffer, bump_append_newline, Network.step, ExecHelper.Action.about, ExecHelper.step, hstage, Control.step,
      hcall] at hnone
  · have hnone := hstuck .inputError trivial
    have hend : s.reader.AtEnd newline := ⟨hended, hidle⟩
    simp [system, step, hend, Network.step, ExecHelper.Action.about, ExecHelper.step, hstage] at hnone

/-- When stdin has ended and nothing can go on, nothing can go on in the network. -/
theorem network_stuck {n : Nat} {m : ConnId → Nat} {overspillCap : Nat} {clients : Finset ConnId} {s : Filter}
    (hstage : s.network.server.stage ≠ .readLine) (hstuck : (system n m overspillCap clients).Stuck Productive s) :
    (Network.system n m overspillCap clients).Stuck Network.Productive s.network := by
  intro a hp
  by_cases hreads : a.reads = true
  · cases a with
    | server a =>
      cases a with
      | line l => exact hp.elim
      | eof =>
        change Network.step overspillCap clients s.network (.server .eof) = none
        simp only [Network.step, ExecHelper.Action.about, if_true, Option.map_eq_none_iff, ExecHelper.step]
      | _ => cases hreads
    | link => cases hreads
  · have hnone := hstuck (.network a) hp
    change Network.step overspillCap clients s.network a = none
    simpa only [system, step, if_neg hreads, Option.map_eq_none_iff] using hnone

/-- The end that a run on a stream whose lines are distinct comes to. -/
theorem printed_of_stuck {n : Nat} {m : ConnId → Nat} {overspillCap : Nat} {clients : Finset ConnId} (hn : 0 < n)
    (hm : ∀ c ∈ clients, 0 < m c) {s : Filter} (h : (system n m overspillCap clients).Reachable s) (hlines : Distinct s.reader.arrived)
    (hended : s.reader.ended = true) (hstuck : (system n m overspillCap clients).Stuck Productive s) :
    s.Printed s.reader.arrived clients := by
  have hdistinct := network_of_reach h hlines
  have hnetwork := hdistinct.mono Network.nonEmptyJobs_of_distinct
  have hsound := Network.sound_of_reach hnetwork
  have hstage := stage_of_stuck (hsound 0).orderly.server hended hstuck
  have hfinished := Network.finished_of_stuck hn hm hsound (Network.mem_of_accepted hnetwork) (network_stuck hstage hstuck)
  obtain ⟨ws, hws⟩ := reads_of_reach h
  have hreturned := hfinished.1.1
  have honce : (readLines s.reader.arrived : Multiset Line) =
      (s.network.server.control.cap.stdout : Multiset Line) + (s.network.server.control.cap.overspill : Multiset Line) := by
    rw [← hws.read_eq (by rw [hreturned]; rfl), (Network.read_of_distinct hdistinct).2, hfinished.1.2]
  refine ⟨hfinished, honce, ?_⟩
  intro hopen
  have hempty := Network.overspill_of_open hnetwork hopen (by simp only [ExecHelper.pastClearing, hreturned])
  rw [hempty, Multiset.coe_nil, add_zero, Multiset.coe_eq_coe] at honce
  exact honce.symm

/-- A run on a stream that has ended stays one, and comes nearer to its end. -/
theorem lowers {n : Nat} {m : ConnId → Nat} {overspillCap : Nat} {clients : Finset ConnId} {stream : List Byte} (hlines : Distinct stream) :
    (system n m overspillCap clients).Lowers Productive
      (fun t => (system n m overspillCap clients).Reachable t ∧ t.reader.arrived = stream ∧ t.reader.ended = true)
      (remaining clients) := by
  refine ⟨?_, ?_⟩
  · rintro t a u ⟨ht, harrived, htended⟩ hp hs
    refine ⟨ht.step a trivial hs, ?_⟩
    cases steps_of_step hs with
    | feed => exact hp.elim
    | readSome hmoved =>
      obtain ⟨-, rfl⟩ := (Option.ite_none_right_eq_some.mp hmoved).imp_right Option.some.inj
      exact ⟨harrived, htended⟩
    | _ => exact ⟨harrived, htended⟩
  · rintro t a u ⟨ht, harrived, -⟩ hp hs
    exact remaining_lt (Network.sound_of_reach ((network_of_reach ht (harrived ▸ hlines)).mono Network.nonEmptyJobs_of_distinct)) hp hs

/-- From every state that a manager with a child and clients with a child each get to on a stream whose lines are not empty and pairwise
different, in whatever pieces it arrives and whichever connections have closed: when stdin has ended they come to their end, if their
children answer, and each line of the stream has then been printed once, or, if a connection has closed, may be in the overspill. -/
theorem prints_every_line_once (n : Nat) (m : ConnId → Nat) (overspillCap : Nat) (clients : Finset ConnId) (hn : 0 < n)
    (hm : ∀ c ∈ clients, 0 < m c) (s : Filter) (h : (system n m overspillCap clients).Reachable s) (hlines : Distinct s.reader.arrived)
    (hended : s.reader.ended = true) :
    (system n m overspillCap clients).ComesTo Productive (s.remaining clients) (Printed s.reader.arrived clients) s := by
  refine (lowers hlines).comesTo ⟨h, rfl, hended⟩ ?_
  rintro t ⟨ht, harrived, htended⟩ hstuck
  exact harrived ▸ printed_of_stuck hn hm ht (harrived ▸ hlines) htended hstuck

/-- Two lines that arrive in pieces, with a client; the first is with the client when stdin ends. -/
theorem prints_every_line_once_run :
    ∃ s : Filter, s.network.server.read = [[97]] ∧ (s.network.side 7).dispatched = [[97]] ∧
      (system 1 (fun _ => 1) 0 {7}).ComesTo Productive (s.remaining {7}) (Printed [97, 10, 98, 10, 99] {7}) s := by
  obtain ⟨s, hs, hp⟩ := System.reachable_of_run (S := system 1 (fun _ => 1) 0 {7})
    [.feed (.arrive [97]), .network (.link 7 .accepted), .network (.link 7 .connected), .network (.link 7 .clientSends),
      .network (.link 7 .serverReceives), .network (.server .drained), .readSome 1, .feed (.arrive [10, 98, 10, 99]), .readSome 2, .line,
      .network (.server (.internal .token)), .feed .finish]
    (fun s => s.network.server.read == [[97]] && (s.network.side 7).dispatched == [[97]] &&
      s.reader.arrived == [97, 10, 98, 10, 99] && s.reader.ended) (by decide)
  simp only [Bool.and_eq_true, beq_iff_eq] at hp
  obtain ⟨⟨⟨hread, hdispatched⟩, harrived⟩, hended⟩ := hp
  have hend := prints_every_line_once 1 (fun _ => 1) 0 {7} (by decide) (by decide) s hs (by rw [harrived]; unfold Distinct; decide) hended
  exact ⟨s, hread, hdispatched, harrived ▸ hend⟩

end Filter

end FostWright
