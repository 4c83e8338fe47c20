import FostWright.Fleet
import FostWright.Lemmas.Fleet

/-!
# Crashes of workers lose no line

Each step without the children is one of a single process, and what happens at a child is internal to its process. So the processes are the
owner of all their children, and what `prints_every_line_once` says of them holds over workers that crash, without its assumption that the
children answer.
-/

namespace FostWright

open Lib

namespace Filter

variable {n : Nat} {m : ConnId → Nat} {overspillCap : Nat} {clients : Finset ConnId}

/-- What the processes of a run without empty or equal lines keep. -/
structure Ordered (n : Nat) (m : ConnId → Nat) (overspillCap : Nat) (clients : Finset ConnId) (s : Filter) : Prop where
  reachable : (system n m overspillCap clients).Reachable s
  distinct : Distinct s.reader.arrived

theorem ordered_of_reach {s : Filter} (h : (system n m overspillCap clients).Reach DistinctLines s) :
    s.Ordered n m overspillCap clients := by
  refine ⟨h.mono (fun _ _ _ => trivial), ?_⟩
  refine h.invariant (I := fun s : Filter => Distinct s.reader.arrived) ⟨List.nodup_nil, List.not_mem_nil⟩ ?_
  intro s a s' hi hok hs
  cases steps_of_step hs with
  | @feed f reader hcomes hmoved =>
    cases f with
    | arrive piece =>
      obtain ⟨-, rfl⟩ := (Option.ite_none_left_eq_some.mp hmoved).imp_right Option.some.inj
      exact hok
    | finish =>
      obtain ⟨-, rfl⟩ := (Option.ite_none_left_eq_some.mp hmoved).imp_right Option.some.inj
      exact hi
    | readSome k => exact absurd rfl (hcomes k)
  | readSome hmoved =>
    obtain ⟨-, rfl⟩ := (Option.ite_none_right_eq_some.mp hmoved).imp_right Option.some.inj
    exact hi
  | _ => exact hi

theorem Ordered.network {s : Filter} (h : s.Ordered n m overspillCap clients) :
    (Network.system n m overspillCap clients).Reach Network.NonEmptyJobs s.network :=
  (network_of_reach h.reachable h.distinct).mono Network.nonEmptyJobs_of_distinct

/-- A line of stdin is not empty and has neither a newline nor a NUL. -/
theorem Ordered.answerable_read {s : Filter} (h : s.Ordered n m overspillCap clients) :
    ∀ line ∈ s.network.server.read, Answerable line := by
  intro line hline
  obtain ⟨ws, hws⟩ := reads_of_reach h.reachable
  have hstream : line ∈ readLines s.reader.arrived := hws.first.subset (hws.read ▸ hline)
  obtain ⟨bytes, -, rfl⟩ := List.mem_map.mp hstream
  exact ⟨fun hempty => h.distinct.2 (hempty ▸ hstream), not_mem_readLine bytes⟩

/-- And so are the jobs of each process. -/
theorem Ordered.answerable {s : Filter} (h : s.Ordered n m overspillCap clients) (p : Process clients) :
    ∀ job ∈ (s.books p).inFlight, Answerable job := by
  have hnetwork := network_of_reach h.reachable h.distinct
  intro job hjob
  refine h.answerable_read job ?_
  cases p with
  | none =>
    rw [← Multiset.mem_coe, (Network.read_of_distinct hnetwork).2]
    exact Multiset.mem_add.mpr (Or.inr hjob)
  | some c =>
    have hholds := Network.holds_of_reach h.network (c : ConnId)
    exact Network.mem_read_of_dispatched hnetwork c job (hholds.mem_dispatched job hjob)

/-- The books of each process are accounted for. -/
theorem Ordered.accounted {s : Filter} (h : s.Ordered n m overspillCap clients) (p : Process clients) :
    (s.books p).Accounted (childrenOf n m p) := by
  have hsound := Network.sound_of_reach h.network
  cases p with
  | none => exact (hsound 0).inv.server
  | some c => exact (hsound c).inv.client

/-- What the server does by itself leaves the clients as they are. -/
theorem leaves_server {s : Filter} {b : ExecHelper.Action} {network : Network} (h' : network.Sound n m overspillCap)
    (hjobs : ∀ job ∈ network.server.control.inFlight, Answerable job) (hown : b.ofChildren = false)
    (hs : s.network.step overspillCap clients (.server b) = some network) :
    Slot.Leaves (s.slots n m : Child n m clients → Slot) (({ s with network := network } : Filter).slots n m) := by
  cases Network.steps_of_step hs with
  | server _ hstep =>
    refine Slot.Leaves.all (p := none) (ExecHelper.leaves_step (h' 0).inv.server hjobs hown hstep) ?_
    intro q hq
    cases q with
    | none => exact absurd rfl hq
    | some c => rfl

/-- What happens at a connection changes the books of one end. -/
theorem leaves_link {s : Filter} {c : ConnId} {b : Net.Action} {network : Network} (h' : network.Sound n m overspillCap)
    (hserver : ∀ job ∈ network.server.control.inFlight, Answerable job)
    (hclient : ∀ c ∈ clients, ∀ job ∈ (network.side c).client.inFlight, Answerable job) (hown : ∀ e, b = .client e → e.ofChildren = false)
    (hs : s.network.step overspillCap clients (.link c b) = some network) :
    Slot.Leaves (s.slots n m : Child n m clients → Slot) (({ s with network := network } : Filter).slots n m) := by
  cases Network.steps_of_step hs with
  | @link _ _ t howner hmem hstep =>
    have hlink : (s.network.relink c t).link c = t := Network.relink_self _ _ _
    have hjobs : ∀ job ∈ t.client.inFlight, Answerable job := by
      have hside := hclient c hmem
      rwa [Network.client_relink_self] at hside
    rcases Net.leaves_step (hlink ▸ h' c) hserver hjobs howner hown hstep with ⟨hleaves, hkept⟩ | ⟨hkept, hleaves⟩
    · refine Slot.Leaves.all (p := none) hleaves ?_
      intro q hq
      cases q with
      | none => exact absurd rfl hq
      | some d =>
        by_cases hd : (d : ConnId) = c
        · have hclient : ((s.network.relink c t).side d).client = (s.network.side d).client := by
            rw [hd, Network.client_relink_self, hkept]
            rfl
          simp only [books, hclient]
        · simp only [books, Network.client_relink_other s.network hd]
    · refine Slot.Leaves.all (p := some ⟨c, hmem⟩) ?_ ?_
      · simp only [books, Network.client_relink_self]
        exact hleaves
      · intro q hq
        cases q with
        | none =>
          change t.server.control.slots n = s.network.server.control.slots n
          rw [hkept]
          rfl
        | some d =>
          have hd : (d : ConnId) ≠ c := fun heq => hq (congrArg some (Subtype.ext heq))
          simp only [books, Network.client_relink_other s.network hd]

/-- What happens without the children is a step of one process that leaves its children as they are, or begins to write a job to one. -/
theorem leaves_step {s s' : Filter} {a : Action} (h' : s'.Ordered n m overspillCap clients) (hown : a.ofChildren = false)
    (hs : s.step overspillCap clients a = some s') : Slot.Leaves (s.slots n m : Child n m clients → Slot) (s'.slots n m) := by
  have hsound := Network.sound_of_reach h'.network
  have hserver := h'.answerable none
  cases steps_of_step hs with
  | feed => exact Slot.Leaves.all (p := none) (Control.leaves_of_pool n rfl (fun _ => rfl) (Or.inl rfl)) (fun _ _ => rfl)
  | readSome => exact Slot.Leaves.all (p := none) (Control.leaves_of_pool n rfl (fun _ => rfl) (Or.inl rfl)) (fun _ _ => rfl)
  | line _ _ hnetwork => exact leaves_server (s := s) hsound hserver rfl hnetwork
  | inputError _ hnetwork => exact leaves_server hsound hserver rfl hnetwork
  | @network a network _ hnetwork =>
    cases a with
    | server b => exact leaves_server hsound hserver hown hnetwork
    | link c b =>
      refine leaves_link hsound hserver (fun d hd => h'.answerable (some ⟨d, hd⟩)) ?_ hnetwork
      rintro e rfl
      exact hown

/-- What is internal to a process changes its books. -/
theorem step_internal (overspillCap : Nat) {s : Filter} {p : Process clients} {e : Event} (he : e.internal = true) {control : Control}
    (hs : (s.books p).step (peering p) e = some control) : s.step overspillCap clients (internal p e) = some (s.withBooks p control) := by
  cases p with
  | none =>
    have hserver := ExecHelper.step_internal he hs
    simp only [step, internal, Network.Action.reads, ExecHelper.Action.reads, Bool.false_eq_true, if_false, Network.step,
      ExecHelper.Action.about, if_true, hserver, Option.map_some, withBooks]
  | some c =>
    have hclient : e.ofClient = true := by
      cases e <;> first | rfl | cases he
    have hlink : (s.network.link c).client.step (.clientSide c) e = some control := hs
    simp only [step, internal, Network.Action.reads, Bool.false_eq_true, if_false, Network.step, c.2, if_true, Net.step, hclient, hlink,
      Option.map_some, withBooks]

theorem books_withBooks_self (s : Filter) (p : Process clients) (control : Control) : (s.withBooks p control).books p = control := by
  cases p with
  | none => rfl
  | some c => simp only [books, withBooks, Network.client_relink_self]

theorem books_withBooks_other (s : Filter) {p q : Process clients} (hq : q ≠ p) (control : Control) :
    (s.withBooks p control).books q = s.books q := by
  cases p with
  | none =>
    cases q with
    | none => exact absurd rfl hq
    | some d => rfl
  | some c =>
    cases q with
    | none => rfl
    | some d =>
      have hd : (d : ConnId) ≠ c := fun heq => hq (congrArg some (Subtype.ext heq))
      simp only [books, withBooks, Network.client_relink_other s.network hd]

/-- A process with the books that it has. -/
theorem withBooks_books (s : Filter) (p : Process clients) : s.withBooks p (s.books p) = s := by
  cases p with
  | none => simp only [withBooks, books, Network.withServer, List.drop_length, List.flatMap_nil, List.append_nil]
  | some c => simp only [withBooks, books, Network.relink, Network.link, Function.update_eq_self]

/-- It is not about stdin. -/
theorem distinctLines_internal (s : Filter) (p : Process clients) (e : Event) : s.DistinctLines (internal p e) := by
  cases p <;> trivial

/-- The processes as the owner of all their children. -/
def owner (n : Nat) (m : ConnId → Nat) (overspillCap : Nat) (clients : Finset ConnId) :
    Owner Filter Action (Child n m clients) where
  system := system n m overspillCap clients
  ok := DistinctLines
  slot := slots n m
  ofChildren := Action.ofChildren
  push := fun i => internal i.1 .written
  stdout := fun i ret => internal i.1 (.stdout i.2 ret)
  init := by
    rintro ⟨p, k⟩
    cases p with
    | none => exact Control.slots_init n k
    | some c => exact Control.slots_init (m c) k
  leaves := fun h hok hown hs => leaves_step (ordered_of_reach (h.step _ hok hs)) hown hs
  pushed := by
    rintro s ⟨p, k⟩ text task h hopen
    obtain ⟨control, hs, hslots⟩ := Control.slots_written (peering p) ((ordered_of_reach h).accounted p) hopen
    refine ⟨distinctLines_internal s p _, _, step_internal overspillCap rfl hs, Slot.all_update ?_ ?_⟩
    · rw [books_withBooks_self]
      exact hslots
    · intro q hq
      rw [books_withBooks_other s hq]
  matched := by
    rintro s ⟨p, k⟩ ret job child h hanswers
    obtain ⟨control, hs, hslots⟩ := Control.slots_stdout (peering p) ((ordered_of_reach h).accounted p) hanswers
    refine ⟨distinctLines_internal s p _, _, step_internal overspillCap rfl hs, Slot.all_update ?_ ?_⟩
    · rw [books_withBooks_self]
      exact hslots
    · intro q hq
      rw [books_withBooks_other s hq]
  ignored := by
    rintro s ⟨p, k⟩ ret h hanswers
    have hs := step_internal overspillCap (p := p) rfl (Control.stdout_ignored ((ordered_of_reach h).accounted p) hanswers)
    rwa [withBooks_books] at hs

/-- They come to their end if the children answer. -/
theorem advances (hn : 0 < n) (hm : ∀ c ∈ clients, 0 < m c) {stream : List Byte} (hlines : Distinct stream) :
    (owner n m overspillCap clients).Advances Productive
      (fun t => (system n m overspillCap clients).Reachable t ∧ t.reader.arrived = stream ∧ t.reader.ended = true)
      (remaining clients) (Printed stream clients) where
  lowers := lowers hlines
  ok := by
    intro s a hp
    cases a with
    | feed => exact hp.elim
    | _ => trivial
  push := by
    rintro s ⟨p, k⟩
    cases p <;> trivial
  stdout := by
    rintro s ⟨p, k⟩ ret ⟨hreach, rfl, -⟩ hanswers
    have hfind := Control.find_slot ((Ordered.mk hreach hlines).accounted p) k
    cases p with
    | none => exact ⟨_, hfind, hanswers⟩
    | some c => exact ⟨_, hfind, hanswers⟩
  waits := by
    rintro s ⟨hreach, rfl, hended⟩ hidle hnone
    have hordered : s.Ordered n m overspillCap clients := ⟨hreach, hlines⟩
    have hstuck := fun p : Process clients =>
      @Control.stuck_of_idle _ (s.books p) (peering p) (hordered.accounted p) (fun k => hidle ⟨p, k⟩)
    refine printed_of_stuck hn hm hreach hlines hended ?_
    intro a hp
    cases hown : a.ofChildren with
    | false => exact hnone a hown hp
    | true =>
      -- the end of a write or an answer, at the server or at a client
      cases a with
      | network b =>
        cases b with
        | server b =>
          cases b with
          | internal e =>
            have hserver : s.network.server.control.step .serverSide e = none := hstuck none hown hp
            simp [system, step, Network.Action.reads, ExecHelper.Action.reads, Network.step, ExecHelper.Action.about, ExecHelper.step, hserver]
          | _ => cases hown
        | link c b =>
          cases b with
          | client e =>
            by_cases hclient : c ∈ clients
            · have hlink : (s.network.link c).client.step (.clientSide c) e = none := hstuck (some ⟨c, hclient⟩) hown hp
              simp [system, step, Network.Action.reads, Network.step, hclient, Net.step, hlink]
            · simp [system, step, Network.Action.reads, Network.step, hclient]
          | _ => cases hown
      | _ => cases hown

instance (n : Nat) (m : ConnId → Nat) (overspillCap : Nat) (clients : Finset ConnId) (s : Filter) (a : Action) :
    Decidable ((owner n m overspillCap clients).ok s a) :=
  inferInstanceAs (Decidable (s.DistinctLines a))

end Filter

end FostWright
