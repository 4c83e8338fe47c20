import FostWright.Lemmas.Progress

/-!
# The manager comes to its end

As long as no job is empty, the manager never gets stuck: whatever has happened, with connections that come, go or are silent for a
while, it is always one answer of a child, one completion of a connection or one step of its own away from going on, and only so many of
these are left when nothing new comes in.
-/

namespace FostWright

open Lib

namespace Control

/-- A job in flight after an event was in flight before or came in with it. -/
theorem mem_inFlight_step {n : Nat} {s s' : Control} {e : Event} (ha : s.Accounted n) (hs : s.step .serverSide e = some s') {j : Line}
    (hj : j ∈ s'.inFlight) : j ∈ s.inFlight ∨ j ∈ e.entering := by
  obtain ⟨l, hshows, hentered, hmove⟩ :=
    step_follows ha (l := { entered := 0, outstanding := s.inFlight, done := s.cap.stdout, dropped := 0 }) ⟨rfl, rfl⟩ hs
  rw [← hshows.outstanding] at hj
  rcases hmove with rfl | ⟨a, hnext, -⟩
  · exact Or.inl hj
  · cases a with
    | enter x =>
      cases hnext
      rcases Multiset.mem_cons.mp hj with rfl | hj
      · refine Or.inr (Multiset.mem_coe.mp ?_)
        rw [← zero_add (e.entering : Multiset Line), ← hentered]
        exact Multiset.mem_cons_self j 0
      · exact Or.inl hj
    | finish x =>
      obtain ⟨-, rfl⟩ := (Option.ite_none_right_eq_some.mp hnext).imp_right Option.some.inj
      exact Or.inl (Multiset.mem_of_mem_erase hj)
    | drop x =>
      obtain ⟨-, rfl⟩ := (Option.ite_none_right_eq_some.mp hnext).imp_right Option.some.inj
      exact Or.inl (Multiset.mem_of_mem_erase hj)

/-- The books of a manager with the connections that have ended: only connections that have not are known, only those that have are
gone, and no job is empty. -/
structure Orderly (n : Nat) (s : Control) (ended : List ConnId) : Prop where
  books : s.Accounted n
  known : ∀ c, s.cap.Known c → c ∉ ended
  expired : ∀ c ∈ s.cap.expired, c ∈ ended
  nonEmpty : [] ∉ s.inFlight

/-- One event, with the connection that ends in it. -/
theorem Orderly.step {n : Nat} {s s' : Control} {ended ended' : List ConnId} {e : Event} (h : s.Orderly n ended)
    (hs : s.step .serverSide e = some s') (hnew : [] ∉ e.entering) (hregisters : ∀ c, e.registers .serverSide c → c ∉ ended)
    (hexpire : ∀ c, e = .expire c → c ∈ ended) (hsub : ended ⊆ ended') (hended : ∀ c ∈ ended', c ∈ ended ∨ e = .overspillWork c) :
    s'.Orderly n ended' := by
  refine ⟨h.books.step hs, ?_, ?_, ?_⟩
  · intro c hc hin
    obtain ⟨hknown, hother⟩ := (known_step hs c).mp hc
    have hout : c ∉ ended := hknown.elim (h.known c) (hregisters c)
    exact (hended c hin).elim hout hother
  · intro c hc
    rcases steady_step hs with hsteady | hissues | ⟨d, he, rfl⟩
    · rw [hsteady.expired] at hc
      exact hsub (h.expired c hc)
    · rw [hissues.expired] at hc
      exact hsub (h.expired c hc)
    · rcases List.mem_cons.mp hc with rfl | hc
      · exact hsub (hexpire c he)
      · exact hsub (h.expired c hc)
  · intro hempty
    exact (mem_inFlight_step h.books hs hempty).elim h.nonEmpty hnew

theorem Orderly.knownAlive {n : Nat} {s : Control} {ended : List ConnId} (h : s.Orderly n ended) : s.KnownAlive :=
  fun c hc hgone => h.known c hc (h.expired c hgone)

/-- Its jobs in flight are not empty wherever they are. -/
theorem Orderly.nonEmptyBooks {n : Nat} {s : Control} {ended : List ConnId} (h : s.Orderly n ended) : [] ∉ s.cap.inFlight :=
  fun hempty => h.nonEmpty (Multiset.mem_add.mpr (Or.inl hempty))

end Control

namespace ExecHelper

/-- The stdin coroutine calls `next_job` only while it clears the overspill, and no token is alive once it has returned. -/
structure Orderly (n : Nat) (s : ExecHelper) : Prop where
  control : s.control.Orderly n s.ended
  idle : (∀ last, s.stage ≠ .clearOverspill last) → s.control.call = .idle
  done : s.stage = .returned → s.control.cap.limiter.live = 0

/-- Where the coroutine stays, its call with it, and no token is made. -/
theorem Orderly.keep {n : Nat} {s s' : ExecHelper} (h : s.Orderly n) (hcontrol : s'.control.Orderly n s'.ended)
    (hstage : s'.stage = s.stage) (hcall : s.control.call = .idle → s'.control.call = .idle)
    (hlive : s.control.call = .idle → s'.control.cap.limiter.live ≤ s.control.cap.limiter.live) : s'.Orderly n := by
  refine ⟨hcontrol, ?_, ?_⟩
  · intro hclear
    rw [hstage] at hclear
    exact hcall (h.idle hclear)
  · intro hreturned
    rw [hstage] at hreturned
    have hle := hlive (h.idle (fun last hl => by rw [hreturned] at hl; cases hl))
    rw [h.done hreturned] at hle
    exact Multiset.le_zero.mp hle

/-- One action, where no empty job comes in. -/
theorem Orderly.step {n : Nat} {s s' : ExecHelper} {a : Action} (h : s.Orderly n) (hok : s.NonEmptyJobs a) (hs : s.step a = some s') :
    s'.Orderly n := by
  have hclearing : ∀ (t : ExecHelper) (last : Bool), t.stage = .clearOverspill last → t.control.Orderly n t.ended → t.Orderly n := by
    intro t last hstage hcontrol
    exact ⟨hcontrol, fun hclear => absurd hstage (hclear last), fun hreturned => by rw [hstage] at hreturned; cases hreturned⟩
  have hwork : ∀ c, ({ s.control with cap := s.control.cap.overspillWork c } : Control).Orderly n (c :: s.ended) := by
    intro c
    refine h.control.step (e := .overspillWork c) rfl List.not_mem_nil (fun _ => False.elim) nofun (List.subset_cons_self c _) ?_
    intro d hd
    exact (List.mem_cons.mp hd).symm.imp_right (fun hdc => by rw [hdc])
  cases steps_of_step hs with
  | consume hstage hc =>
    exact hclearing _ _ hstage (h.control.step hc List.not_mem_nil (fun _ => False.elim) nofun (List.Subset.refl _) (fun _ => Or.inl))
  | drained _ hcall => exact ⟨h.control, fun _ => hcall, nofun⟩
  | drainedLast _ hcall _ hc =>
    refine ⟨h.control.step hc List.not_mem_nil (fun _ => False.elim) nofun (List.Subset.refl _) (fun _ => Or.inl), fun _ => ?_, nofun⟩
    cases hc
    exact hcall
  | line _ hc =>
    refine hclearing _ _ rfl (h.control.step hc ?_ (fun _ => False.elim) nofun (List.Subset.refl _) (fun _ => Or.inl))
    exact fun hempty => hok (List.mem_singleton.mp hempty).symm
  | eof => exact hclearing _ _ rfl h.control
  | allDone hstage hdone =>
    refine ⟨h.control, fun _ => h.idle (fun last hl => ?_), fun _ => Multiset.card_eq_zero.mp hdone⟩
    rw [hstage] at hl
    cases hl
  | @inbound c packet cap halive hd =>
    refine h.keep (h.control.step (e := .packet c packet) ?_ hok ?_ nofun (List.Subset.refl _) (fun _ => Or.inl)) rfl id
      (fun _ => (Capacity.steady_dispatch hd).live)
    · simp only [Control.step, hd]
    · rintro d ⟨rfl, -⟩
      exact halive
  | @thrown c => exact h.keep (hwork c) rfl id (fun _ => (s.control.cap.steady_overspillWork c).live)
  | @closed c => exact h.keep (hwork c) rfl id (fun _ => (s.control.cap.steady_overspillWork c).live)
  | @expire c control hdead hc =>
    refine h.keep (h.control.step hc List.not_mem_nil (fun _ => False.elim) ?_ (List.Subset.refl _) (fun _ => Or.inl)) rfl ?_ ?_
    · intro d hd
      cases hd
      exact hdead
    · cases hc
      exact id
    · cases hc
      exact fun _ => le_rfl
  | @internal e control he hc =>
    refine h.keep (h.control.step hc ?_ ?_ ?_ (List.Subset.refl _) (fun _ => Or.inl)) rfl
      (fun hcall => (Control.nothingNew_internal he hcall hc).1) (fun hcall => (Control.nothingNew_internal he hcall hc).2.live)
    · cases e <;> first | exact List.not_mem_nil | cases he
    · cases e <;> first | exact fun _ => False.elim | cases he
    · rintro c rfl
      cases he

theorem orderly_init (n : Nat) : (system n).init.Orderly n := by
  have hinit : (system n).init.control.Accounted n := Control.accounted_of_reachable .serverSide .refl
  refine ⟨⟨hinit, ?_, fun c hc => (List.not_mem_nil hc).elim, ?_⟩, fun _ => rfl, nofun⟩
  · rintro c ⟨remote, hc⟩
    cases hc
  · rw [Control.inFlight_eq_overspill hinit rfl rfl]
    exact Multiset.notMem_zero _

theorem orderly_of_reach {n : Nat} {s : ExecHelper} (h : (system n).Reach NonEmptyJobs s) : s.Orderly n :=
  h.invariant (orderly_init n) (fun _ _ _ ho hok hs => ho.step hok hs)

/-! ## Progress -/

/-- What takes the manager forward brings in no job. -/
theorem Productive.nonEmptyJobs {s : ExecHelper} {a : Action} (h : s.Productive a) : s.NonEmptyJobs a := by
  cases a with
  | line l => exact h.elim
  | inbound c packet =>
    cases packet with
    | completed job => exact List.not_mem_nil
    | _ => exact h.elim
  | _ => trivial

/-- What takes the manager forward takes a job forward, or the stdin coroutine alone. -/
theorem productive_cases {s s' : ExecHelper} {a : Action} (hp : s.Productive a) (hs : s.step a = some s') :
    (∃ e, s.control.Productive e ∧ s.control.step .serverSide e = some s'.control ∧ s'.stage = s.stage) ∨
      (s'.control.call = s.control.call ∧ s'.control.cap.overspill = s.control.cap.overspill ∧
        s'.control.cap.limiter = s.control.cap.limiter ∧ s'.control.cap.queue = s.control.cap.queue ∧
        s'.stage.remaining < s.stage.remaining) := by
  cases steps_of_step hs with
  | consume _ hc => exact Or.inl ⟨.consume, trivial, hc, rfl⟩
  | drained hstage => exact Or.inr ⟨rfl, rfl, rfl, rfl, by rw [hstage]; exact Nat.lt_succ_self 3⟩
  | drainedLast hstage _ _ hc =>
    cases hc
    exact Or.inr ⟨rfl, rfl, rfl, rfl, by rw [hstage]; exact Nat.lt_succ_self 1⟩
  | line => exact hp.elim
  | eof hstage => exact Or.inr ⟨rfl, rfl, rfl, rfl, by rw [hstage]; exact Nat.lt_succ_self 2⟩
  | allDone hstage => exact Or.inr ⟨rfl, rfl, rfl, rfl, by rw [hstage]; exact Nat.lt_succ_self 0⟩
  | @inbound c packet cap _ hd =>
    refine Or.inl ⟨.packet c packet, hp, ?_, rfl⟩
    simp only [Control.step, hd]
  | @thrown c packet _ _ hd =>
    cases packet with
    | completed job => cases hd
    | _ => exact hp.elim
  | closed => exact hp.elim
  | expire => exact hp.elim
  | internal _ hc => exact Or.inl ⟨_, hp, hc, rfl⟩

/-- What takes the manager forward leaves less to do. -/
theorem remaining_lt {n d : Nat} (hd : 0 < d) (x : Nat) {s s' : ExecHelper} {a : Action} (h : s.Orderly n) (hp : s.Productive a)
    (hs : s.step a = some s') : s'.remaining d x < s.remaining d x := by
  unfold remaining
  rcases productive_cases hp hs with ⟨e, he, hc, hstage⟩ | ⟨hcall, hover, hlimiter, -, hstage⟩
  · rw [hstage]
    exact Nat.add_lt_add_right (Control.remaining_lt hd x h.control.books he hc) _
  · exact Nat.add_lt_add_of_le_of_lt (Control.remaining_le d x hover hcall (hlimiter ▸ le_rfl)) hstage

/-- Until the manager has returned it can go on, or it waits for a connection. -/
theorem exists_productive {n : Nat} (hn : 0 < n) {s : ExecHelper} (h : s.Orderly n) (hstage : s.stage ≠ .returned) :
    (∃ a s', a.about = none ∧ s.Productive a ∧ s.step a = some s') ∨ ∃ c job, s.control.cap.IsOutstanding c job := by
  have hbusy : s.control.call ≠ .idle ∨ 0 < s.control.cap.limiter.outstanding →
      (∃ a s', a.about = none ∧ s.Productive a ∧ s.step a = some s') ∨ ∃ c job, s.control.cap.IsOutstanding c job := by
    intro hbusy
    rcases Control.exists_productive .serverSide hn h.control.books h.control.knownAlive h.control.nonEmptyBooks hbusy with
      ⟨e, control, he, hp, hc⟩ | hout
    · refine Or.inl ⟨.internal e, { s with control := control }, rfl, hp, ?_⟩
      simp only [step, he, hc, if_true, Option.map_some]
    · exact Or.inr hout
  cases hs : s.stage with
  | clearOverspill last =>
    cases hcall : s.control.call with
    | idle =>
      cases hover : s.control.cap.overspill with
      | nil =>
        refine Or.inl ⟨.drained, ?_⟩
        cases last <;> simp [step, hs, hcall, hover, Control.step, Productive, Action.about]
      | cons job rest =>
        refine Or.inl ⟨.consume, ?_⟩
        simp [step, hs, hcall, hover, Control.step, Productive, Action.about]
    | waiting job => exact hbusy (Or.inl (by simp [hcall]))
    | writing job task k => exact hbusy (Or.inl (by simp [hcall]))
  | readLine =>
    refine Or.inl ⟨.eof, ?_⟩
    simp [step, hs, Productive, Action.about]
  | waitUntilAllDone =>
    by_cases hdone : s.control.cap.limiter.outstanding = 0
    · refine Or.inl ⟨.allDone, ?_⟩
      simp [step, hs, hdone, Productive, Action.about]
    · exact hbusy (Or.inr (Nat.pos_of_ne_zero hdone))
  | returned => exact absurd hs hstage

/-- The manager has returned, and no job is with a child, with a connection or in `next_job`. -/
def Finished (s : ExecHelper) : Prop := s.stage = .returned ∧ s.control.inFlight = (s.control.cap.overspill : Multiset Line)

theorem Orderly.finished {n : Nat} {s : ExecHelper} (h : s.Orderly n) (hreturned : s.stage = .returned) : s.Finished := by
  refine ⟨hreturned, Control.inFlight_eq_overspill h.control.books (h.done hreturned) (h.idle ?_)⟩
  intro last hl
  rw [hreturned] at hl
  cases hl

/-- Where nothing can go on the manager has returned. -/
theorem Orderly.finished_of_stuck {n : Nat} (hn : 0 < n) {s : ExecHelper} (h : s.Orderly n) (hstuck : (system n).Stuck Productive s) :
    s.Finished := by
  by_contra hopen
  rcases exists_productive hn h (fun hreturned => hopen (h.finished hreturned)) with ⟨a, t, -, hp, hs⟩ | ⟨c, job, hout⟩
  · exact absurd ((hstuck a hp).symm.trans hs) (fun heq => by cases heq)
  · obtain ⟨remote, hc, -⟩ := id hout
    have hstep := hstuck (.inbound c (.completed job)) hout
    simp only [system, ExecHelper.step, if_neg (h.control.known c ⟨remote, hc⟩), Capacity.dispatch] at hstep
    cases hstep

/-- From every state that a manager with a child gets to while no job is empty, it comes to its end, if the children answer, the
connections complete their jobs and stdin ends: there is only so much to do, and when nothing is left to do the manager has returned. -/
theorem comes_to_its_end (n : Nat) (hn : 0 < n) (s : ExecHelper) (h : (system n).Reach NonEmptyJobs s) :
    (system n).ComesTo Productive (s.remaining 1 0) Finished s := by
  have hlowers : (system n).Lowers Productive (Orderly n) (remaining 1 0) :=
    ⟨fun _ _ _ ho hp hs => ho.step hp.nonEmptyJobs hs, fun _ _ _ ho hp hs => remaining_lt Nat.one_pos 0 ho hp hs⟩
  exact hlowers.comesTo (orderly_of_reach h) (fun _ ho hstuck => ho.finished_of_stuck hn hstuck)

/-- One job with a connection and one with the child, while stdin is still open. -/
theorem comes_to_its_end_run :
    ∃ s : ExecHelper, s.read = [[97], [98]] ∧ s.stage = .clearOverspill false ∧
      (system 1).ComesTo Productive (s.remaining 1 0) Finished s := by
  obtain ⟨s, hs, hp⟩ := System.reach_of_restrict_run (S := system 1) NonEmptyJobs
    [.inbound 7 (.version 1 (some 1)), .drained, .line [97], .internal .token, .drained, .line [98], .internal .token,
      .internal .written]
    (fun s => s.read == [[97], [98]] && decide (s.stage = .clearOverspill false)) (by decide)
  rw [Bool.and_eq_true, beq_iff_eq, decide_eq_true_eq] at hp
  exact ⟨s, hp.1, hp.2, comes_to_its_end 1 (by decide) s hs⟩

end ExecHelper

end FostWright
