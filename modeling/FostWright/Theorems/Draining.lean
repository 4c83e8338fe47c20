import FostWright.ChildPool
import FostWright.Lemmas.Pool
import FostWright.Theorems.Cluster
import FostWright.Theorems.Recovery

/-!
# After the input

From `input_complete` on the manager only drains: `next_job` is not called again, so that the queue of a child only loses its front and
no connection gets another job. So a supervisor that is killed because all its work is done stays without work, and when its death is noticed
it is left as it is.
-/

namespace FostWright

open Lib

/-- `handle_child_requests` kills the supervisor of child `k` on an `r`: all work is done and its queue is empty. -/
def Capacity.Kills (s : Capacity) (k : Nat) : Prop :=
  s.inputComplete = true ∧ ∃ child, s.pool.children[k]? = some child ∧ child.commands.elems = []

instance (s : Capacity) (k : Nat) : Decidable (s.Kills k) := by
  unfold Capacity.Kills
  cases s.pool.children[k]? with
  | none => exact .isFalse (by simp)
  | some child => exact decidable_of_iff (s.inputComplete = true ∧ child.commands.elems = []) (by simp)

namespace Capacity

/-- What only drains: the queues of the children lose jobs at the front, and the overspill is not taken from; the connections get no job
and no token is made. -/
structure Drains (s t : Capacity) : Prop where
  children : ∀ (k : Nat) (child' : Childproc), t.pool.children[k]? = some child' →
    ∃ child : Childproc, s.pool.children[k]? = some child ∧ child'.texts <:+ child.texts
  connections : ∀ c, t.outstanding c ≤ s.outstanding c
  overspill : s.overspill <+: t.overspill
  live : t.limiter.live ≤ s.limiter.live
  inputComplete : s.inputComplete = true → t.inputComplete = true

theorem Drains.refl (s : Capacity) : s.Drains s :=
  ⟨fun _ child hk => ⟨child, hk, List.suffix_refl _⟩, fun _ => le_rfl, List.prefix_refl _, le_rfl, id⟩

theorem Drains.trans {s t u : Capacity} (h : s.Drains t) (h' : t.Drains u) : s.Drains u := by
  refine ⟨?_, fun c => (h'.connections c).trans (h.connections c), h.overspill.trans h'.overspill, h'.live.trans h.live,
    h'.inputComplete ∘ h.inputComplete⟩
  intro k child'' hk
  obtain ⟨child', hk', hsuffix'⟩ := h'.children k child'' hk
  obtain ⟨child, hk, hsuffix⟩ := h.children k child' hk'
  exact ⟨child, hk, hsuffix'.trans hsuffix⟩

/-- A child without work stays without. -/
theorem Drains.kills {s t : Capacity} (h : s.Drains t) (hcount : t.pool.children.length = s.pool.children.length) {k : Nat}
    (hk : s.Kills k) : t.Kills k := by
  obtain ⟨hcomplete, child, hfind, hempty⟩ := hk
  have hlt : k < t.pool.children.length := hcount ▸ (List.getElem?_eq_some_iff.mp hfind).1
  refine ⟨h.inputComplete hcomplete, t.pool.children[k], List.getElem?_eq_getElem hlt, ?_⟩
  obtain ⟨child₀, hfind₀, hsuffix⟩ := h.children k _ (List.getElem?_eq_getElem hlt)
  obtain rfl := Option.some.inj (hfind.symm.trans hfind₀)
  have htexts : child.texts = [] := by
    unfold Childproc.texts
    rw [hempty, List.map_nil]
  rw [htexts, List.suffix_nil] at hsuffix
  exact List.map_eq_nil_iff.mp hsuffix

end Capacity

namespace Control

/-- `input_complete` is only set where the stdin coroutine sets it. -/
theorem inputComplete_step {peer : Peering} {s s' : Control} {e : Event} (he : e ≠ .inputComplete) (hs : s.step peer e = some s') :
    s'.cap.inputComplete = s.cap.inputComplete := by
  cases e with
  | nextJob job =>
    obtain ⟨-, rfl⟩ := step_nextJob hs
    rfl
  | consume =>
    obtain ⟨_, _, -, -, rfl⟩ := step_consume hs
    rfl
  | token =>
    obtain ⟨job, task, limiter, -, -, hplace⟩ := step_token hs
    rcases placeJob_cases hplace with ⟨_, _, -, rfl⟩ | ⟨-, _, -, rfl⟩ <;> rfl
  | written =>
    obtain ⟨job, task, k, -, rfl⟩ := step_written hs
    unfold Capacity.pushCommand
    split <;> rfl
  | stdout k ret =>
    cases hs
    rcases Capacity.handleStdout_cases peer s.cap k ret with hsame | ⟨_, _, _, -, -, hdone⟩
    · exact congrArg Capacity.inputComplete hsame
    · simp only [hdone]
      cases peer <;> rfl
  | resend k =>
    cases hs
    unfold Capacity.resendJobs
    split
    · split <;> rfl
    · rfl
  | packet c packet =>
    rcases step_packet hs with ⟨cap, hd, rfl⟩ | ⟨-, rfl⟩
    · cases packet with
      | version v capacity =>
        rcases Capacity.dispatch_version hd with rfl | ⟨_, hadd⟩
        · rfl
        · rw [(Capacity.additional_eq_ok hadd).2]
      | completed job =>
        cases hd
        have hr : (s.cap.remoteAt c).1.inputComplete = s.cap.inputComplete := by rw [Capacity.remoteAt_eq]
        rcases s.cap.jobDoneFrom_cases c job with ⟨-, hdone⟩ | ⟨_, -, hdone⟩
        · rw [hdone, hr]
        · rw [hdone]
          exact hr
      | _ =>
        cases hd
        rfl
    · rfl
  | overspillWork c =>
    cases hs
    simp only [Capacity.overspillWork]
    split <;> rfl
  | inputComplete => exact absurd rfl he
  | _ =>
    cases hs
    rfl

/-- While `next_job` is not called, the overspill is only added to. -/
theorem overspill_step {peer : Peering} {s s' : Control} {e : Event} (hcalls : e.calls = false) (hs : s.step peer e = some s') :
    s.cap.overspill <+: s'.cap.overspill := by
  by_cases hinternal : e.internal = true
  · rw [overspill_internal hinternal hs]
  · cases e with
    | packet c packet =>
      rcases step_packet hs with ⟨cap, hd, rfl⟩ | ⟨-, rfl⟩
      · cases packet with
        | version v capacity =>
          rcases Capacity.dispatch_version hd with rfl | ⟨_, hadd⟩
          · exact List.prefix_refl _
          · rw [(Capacity.additional_eq_ok hadd).2]
        | execute job =>
          cases hd
          exact List.prefix_append _ _
        | completed job =>
          cases hd
          rw [(s.cap.jobDoneFrom_keeps c job).2.1]
        | logMessage message =>
          cases hd
          exact List.prefix_refl _
      · exact List.prefix_refl _
    | overspillWork c =>
      cases hs
      simp only [Capacity.overspillWork]
      split
      · exact List.prefix_append _ _
      · exact List.prefix_refl _
    | expire c =>
      cases hs
      exact List.prefix_refl _
    | inputComplete =>
      cases hs
      exact List.prefix_refl _
    | nextJob job => cases hcalls
    | consume => cases hcalls
    | _ => exact absurd rfl hinternal

/-- Outside `next_job` the children get no job, and each answer is the front of a queue. -/
theorem children_step {peer : Peering} {s s' : Control} {e : Event} (hidle : s.call = .idle) (hs : s.step peer e = some s') {k : Nat}
    {child' : Childproc} (hk : s'.cap.pool.children[k]? = some child') :
    ∃ child : Childproc, s.cap.pool.children[k]? = some child ∧ child'.texts <:+ child.texts := by
  cases poolSteps_of_step hs with
  | kept _ hpool _ =>
    rw [hpool] at hk
    exact ⟨child', hk, List.suffix_refl _⟩
  | pushed hcall _ =>
    rw [hidle] at hcall
    cases hcall
  | @answered j ret child child'' job hfind hhandled hpool _ =>
    rw [hpool] at hk
    have hlt : j < s.cap.pool.children.length := (List.getElem?_eq_some_iff.mp hfind).1
    by_cases hjk : j = k
    · subst hjk
      rw [List.getElem?_set_self hlt] at hk
      obtain rfl := Option.some.inj hk
      refine ⟨child, hfind, ?_⟩
      rw [Childproc.texts_handleStdout hhandled]
      exact List.suffix_cons _ _
    · rw [List.getElem?_set_ne hjk] at hk
      exact ⟨child', hk, List.suffix_refl _⟩

/-- Outside `next_job` no connection gets a job. -/
theorem outstanding_step {s s' : Control} {e : Event} (hidle : s.call = .idle) (hs : s.step .serverSide e = some s') (c : ConnId) :
    s'.cap.outstanding c ≤ s.cap.outstanding c := by
  by_cases habout : e.about = some c
  · cases e with
    | packet d packet =>
      obtain rfl := Option.some.inj habout
      rcases step_packet hs with ⟨cap, hd, rfl⟩ | ⟨-, rfl⟩
      · rcases packet.results_cases with hnone | ⟨job, rfl⟩
        · exact (Capacity.outstanding_dispatch hd hnone).le
        · cases hd
          rw [Capacity.outstanding_jobDoneFrom]
          exact Multiset.erase_le _ _
      · exact le_rfl
    | overspillWork d =>
      obtain rfl := Option.some.inj habout
      cases hs
      simp only [Capacity.outstanding, Capacity.find?_overspillWork, if_true, Option.elim_none]
      exact Multiset.zero_le _
    | _ => cases habout
  · rcases step_frame habout hs with ⟨hfind, -⟩ | ⟨remote, job, task, -, -, hqueue⟩
    · unfold Capacity.outstanding
      rw [hfind]
    · rcases queue_of_step hs with hsame | ⟨_, _, _, -, hcall, -⟩ | ⟨_, _, _, hpeer, -⟩
      · rw [hsame] at hqueue
        simp at hqueue
      · rw [hidle] at hcall
        cases hcall
      · cases hpeer

/-- While `next_job` is not called, the books only drain. -/
theorem drains_step {s s' : Control} {e : Event} (hidle : s.call = .idle) (hcalls : e.calls = false) (hs : s.step .serverSide e = some s') :
    s.cap.Drains s'.cap ∧ s'.call = .idle := by
  obtain ⟨hlive, hcall⟩ : s'.cap.limiter.live ≤ s.cap.limiter.live ∧ s'.call = .idle := by
    by_cases hinternal : e.internal = true
    · exact (nothingNew_internal hinternal hidle hs).symm.imp_left Capacity.NothingNew.live
    · cases e with
      | packet c packet =>
        rcases step_packet hs with ⟨cap, hd, rfl⟩ | ⟨-, rfl⟩
        · exact ⟨(Capacity.steady_dispatch hd).live, hidle⟩
        · exact ⟨le_rfl, hidle⟩
      | overspillWork c =>
        cases hs
        exact ⟨(s.cap.steady_overspillWork c).live, hidle⟩
      | expire c =>
        cases hs
        exact ⟨le_rfl, hidle⟩
      | inputComplete =>
        cases hs
        exact ⟨le_rfl, hidle⟩
      | nextJob job => cases hcalls
      | consume => cases hcalls
      | _ => exact absurd rfl hinternal
  refine ⟨⟨fun k child' hk => children_step hidle hs hk, outstanding_step hidle hs, overspill_step hcalls hs, hlive, ?_⟩, hcall⟩
  intro hcomplete
  by_cases he : e = .inputComplete
  · subst he
    cases hs
    rfl
  · exact (inputComplete_step he hs).trans hcomplete

end Control

namespace ExecHelper

/-- Once `input_complete` is set, the stdin coroutine is past its last `clear_overspill`, and `next_job` is not called. -/
structure PastInput (s : ExecHelper) : Prop where
  past : s.pastClearing = true
  idle : s.control.call = .idle

/-- Past the input an action only drains the books. -/
theorem PastInput.step {s s' : ExecHelper} {a : Action} (h : s.PastInput) (hs : s.step a = some s') :
    s'.PastInput ∧ s.control.cap.Drains s'.control.cap := by
  have hstage : ∀ last, s.stage ≠ .clearOverspill last := by
    intro last hlast
    have hpast := h.past
    simp [pastClearing, hlast] at hpast
  have hread : s.stage ≠ .readLine := by
    intro hlast
    have hpast := h.past
    simp [pastClearing, hlast] at hpast
  have hkeep : ∀ {e : Event}, e.calls = false → s'.stage = s.stage → s.control.step .serverSide e = some s'.control →
      s'.PastInput ∧ s.control.cap.Drains s'.control.cap := by
    intro e hcalls hsame hc
    obtain ⟨hdrains, hidle⟩ := Control.drains_step h.idle hcalls hc
    refine ⟨⟨?_, hidle⟩, hdrains⟩
    have hpast := h.past
    unfold pastClearing at hpast ⊢
    rwa [hsame]
  cases steps_of_step hs with
  | consume hlast => exact absurd hlast (hstage _)
  | drained hlast => exact absurd hlast (hstage _)
  | drainedLast hlast => exact absurd hlast (hstage _)
  | line hlast => exact absurd hlast hread
  | eof hlast => exact absurd hlast hread
  | allDone => exact ⟨⟨rfl, h.idle⟩, Capacity.Drains.refl _⟩
  | @inbound c packet _ _ hd =>
    refine hkeep (e := .packet c packet) rfl rfl ?_
    simp only [Control.step, hd]
  | @thrown c => exact hkeep (e := .overspillWork c) rfl rfl rfl
  | @closed c => exact hkeep (e := .overspillWork c) rfl rfl rfl
  | @expire c _ _ hc => exact hkeep (e := .expire c) rfl rfl hc
  | @internal e _ he hc =>
    refine hkeep ?_ rfl hc
    cases e <;> first | rfl | cases he

/-- `input_complete` is only set past the input. -/
theorem pastInput_of_reachable {n : Nat} {ok : ExecHelper → Action → Prop} {s : ExecHelper} (h : (system n).Reach ok s) :
    s.control.cap.inputComplete = true → s.PastInput := by
  refine h.invariant (I := fun s => s.control.cap.inputComplete = true → s.PastInput) (fun hcomplete => by cases hcomplete) ?_
  intro s a s' hi _ hs hcomplete
  by_cases hbefore : s.control.cap.inputComplete = true
  · exact ((hi hbefore).step hs).1
  · have hsame : ∀ {e : Event}, e ≠ .inputComplete → s.control.step .serverSide e = some s'.control → s'.PastInput := by
      intro e he hc
      exact absurd ((Control.inputComplete_step he hc).symm.trans hcomplete) hbefore
    cases steps_of_step hs with
    | consume _ hc => exact hsame (e := .consume) (fun h => by cases h) hc
    | drained => exact absurd hcomplete hbefore
    | drainedLast _ hcall _ hc =>
      cases hc
      exact ⟨rfl, hcall⟩
    | @line l _ _ hc => exact hsame (e := .nextJob l) (fun h => by cases h) hc
    | eof => exact absurd hcomplete hbefore
    | allDone => exact absurd hcomplete hbefore
    | @inbound c packet _ _ hd =>
      refine hsame (e := .packet c packet) (fun h => by cases h) ?_
      simp only [Control.step, hd]
    | @thrown c => exact hsame (e := .overspillWork c) (fun h => by cases h) rfl
    | @closed c => exact hsame (e := .overspillWork c) (fun h => by cases h) rfl
    | @expire c _ _ hc => exact hsame (e := .expire c) (fun h => by cases h) hc
    | @internal e _ he hc =>
      refine hsame ?_ hc
      rintro rfl
      cases he

/-- Past the input every run drains the books. -/
theorem PastInput.reachFrom {n : Nat} {s t : ExecHelper} (h : s.PastInput) (ht : (system n).ReachFrom System.anyStep s t) :
    t.PastInput ∧ s.control.cap.Drains t.control.cap := by
  refine ht.invariant (I := fun t => t.PastInput ∧ s.control.cap.Drains t.control.cap) ⟨h, .refl _⟩ ?_
  rintro t a u ⟨hpast, hdrains⟩ - hs
  obtain ⟨hpast', hstep⟩ := hpast.step hs
  exact ⟨hpast', hdrains.trans hstep⟩

/-- A child whose supervisor is killed because all work is done is left by the reactor when it is examined. -/
theorem exited_examine_of_kills {p : Manager} {k : Nat} (h : p.control.cap.Kills k) (hp : p.exited = false) :
    (p.examine k).exited = false := by
  obtain ⟨-, child, hfind, hempty⟩ := h
  unfold Manager.examine
  rw [hfind]
  by_cases hzombie : p.processes[k]? = some .zombie
  · simp only [if_pos hzombie, if_pos hempty]
    exact hp
  · simp only [if_neg hzombie]
    exact hp

/-- From the moment that `input_complete` is set, in every run of the manager: the children only answer and the connections only complete
or lose what they have, and `next_job` is not called. A child whose supervisor would be killed on an `r`, all work being done, would be in
every later state; and whenever the reactor then examines it, it does not end the manager. -/
theorem drains_after_input (n : Nat) (s t : ExecHelper) (h : (system n).Reachable s) (hdone : s.control.cap.inputComplete = true)
    (ht : (system n).ReachFrom System.anyStep s t) :
    s.control.cap.Drains t.control.cap ∧ t.control.call = .idle ∧
      ∀ k, s.control.cap.Kills k → t.control.cap.Kills k ∧
        ∀ p : Manager, p.control = t.control → p.exited = false → (p.examine k).exited = false := by
  obtain ⟨hpast, hdrains⟩ := (pastInput_of_reachable h hdone).reachFrom ht
  refine ⟨hdrains, hpast.idle, ?_⟩
  intro k hk
  have hcount : ∀ u : ExecHelper, (system n).Reachable u → u.control.cap.pool.children.length = n := by
    intro u hu
    exact (Control.Accounted.books (hu.invariant (I := fun u : ExecHelper => u.control.Accounted n)
      (Control.accounted_of_reachable .serverSide .refl) (fun _ _ _ hi _ hs => accounted_step hi hs))).children
  have hkills : t.control.cap.Kills k := by
    refine hdrains.kills ?_ hk
    rw [hcount s h, hcount t (h.trans ht)]
  refine ⟨hkills, ?_⟩
  intro p hp hexited
  exact exited_examine_of_kills (hp ▸ hkills) hexited

/-- With two children and two lines: one child has answered and is killed on an `r`, the other answers later. -/
theorem drains_after_input_run :
    ∃ s t : ExecHelper, ¬s.control.cap.Kills 0 ∧ t.control.cap.stdout = [[97], [98]] ∧ s.control.cap.Drains t.control.cap ∧
      t.control.cap.Kills 1 := by
  obtain ⟨s, hs, hp⟩ := System.reachable_of_run (S := system 2)
    [.drained, .line [97], .internal .token, .internal .written, .drained, .line [98], .internal .token, .internal .written,
      .internal (.stdout 1 [97]), .drained, .eof, .drained]
    (fun s => s.control.cap.inputComplete && decide (s.control.cap.Kills 1) && decide (¬s.control.cap.Kills 0) &&
      (((system 2).run s [.internal (.resend 1), .internal (.stdout 0 [98])]).map
        (fun t => t.control.cap.stdout) == some [[97], [98]])) (by decide)
  simp only [Bool.and_eq_true, decide_eq_true_eq, beq_iff_eq] at hp
  obtain ⟨⟨⟨hdone, hkills⟩, hother⟩, hrun⟩ := hp
  obtain ⟨t, ht, hprinted⟩ := Option.map_eq_some_iff.mp hrun
  obtain ⟨hdrains, -, hall⟩ := drains_after_input 2 s t hs hdone (System.reachFrom_of_run .refl (System.meets_anyStep _ _ _) ht)
  exact ⟨s, t, hother, hprinted, hdrains, (hall 1 hkills).1⟩

end ExecHelper

end FostWright
