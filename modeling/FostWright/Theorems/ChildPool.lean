import FostWright.ChildPool
import FostWright.Lemmas.Pool

/-!
# When no job is with a dead child

A child is lost when its supervisor process has ended and nothing will come of it: it ended before the handler was attached and no
later signal has it examined, or it was found with an empty queue. There is no other way (`lost_step`); signals that were merged
lose nobody, because every signal has all children examined. Nothing takes a lost child out of the pool, so `next_job` must not be
called for it to stay without jobs.
-/

namespace FostWright

open Lib

namespace Manager

/-! ## How a child is lost -/

/-- After child `i` the loop still comes to the children behind it. -/
theorem noticed_next {s : Manager} {i k : Nat} {processes : List Process} (hscanning : s.scanning = some i) (hki : k ≠ i)
    (h : s.Noticed k) : ({ s with processes := processes, scanning := some (i + 1) } : Manager).Noticed k := by
  refine h.imp_right (Or.imp_right ?_)
  rintro ⟨i', hi', hle⟩
  rw [hscanning, Option.mem_some] at hi'
  exact ⟨i + 1, rfl, by omega⟩

/-- A lost child was lost before, or it ends now without a handler, or the reactor finds it now with an empty queue. -/
theorem lost_step {peer : Peering} {s s' : Manager} {a : Action} {k : Nat} (hs : s.step peer a = some s')
    (hforked : s.processes.length ≤ s.control.cap.pool.children.length) (hk : s'.Lost k) :
    s.Lost k ∨ a = .dies k ∧ s.attached = false ∨
      a = .scan ∧ s.scanning = some k ∧ s.processes[k]? = some .zombie ∧ s'.processes[k]? = some .left ∧
        ∃ child, s.control.cap.pool.children[k]? = some child ∧ child.commands.elems = [] := by
  cases steps_of_step hs with
  | fork =>
    refine Or.inl ?_
    have hget : ∀ p, p ≠ .running → (s.processes ++ [.running])[k]? = some p → s.processes[k]? = some p := by
      intro p hp hkp
      rw [List.getElem?_append] at hkp
      split at hkp
      · exact hkp
      · cases hkp' : k - s.processes.length with
        | zero =>
          rw [hkp', List.getElem?_cons_zero, Option.some.injEq] at hkp
          exact absurd hkp.symm hp
        | succ j => simp [hkp'] at hkp
    exact hk.imp (hget _ (by decide)) (And.imp_left (hget _ (by decide)))
  | attach => exact Or.inl hk
  | @dies j hrunning =>
    by_cases hkj : k = j
    · subst hkj
      -- it is a zombie now, which the handler makes the reactor notice where it is attached
      have hzombie : (s.processes.set k .zombie)[k]? = some .zombie := by
        rw [List.getElem?_set_self' , hrunning]
        rfl
      rcases hk with hleft | ⟨-, hnoticed⟩
      · exact absurd (hzombie.symm.trans hleft) (by decide)
      · refine Or.inr (Or.inl ⟨rfl, ?_⟩)
        by_contra hattached
        refine hnoticed (Or.inl ?_)
        rw [Bool.not_eq_false] at hattached
        simp only [hattached, Bool.or_true]
    · have hget : (s.processes.set j .zombie)[k]? = s.processes[k]? := List.getElem?_set_ne (Ne.symm hkj)
      refine Or.inl ?_
      rcases hk with hleft | ⟨hzombie, hnoticed⟩
      · exact Or.inl (hget.symm.trans hleft)
      · refine Or.inr ⟨hget.symm.trans hzombie, fun hn => hnoticed ?_⟩
        exact hn.imp_left (fun hpending => by simp [hpending])
  | signal =>
    rcases hk with hleft | ⟨-, hnoticed⟩
    · exact Or.inl (Or.inl hleft)
    · exact absurd (Or.inl rfl) hnoticed
  | handler =>
    rcases hk with hleft | ⟨-, hnoticed⟩
    · exact Or.inl (Or.inl hleft)
    · exact absurd (Or.inr (Or.inl (Nat.succ_pos _))) hnoticed
  | reactor =>
    rcases hk with hleft | ⟨-, hnoticed⟩
    · exact Or.inl (Or.inl hleft)
    · exact absurd (Or.inr (Or.inr ⟨0, rfl, Nat.zero_le k⟩)) hnoticed
  | @leaves i child hscanning hzombie hfound hempty =>
    by_cases hki : k = i
    · subst hki
      refine Or.inr (Or.inr ⟨rfl, hscanning, hzombie, ?_, child, hfound, hempty⟩)
      simp only [List.getElem?_set_self', hzombie]
      rfl
    · have hget : (s.processes.set i .left)[k]? = s.processes[k]? := List.getElem?_set_ne (Ne.symm hki)
      refine Or.inl ?_
      rcases hk with hleft | ⟨hzombie', hnoticed⟩
      · exact Or.inl (hget.symm.trans hleft)
      · exact Or.inr ⟨hget.symm.trans hzombie', fun hn => hnoticed (noticed_next hscanning hki hn)⟩
  | panics => exact Or.inl hk
  | @passes i hscanning hother =>
    refine Or.inl (hk.imp_right ?_)
    rintro ⟨hzombie, hnoticed⟩
    have hki : k ≠ i := fun hki => hother (hki ▸ hzombie)
    exact ⟨hzombie, fun hn => hnoticed (noticed_next hscanning hki hn)⟩
  | @ends i hscanning hlast =>
    refine Or.inl (hk.imp_right ?_)
    rintro ⟨hzombie, hnoticed⟩
    refine ⟨hzombie, fun hn => hnoticed (hn.imp_right (Or.imp_right ?_))⟩
    -- the loop is past the last child
    rintro ⟨i', hi', hle⟩
    rw [hscanning, Option.mem_some] at hi'
    have hlt : k < s.processes.length := (List.getElem?_eq_some_iff.mp hzombie).1
    have hlen := List.getElem?_eq_none_iff.mp hlast
    omega
  | books => exact Or.inl hk

/-- A child that was left stays so. -/
theorem left_step {peer : Peering} {s s' : Manager} {a : Action} {k : Nat} (hs : s.step peer a = some s')
    (hk : s.processes[k]? = some .left) : s'.processes[k]? = some .left := by
  cases steps_of_step hs with
  | fork =>
    have hlt := (List.getElem?_eq_some_iff.mp hk).1
    exact (List.getElem?_append_left hlt).trans hk
  | @dies j hrunning =>
    have hkj : j ≠ k := by
      rintro rfl
      rw [hk] at hrunning
      cases hrunning
    exact (List.getElem?_set_ne hkj).trans hk
  | @leaves i _ _ hzombie =>
    have hki : i ≠ k := by
      rintro rfl
      rw [hk] at hzombie
      cases hzombie
    exact (List.getElem?_set_ne hki).trans hk
  | _ => exact hk

/-! ## The processes and the books -/

/-- The books are accounted for, there are at most as many processes as children, and the books are as they were at the start until
the handler is attached. -/
structure Inv (n : Nat) (s : Manager) : Prop where
  books : s.control.Accounted n
  forked : s.processes.length ≤ n
  start : s.attached = false → s.control = (init n).control

theorem inv_init (n : Nat) : (init n).Inv n :=
  ⟨Control.accounted_of_reachable .serverSide System.ReachFrom.refl, Nat.zero_le n, fun _ => rfl⟩

/-- One action keeps the invariant. -/
theorem Inv.step {peer : Peering} {n : Nat} {s s' : Manager} {a : Action} (h : s.Inv n) (hs : s.step peer a = some s') :
    s'.Inv n := by
  cases steps_of_step hs with
  | fork hroom =>
    refine ⟨h.books, ?_, h.start⟩
    rw [h.books.books.children] at hroom
    simp only [List.length_append, List.length_singleton]
    omega
  | attach => exact ⟨h.books, h.forked, fun hno => by cases hno⟩
  | dies => exact ⟨h.books, by simpa using h.forked, h.start⟩
  | leaves => exact ⟨h.books, by simpa using h.forked, h.start⟩
  | books hattached hevent =>
    refine ⟨h.books.step hevent, h.forked, ?_⟩
    intro hno
    exact Bool.noConfusion (hno.symm.trans hattached)
  | _ => exact ⟨h.books, h.forked, h.start⟩

/-- The invariant holds in every run. -/
theorem inv_of_reach {peer : Peering} {n : Nat} {ok : Manager → Action → Prop} {s : Manager} (h : (system peer n).Reach ok s) :
    s.Inv n :=
  h.invariant (inv_init n) (fun _ _ _ hi _ hs => hi.step hs)

/-- Each process belongs to a child. -/
theorem Inv.processes_le {n : Nat} {s : Manager} (h : s.Inv n) : s.processes.length ≤ s.control.cap.pool.children.length := by
  rw [h.books.books.children]
  exact h.forked

/-! ## No death goes unnoticed once the handler is attached -/

/-- No supervisor process ends before the handler is attached. -/
def DiesAttached (s : Manager) : Action → Prop
  | .dies _ => s.attached = true
  | _ => True

/-- In a run in which no supervisor process ends before the handler is attached, however its signals are merged: the children that
are lost are those that the reactor has left, and so every other child that has ended will be examined. -/
theorem lost_iff_left {peer : Peering} {n : Nat} {s : Manager} (h : (system peer n).Reach DiesAttached s) (k : Nat) :
    s.Lost k ↔ s.processes[k]? = some .left := by
  refine ⟨?_, Or.inl⟩
  refine h.invariant₂ (J := Inv n) (I := fun s => s.Lost k → s.processes[k]? = some .left)
    (fun u hu => inv_of_reach hu) ?_ ?_
  · rintro (hleft | ⟨hzombie, -⟩)
    · exact hleft
    · cases hzombie
  · intro s a s' hinv hi hok hs hk
    rcases lost_step hs hinv.processes_le hk with hk | ⟨rfl, hattached⟩ | ⟨-, -, -, hleft, -⟩
    · exact left_step hs (hi hk)
    · exact Bool.noConfusion (hattached.symm.trans hok)
    · exact hleft

/-! ## A lost child without jobs -/

/-- `next_job` has nothing to do with child `k`: it does not wait for a token, it is not writing to the child, and the queue of the
child is empty. -/
structure Unused (s : Control) (k : Nat) : Prop where
  call : s.call.waits = false
  target : s.call.target ≠ some k
  empty : ∀ child, s.cap.pool.children[k]? = some child → child.commands.elems = []

/-- A child stays without jobs while `next_job` is not called. -/
theorem Unused.step {peer : Peering} {s s' : Control} {e : Event} {k : Nat} (h : Unused s k) (he : e.calls = false)
    (hs : s.step peer e = some s') : Unused s' k := by
  obtain ⟨hcall, htarget, hempty⟩ := h
  have hafter : s'.call.waits = false ∧ s'.call.target ≠ some k := by
    cases e with
    | nextJob => cases he
    | consume => cases he
    | token =>
      obtain ⟨_, _, _, hwait, -⟩ := Control.step_token hs
      rw [hwait] at hcall
      cases hcall
    | written =>
      obtain ⟨_, _, _, -, rfl⟩ := Control.step_written hs
      exact ⟨rfl, fun hno => by cases hno⟩
    | packet c packet =>
      rcases Control.step_packet hs with ⟨_, -, rfl⟩ | ⟨-, rfl⟩
      · exact ⟨hcall, htarget⟩
      · exact ⟨hcall, htarget⟩
    | _ =>
      cases hs
      exact ⟨hcall, htarget⟩
  refine ⟨hafter.1, hafter.2, ?_⟩
  intro child' hk
  cases Control.poolSteps_of_step hs with
  | kept _ hpool _ =>
    rw [hpool] at hk
    exact hempty child' hk
  | @pushed job task j hwrite hpushed =>
    have hjk : j ≠ k := by
      rintro rfl
      exact htarget (congrArg NextJob.target hwrite)
    refine hempty child' ?_
    rw [hpushed] at hk
    unfold Capacity.pushCommand at hk
    split at hk
    · exact (List.getElem?_set_ne hjk).symm.trans hk
    · exact hk
  | @answered j ret child _ job hj hc hpool _ =>
    -- a child that answers has a job, so it is another one
    have hjk : j ≠ k := by
      rintro rfl
      have hcons := (Childproc.handleStdout_eq_some hc).2.2.1
      rw [hempty child hj] at hcons
      cases hcons
    rw [hpool] at hk
    exact hempty child' ((List.getElem?_set_ne hjk).symm.trans hk)

/-- `next_job` keeps away from lost children: it is not called while a child is lost, and when the reactor finds a child dead with an
empty queue it is neither waiting for a token nor writing to that child. -/
def KeepsAway (s : Manager) : Action → Prop
  | .books e => e.calls = true → ∀ k ∈ List.range s.processes.length, ¬s.Lost k
  | .scan =>
    ∀ i ∈ s.scanning, s.processes[i]? = some .zombie →
      ∀ child ∈ s.control.cap.pool.children[i]?, child.commands.elems = [] →
        s.control.call.waits = false ∧ s.control.call.target ≠ some i
  | _ => True

instance (s : Manager) (a : Action) : Decidable (s.KeepsAway a) := by
  unfold KeepsAway
  split <;> infer_instance

/-- What happens to the processes leaves the books alone. -/
theorem control_step {peer : Peering} {s s' : Manager} {a : Action} (hs : s.step peer a = some s') :
    s'.control = s.control ∨ ∃ e, a = .books e ∧ s.control.step peer e = some s'.control := by
  cases steps_of_step hs with
  | @books e _ _ hevent => exact Or.inr ⟨e, rfl, hevent⟩
  | _ => exact Or.inl rfl

/-- One step that keeps away from lost children leaves `next_job` with nothing to do with those that are lost after it. -/
theorem unused_step {peer : Peering} {n : Nat} {s s' : Manager} {a : Action} (hinv : s.Inv n)
    (hi : ∀ k, s.Lost k → Unused s.control k) (hok : s.KeepsAway a) (hs : s.step peer a = some s') (k : Nat) (hk : s'.Lost k) :
    Unused s'.control k := by
  rcases lost_step hs hinv.processes_le hk with hlost | ⟨rfl, hattached⟩ | ⟨rfl, hscanning, hzombie, -, child, hchild, hempty⟩
  · rcases control_step hs with hsame | ⟨e, rfl, hevent⟩
    · rw [hsame]
      exact hi k hlost
    · refine (hi k hlost).step ?_ hevent
      have hlt : k < s.processes.length := by
        rcases hlost with hleft | ⟨hzombie, -⟩
        · exact (List.getElem?_eq_some_iff.mp hleft).1
        · exact (List.getElem?_eq_some_iff.mp hzombie).1
      by_contra hcalls
      rw [Bool.not_eq_false] at hcalls
      exact hok hcalls k (List.mem_range.mpr hlt) hlost
  · rcases control_step hs with hsame | ⟨_, hbooks, -⟩
    · -- there are no jobs before the handler is attached
      rw [hsame, hinv.start hattached]
      refine ⟨rfl, (fun hno => by cases hno), ?_⟩
      intro child hchild
      rw [List.eq_of_mem_replicate (List.mem_of_getElem? hchild)]
      rfl
    · cases hbooks
  · rcases control_step hs with hsame | ⟨_, hbooks, -⟩
    · obtain ⟨hcall, htarget⟩ := hok k hscanning hzombie child hchild hempty
      rw [hsame]
      refine ⟨hcall, htarget, ?_⟩
      intro child' hchild'
      rw [hchild, Option.some.injEq] at hchild'
      exact hchild' ▸ hempty
    · cases hbooks

/-- In a run in which `next_job` keeps away from lost children, it has nothing to do with them. -/
theorem unused_of_lost {peer : Peering} {n : Nat} {s : Manager} (h : (system peer n).Reach KeepsAway s) (k : Nat)
    (hk : s.Lost k) : Unused s.control k := by
  refine h.invariant₂ (J := Inv n) (I := fun s => ∀ k, s.Lost k → Unused s.control k) (fun u hu => inv_of_reach hu) ?_
    (fun _ _ _ hinv hi hok hs => unused_step hinv hi hok hs) k hk
  rintro k (hleft | ⟨hzombie, -⟩)
  · cases hleft
  · cases hzombie

/-- In every state in which all signals are handled and the pipe is drained, of a run in which `next_job` keeps away from lost
children: no job is with a child whose supervisor process has ended, and `next_job` does not give one to it. -/
theorem no_job_on_dead_child (peer : Peering) (n : Nat) (s : Manager) (h : (system peer n).Reach KeepsAway s)
    (hquiet : s.Quiet) (k : Nat) (hended : s.Ended k) :
    (∀ child, s.control.cap.pool.children[k]? = some child → child.commands.elems = []) ∧
      ∀ e, s.control.dispatchedTo peer e ≠ some k := by
  have hlost : s.Lost k := by
    refine hended.symm.imp_right (fun hzombie => ⟨hzombie, ?_⟩)
    obtain ⟨hpending, hpipe, hscanning⟩ := hquiet
    rintro (hn | hn | ⟨i, hi, -⟩)
    · exact Bool.noConfusion (hn.symm.trans hpending)
    · omega
    · rw [hscanning] at hi
      cases hi
  obtain ⟨hcall, htarget, hempty⟩ := unused_of_lost h k hlost
  refine ⟨hempty, ?_⟩
  intro e
  cases e with
  | token =>
    cases hs : s.control.step peer .token with
    | none => simp [Control.dispatchedTo, hs]
    | some s' =>
      obtain ⟨_, _, _, hwait, -⟩ := Control.step_token hs
      rw [hwait] at hcall
      cases hcall
  | written => exact htarget
  | _ => simp [Control.dispatchedTo]

/-- A child that dies when its job is done is left, and there are no more jobs. -/
theorem no_job_on_dead_child_run :
    ∃ s : Manager, s.Ended 0 ∧ s.control.cap.stdout = [[97]] ∧
      (∀ child, s.control.cap.pool.children[0]? = some child → child.commands.elems = []) ∧
        ∀ e, s.control.dispatchedTo .serverSide e ≠ some 0 := by
  obtain ⟨s, hs, hp⟩ := System.reach_of_restrict_run (S := system .serverSide 1) KeepsAway
    [.fork, .attach, .books (.nextJob [97]), .books .token, .books .written, .books (.stdout 0 [97]), .dies 0, .handler, .reactor,
      .scan, .scan]
    (fun s => decide s.Quiet && decide (s.Ended 0) && s.control.cap.stdout == [[97]]) (by decide)
  simp only [Bool.and_eq_true, decide_eq_true_eq, beq_iff_eq] at hp
  exact ⟨s, hp.1.2, hp.2, no_job_on_dead_child .serverSide 1 s hs hp.1.1 0 hp.1.2⟩

/-- Without that condition it fails: a supervisor that ends before the handler is attached is not noticed, and the first job is given
to it. -/
theorem job_on_dead_child :
    ¬ ∀ (peer : Peering) (n : Nat) (s : Manager), (system peer n).Reachable s → s.exited = false → s.Quiet → ∀ k, s.Ended k →
      (∀ child, s.control.cap.pool.children[k]? = some child → child.commands.elems = []) ∧
        ∀ e, s.control.dispatchedTo peer e ≠ some k := by
  intro h
  obtain ⟨s, hs, hp⟩ := System.reachable_of_run (S := system .serverSide 1)
    [.fork, .dies 0, .attach, .books (.nextJob [97]), .books .token, .books .written]
    (fun s => decide (s.exited = false) && decide s.Quiet && decide (s.Ended 0) &&
      (s.control.cap.pool.children[0]?).any (fun child => child.texts == [[97]])) (by decide)
  simp only [Bool.and_eq_true, decide_eq_true_eq] at hp
  obtain ⟨⟨⟨hrunning, hquiet⟩, hended⟩, hjob⟩ := hp
  obtain ⟨child, hchild, htexts⟩ := (Option.any_eq_true _ _).mp hjob
  have hempty := (h .serverSide 1 s hs hrunning hquiet 0 hended).1 child hchild
  rw [Childproc.texts, hempty] at htexts
  cases htexts

/-- The other way: a child that dies without a job is left in the pool, and gets the next one. -/
example :
    ((system .serverSide 1).run (init 1)
      [.fork, .attach, .dies 0, .handler, .reactor, .scan, .scan, .books (.nextJob [97]), .books .token, .books .written]).map
        (fun s => decide s.Quiet && decide (s.Ended 0) && s.control.cap.pool.children.map Childproc.texts == [[[97]]]) =
      some true := by
  decide

end Manager

end FostWright
