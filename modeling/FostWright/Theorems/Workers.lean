import FostWright.Lemmas.Roundtrip
import FostWright.Lemmas.Workers
import FostWright.Theorems.Cluster
import FostWright.Theorems.Draining

/-!
# Crashes of workers do not stop the manager

`comes_to_its_end` assumes of the children that they answer. Here they are workers that crash, as those of `Resending` do: the manager is an
owner of its children.
-/

namespace FostWright

open Lib

namespace Control

variable {peer : Peering} {n : Nat} {s s' : Control}

/-! ## The children in the books -/

/-- The job that is being written to child `k` is the one of the call. -/
theorem call_of_writingTo {call : NextJob} {k : Nat} {text : Line} {task : Token} (h : call.writingTo k = some (text, task)) :
    call = .writing text task k := by
  cases call with
  | writing job task' j =>
    simp only [NextJob.writingTo] at h
    split at h
    · rename_i hjk
      cases h
      rw [hjk]
    · cases h
  | _ => cases h

theorem slots_init (n : Nat) (k : Fin n) : ({ cap := Capacity.init n, call := .idle } : Control).slots n k = Slot.init := by
  simp only [slots, slot, Capacity.init, List.getElem?_replicate, k.isLt, if_true]
  rfl

theorem lt_of_find (h : s.Accounted n) {k : Nat} {child : Childproc} (hfind : s.cap.pool.children[k]? = some child) : k < n := by
  rw [← h.books.children]
  exact (List.getElem?_eq_some_iff.mp hfind).1

/-- The children of the books are those of the pool. -/
theorem find_slot (h : s.Accounted n) (k : Fin n) : s.cap.pool.children[(k : Nat)]? = some (s.slots n k).child := by
  have hlt : (k : Nat) < s.cap.pool.children.length := by
    rw [h.books.children]
    exact k.isLt
  simp only [slots, slot, List.getElem?_eq_getElem hlt, Option.getD_some]

/-- Where the pool and the write stay as they are. -/
theorem leaves_of_pool (n : Nat) (hpool : s'.cap.pool = s.cap.pool) (hcall : ∀ k, s'.call.writingTo k = s.call.writingTo k)
    (hflag : s'.cap.inputComplete = s.cap.inputComplete ∨ s'.cap.inputComplete = true) : Slot.Leaves (s.slots n) (s'.slots n) := by
  refine .quiet ?_ (fun k => hcall k) (fun _ => hflag)
  intro k
  simp only [slots, slot, hpool]

/-- An event that does not belong to the children leaves them as they are, or begins to write a job to one of them. -/
theorem leaves_step (h : s'.Accounted n) (hjobs : ∀ text ∈ s'.call.text, Answerable text) {e : Event} (hs : s.step peer e = some s')
    (hwritten : e ≠ .written) (hstdout : ∀ k ret, e ≠ .stdout k ret) : Slot.Leaves (s.slots n) (s'.slots n) := by
  have hpool : s'.cap.pool = s.cap.pool := by
    cases poolSteps_of_step hs with
    | kept _ hpool _ => exact hpool
    | pushed => exact absurd rfl hwritten
    | answered => exact absurd rfl (hstdout _ _)
  have hflag : s'.cap.inputComplete = s.cap.inputComplete ∨ s'.cap.inputComplete = true := by
    by_cases he : e = .inputComplete
    · rw [he] at hs
      cases hs
      exact Or.inr rfl
    · exact Or.inl (inputComplete_step he hs)
  cases e with
  | nextJob job =>
    obtain ⟨hcall, rfl⟩ := step_nextJob hs
    exact leaves_of_pool n hpool (fun _ => by rw [hcall]; rfl) hflag
  | consume =>
    obtain ⟨job, rest, hcall, -, rfl⟩ := step_consume hs
    exact leaves_of_pool n hpool (fun _ => by rw [hcall]; rfl) hflag
  | token =>
    obtain ⟨job, task, limiter, hcall, -, hplace⟩ := step_token hs
    rcases placeJob_cases hplace with ⟨c, remote, -, rfl⟩ | ⟨-, k, -, rfl⟩
    · exact leaves_of_pool n hpool (fun _ => by rw [hcall]; rfl) hflag
    · -- the job is written to child `k`
      obtain ⟨target, htarget, hroom⟩ := h.room job task k rfl
      have hlt := lt_of_find h htarget
      refine @Slot.Leaves.begins _ _ _ _ ⟨k, hlt⟩ job task ?_ (by simp only [slots, slot, hcall]; rfl) ?_ ?_
      · exact hjobs job (Multiset.mem_singleton_self job)
      · have hfind := find_slot h ⟨k, hlt⟩
        obtain rfl := Option.some.inj (hfind.symm.trans htarget)
        exact hroom
      · funext j
        by_cases hj : j = ⟨k, hlt⟩
        · subst hj
          simp only [slots, slot, Function.update_self, NextJob.writingTo, if_true]
          rfl
        · have hne : k ≠ j := fun heq => hj (Fin.ext heq.symm)
          simp only [slots, slot, Function.update_of_ne hj, NextJob.writingTo, if_neg hne, hcall]
          rfl
  | written => exact absurd rfl hwritten
  | stdout k ret => exact absurd rfl (hstdout k ret)
  | packet c packet =>
    rcases step_packet hs with ⟨cap, -, rfl⟩ | ⟨-, rfl⟩
    · exact leaves_of_pool n hpool (fun _ => rfl) hflag
    · exact leaves_of_pool n hpool (fun _ => rfl) hflag
  | _ =>
    cases hs
    exact leaves_of_pool n hpool (fun _ => rfl) hflag

/-- The end of a write pushes the job on the queue of its child. -/
theorem slots_written (peer : Peering) (h : s.Accounted n) {k : Fin n} {text : Line} {task : Token}
    (hopen : (s.slots n k).writing = some (text, task)) :
    ∃ s', s.step peer .written = some s' ∧ s'.slots n = Function.update (s.slots n) k ((s.slots n k).push text task) := by
  have hcall := call_of_writingTo hopen
  have hpool := Capacity.pool_pushCommand (find_slot h k) text task
  refine ⟨{ cap := s.cap.pushCommand k text task, call := .idle }, by simp only [step, hcall], ?_⟩
  have hkept : (s.cap.pushCommand k text task).inputComplete = s.cap.inputComplete ∧ (s.cap.pushCommand k text task).now = s.cap.now := by
    unfold Capacity.pushCommand
    split <;> exact ⟨rfl, rfl⟩
  funext j
  by_cases hj : j = k
  · subst hj
    have hlt := (List.getElem?_eq_some_iff.mp (find_slot h j)).1
    simp only [slots, slot, hpool, Function.update_self, List.getElem?_set_self hlt, hkept, Option.getD_some, Slot.push]
    rfl
  · have hne : (k : Nat) ≠ j := fun heq => hj (Fin.ext heq.symm)
    simp only [slots, slot, hpool, Function.update_of_ne hj, List.getElem?_set_ne hne, hkept, hcall, NextJob.writingTo, if_neg hne]

/-- A line of the output of a child that answers the front of its queue pops it. -/
theorem slots_stdout (peer : Peering) (h : s.Accounted n) {k : Fin n} {ret : Line} {job : Job} {child : Childproc}
    (hanswers : (s.slots n k).child.handleStdout (s.slots n k).now ret = some (job, child)) :
    ∃ s', s.step peer (.stdout k ret) = some s' ∧ s'.slots n = Function.update (s.slots n) k { s.slots n k with child := child } := by
  have hfind := find_slot h k
  have hanswers' : (s.slots n k).child.handleStdout s.cap.now ret = some (job, child) := hanswers
  refine ⟨{ s with cap := s.cap.handleStdout peer k ret }, rfl, ?_⟩
  have hkept : (s.cap.handleStdout peer k ret).pool.children = s.cap.pool.children.set k child ∧
      (s.cap.handleStdout peer k ret).inputComplete = s.cap.inputComplete ∧ (s.cap.handleStdout peer k ret).now = s.cap.now := by
    simp only [Capacity.handleStdout, hfind, hanswers']
    cases peer <;> exact ⟨rfl, rfl, rfl⟩
  funext j
  by_cases hj : j = k
  · subst hj
    have hlt := (List.getElem?_eq_some_iff.mp hfind).1
    simp only [slots, slot, hkept, Function.update_self, List.getElem?_set_self hlt, Option.getD_some]
  · have hne : (k : Nat) ≠ j := fun heq => hj (Fin.ext heq.symm)
    simp only [slots, slot, hkept, Function.update_of_ne hj, List.getElem?_set_ne hne]

/-- A line that answers nothing changes nothing. -/
theorem stdout_ignored (h : s.Accounted n) {k : Fin n} {ret : Line}
    (hanswers : (s.slots n k).child.handleStdout (s.slots n k).now ret = none) : s.step peer (.stdout k ret) = some s := by
  have hanswers' : (s.slots n k).child.handleStdout s.cap.now ret = none := hanswers
  simp only [step, Capacity.handleStdout, find_slot h k, hanswers']

/-- Where the children have nothing to do, nothing that belongs to them takes a job forward: no write is open and no line answers. -/
theorem stuck_of_idle (peer : Peering) (h : s.Accounted n)
    (hidle : ∀ k, (s.slots n k).writing = none ∧ (s.slots n k).child.texts = []) {e : Event} (hown : e.ofChildren = true)
    (hp : s.Productive e) : s.step peer e = none := by
  cases e with
  | written =>
    rw [Option.eq_none_iff_forall_ne_some]
    intro s' hs
    obtain ⟨text, task, k, hcall, -⟩ := step_written hs
    obtain ⟨target, htarget, -⟩ := h.room text task k hcall
    have hwriting := (hidle ⟨k, lt_of_find h htarget⟩).1
    simp only [slots, slot, hcall, NextJob.writingTo, if_true] at hwriting
    cases hwriting
  | stdout k ret =>
    obtain ⟨target, htarget, hsome⟩ := hp
    have hlt := lt_of_find h htarget
    have htexts := (hidle ⟨k, hlt⟩).2
    obtain rfl := Option.some.inj ((find_slot h ⟨k, hlt⟩).symm.trans htarget)
    obtain ⟨⟨front, rest⟩, hanswers⟩ := Option.isSome_iff_exists.mp hsome
    rw [Childproc.texts_handleStdout hanswers] at htexts
    cases htexts
  | resend => exact hp.elim
  | _ => cases hown

end Control

namespace ExecHelper

variable {n : Nat}

/-! ## The manager -/

theorem nonEmptyJobs_of_answerable (s : ExecHelper) (a : Action) (h : s.AnswerableJobs a) : s.NonEmptyJobs a := by
  cases a with
  | inbound c packet => exact fun hempty => (h [] hempty).1 rfl
  | line l => exact h.1
  | _ => trivial

theorem orderly_of_answerable {s : ExecHelper} (h : (system n).Reach AnswerableJobs s) : s.Orderly n :=
  orderly_of_reach (h.mono nonEmptyJobs_of_answerable)

/-- In runs whose jobs can be answered, the jobs in flight can. -/
theorem answerable_of_reach {s : ExecHelper} (h : (system n).Reach AnswerableJobs s) : ∀ job ∈ s.control.inFlight, Answerable job := by
  refine h.invariant₂ (J := Orderly n) (I := fun s => ∀ job ∈ s.control.inFlight, Answerable job)
    (fun _ hu => orderly_of_answerable hu) ?_ ?_
  · intro job hjob
    rw [Control.inFlight_eq_overspill (orderly_init n).control.books rfl rfl] at hjob
    exact absurd hjob (Multiset.notMem_zero job)
  · intro s a s' ho hi hok hs job hjob
    have hevent : ∀ {e : Event} {control : Control}, s.control.step .serverSide e = some control → (∀ job ∈ e.entering, Answerable job) →
        job ∈ control.inFlight → Answerable job :=
      fun hc hnew hin => (Control.mem_inFlight_step ho.control.books hc hin).elim (hi job) (hnew job)
    have hnone : ∀ job ∈ ([] : List Line), Answerable job := fun _ hmem => absurd hmem List.not_mem_nil
    cases steps_of_step hs with
    | consume _ hc => exact hevent hc hnone hjob
    | drained => exact hi job hjob
    | drainedLast _ _ _ hc => exact hevent hc hnone hjob
    | @line l _ _ hc => exact hevent hc (fun _ hmem => List.mem_singleton.mp hmem ▸ hok) hjob
    | eof => exact hi job hjob
    | allDone => exact hi job hjob
    | @inbound c packet _ _ hd => exact hevent (e := .packet c packet) (by simp only [Control.step, hd]) hok hjob
    | @thrown c => exact hevent (e := .overspillWork c) rfl hnone hjob
    | @closed c => exact hevent (e := .overspillWork c) rfl hnone hjob
    | expire _ hc => exact hevent hc hnone hjob
    | @internal e _ he hc => exact hevent hc (by cases e <;> first | exact hnone | cases he) hjob

/-- What the manager does without the children leaves them as they are, or begins to write a job to one of them. -/
theorem leaves_step {s s' : ExecHelper} {a : Action} (h' : s'.control.Accounted n) (hjobs : ∀ job ∈ s'.control.inFlight, Answerable job)
    (hown : a.ofChildren = false) (hs : s.step a = some s') : Slot.Leaves (s.control.slots n) (s'.control.slots n) := by
  rcases control_step hs with ⟨hsame, -⟩ | ⟨e, he, hinternal, -⟩
  · rw [hsame]
    exact Control.leaves_of_pool n rfl (fun _ => rfl) (Or.inl rfl)
  · refine Control.leaves_step h' (fun text htext => hjobs text (Multiset.mem_add.mpr (Or.inr htext))) he ?_ ?_
    · rintro rfl
      rw [hinternal rfl] at hown
      cases hown
    · rintro k ret rfl
      rw [hinternal rfl] at hown
      cases hown

/-- What happens at a child in the books happens to the manager. -/
theorem step_internal {s : ExecHelper} {e : Event} (he : e.internal = true) {control : Control}
    (hs : s.control.step .serverSide e = some control) : s.step (.internal e) = some { s with control := control } := by
  simp only [step, he, if_true, hs, Option.map_some]

/-- The manager as the owner of its children. -/
def owner (n : Nat) : Owner ExecHelper Action (Fin n) where
  system := system n
  ok := AnswerableJobs
  slot := fun s => s.control.slots n
  ofChildren := Action.ofChildren
  push := fun _ => .internal .written
  stdout := fun k ret => .internal (.stdout k ret)
  init := Control.slots_init n
  leaves := by
    intro s t a h hok hown hs
    have ht := h.step a hok hs
    exact leaves_step (orderly_of_answerable ht).control.books (answerable_of_reach ht) hown hs
  pushed := by
    intro s k text task h hopen
    obtain ⟨control, hs, hslots⟩ := Control.slots_written .serverSide (orderly_of_answerable h).control.books hopen
    exact ⟨trivial, _, step_internal rfl hs, hslots⟩
  matched := by
    intro s k ret job child h hanswers
    obtain ⟨control, hs, hslots⟩ := Control.slots_stdout .serverSide (orderly_of_answerable h).control.books hanswers
    exact ⟨trivial, _, step_internal rfl hs, hslots⟩
  ignored := fun h hanswers => step_internal rfl (Control.stdout_ignored (orderly_of_answerable h).control.books hanswers)

instance (n : Nat) (s : ExecHelper) (a : Action) : Decidable ((owner n).ok s a) := inferInstanceAs (Decidable (s.AnswerableJobs a))

/-- What is productive brings no job in. -/
theorem Productive.answerableJobs {s : ExecHelper} {a : Action} (h : s.Productive a) : s.AnswerableJobs a := by
  cases a with
  | line => exact h.elim
  | inbound c packet =>
    cases packet with
    | execute => exact h.elim
    | _ => exact nofun
  | _ => trivial

/-- It comes to its end if the children answer. -/
theorem advances (hn : 0 < n) : (owner n).Advances Productive (Orderly n) (remaining 1 0) Finished where
  lowers :=
    ⟨fun _ _ _ ho hp hs => ho.step hp.nonEmptyJobs hs, fun _ _ _ ho hp hs => remaining_lt Nat.one_pos 0 ho hp hs⟩
  ok := Productive.answerableJobs
  push := fun _ _ => trivial
  stdout := fun h hanswers => ⟨_, Control.find_slot h.control.books _, hanswers⟩
  waits := by
    intro s h hidle hnone
    refine h.finished_of_stuck hn ?_
    intro a hp
    cases hown : a.ofChildren with
    | false => exact hnone a hown hp
    | true =>
      cases a with
      | internal e => simp [system, step, Control.stuck_of_idle .serverSide h.control.books hidle hown hp]
      | _ => cases hown

end ExecHelper

namespace Workers

end Workers

end FostWright
