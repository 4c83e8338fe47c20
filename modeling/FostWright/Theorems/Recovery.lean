import FostWright.Recovery
import FostWright.Lemmas.Capacity
import FostWright.Lib.Matching

/-!
# Crash recovery of one child

Every answer that the manager still needs is on its way, or a resend is asked for: unless an `r` is pending, the queue of the child
is a subsequence of the lines in flight. The greedy matching of the library is what `handle_stdout` does with that stream, so a
stream without a further crash empties the queue. All of this is about jobs that can be answered: no line that is read is equal to a
job that is empty or has a newline or a NUL.
-/

namespace FostWright

open Lib

/-! ## The queue as the matching sees it -/

/-- A push on a child with room puts its text behind the others. -/
theorem Childproc.texts_pushBack {child : Childproc} (h : child.commands.full = false) (job : Job) :
    ({ commands := child.commands.pushBack job } : Childproc).texts = child.texts ++ [job.command] := by
  unfold texts
  rw [CircularBuffer.elems_pushBack_of_not_full h, List.map_append, List.map_singleton]

/-- The front that a line answers is the first of the texts. -/
theorem Childproc.texts_handleStdout {child child' : Childproc} {now : Nat} {ret : Line} {job : Job}
    (h : child.handleStdout now ret = some (job, child')) : child.texts = ret :: child'.texts := by
  obtain ⟨-, hret, he, he'⟩ := handleStdout_eq_some h
  unfold texts
  rw [he', map_modifyHead_time _ (fun _ _ => rfl), he, List.map_cons, hret, List.tail_cons]

/-- A line that is ignored is empty or not the text of the front. -/
theorem Childproc.handleStdout_eq_none {child : Childproc} {now : Nat} {ret : Line} (h : child.handleStdout now ret = none) :
    ret = [] ∨ child.texts.head? ≠ some ret := by
  unfold handleStdout CircularBuffer.front? at h
  unfold texts
  cases hc : child.commands.elems with
  | nil => exact Or.inr (by simp)
  | cons job rest =>
    rw [hc] at h
    by_cases hne : ret = []
    · exact Or.inl hne
    · refine Or.inr ?_
      intro hhead
      have hret : ret = job.command := (Option.some.inj hhead).symm
      simp only [List.head?_cons] at h
      rw [if_pos ⟨hne, hret⟩] at h
      cases h

/-- `handle_stdout` on a queue without empty jobs is one step of the greedy matching. -/
theorem Childproc.strike_texts {child : Childproc} (hne : [] ∉ child.texts) (now : Nat) (ret : Line) :
    strike child.texts ret = ((child.handleStdout now ret).map (fun p => p.2.texts)).getD child.texts := by
  cases h : child.handleStdout now ret with
  | some p =>
    obtain ⟨job, child'⟩ := p
    rw [texts_handleStdout h]
    simp [strike]
  | none =>
    refine if_neg ?_
    rcases handleStdout_eq_none h with rfl | hhead
    · intro hhead
      exact hne (List.mem_of_head? hhead)
    · exact hhead

/-- A line of the stream that is read before it is matched does to the queue what the line itself does, or less harm. -/
theorem sublist_strike_readLine {q s : List Line} {ret : Line} (hq : ∀ text ∈ q, Answerable text) (h : q.Sublist (ret :: s)) :
    (strike q (readLine ret)).Sublist s := by
  have hraw : (strike q ret).Sublist s := (sublist_cons_iff_strike q ret s).mp h
  by_cases hhead : q.head? = some ret
  · rwa [readLine_of_answerable (hq ret (List.mem_of_head? hhead))]
  · rw [strike, if_neg hhead] at hraw
    unfold strike
    split
    · exact (List.tail_sublist q).trans hraw
    · exact hraw

/-- What a resend writes is the queue. -/
theorem Childproc.resend_eq_texts (child : Childproc) (inputComplete : Bool) : child.resend inputComplete = child.texts := by
  unfold resend
  split
  · rename_i h
    unfold texts
    rw [h.2, List.map_nil]
  · rfl

namespace Recovery

/-! ## The invariant -/

/-- What holds of a child: its queue is on its way back or will be sent again; its jobs are done in the order in which they were
dispatched; and each of them can be answered. -/
structure Recoverable (s : Recovery) : Prop where
  covered : 0 < s.requests ∨ s.child.texts.Sublist s.inFlight
  order : s.done ++ s.child.texts = s.dispatched
  answerable : ∀ text ∈ s.dispatched, Answerable text

theorem recoverable_init : init.Recoverable :=
  ⟨Or.inr (List.Sublist.refl []), rfl, fun _ hmem => absurd hmem List.not_mem_nil⟩

/-- A job that is queued was dispatched. -/
theorem Recoverable.answerable_texts {s : Recovery} (h : s.Recoverable) : ∀ text ∈ s.child.texts, Answerable text := by
  intro text hmem
  refine h.answerable text ?_
  rw [← h.order]
  exact List.mem_append_right _ hmem

theorem Recoverable.nonempty_texts {s : Recovery} (h : s.Recoverable) : [] ∉ s.child.texts :=
  fun hmem => (h.answerable_texts [] hmem).1 rfl

/-- The line that the manager reads is taken off the stream and off the queue, or off the stream only. -/
theorem Recoverable.handleStdout {s : Recovery} (h : s.Recoverable) (now : Nat) {ret : Line} {rest : List Line}
    (hout : s.stdout = ret :: rest) :
    (∀ job child, s.child.handleStdout now (readLine ret) = some (job, child) →
      ({ s with stdout := rest, child := child, done := s.done ++ [readLine ret] } : Recovery).Recoverable) ∧
    (s.child.handleStdout now (readLine ret) = none → ({ s with stdout := rest } : Recovery).Recoverable) := by
  have hstrike := Childproc.strike_texts h.nonempty_texts now (readLine ret)
  have hcovered : 0 < s.requests ∨ (strike s.child.texts (readLine ret)).Sublist (rest ++ s.worker ++ s.stdin) := by
    refine h.covered.imp_right (fun hsub => ?_)
    unfold inFlight at hsub
    rw [hout] at hsub
    exact sublist_strike_readLine h.answerable_texts hsub
  constructor
  · intro job child hc
    rw [hc, Option.map_some, Option.getD_some] at hstrike
    rw [hstrike] at hcovered
    refine ⟨hcovered, ?_, h.answerable⟩
    have horder := h.order
    rw [Childproc.texts_handleStdout hc] at horder
    rw [← horder, List.append_assoc, List.singleton_append]
  · intro hc
    rw [hc, Option.map_none, Option.getD_none] at hstrike
    rw [hstrike] at hcovered
    exact ⟨hcovered, h.order, h.answerable⟩

/-- One action keeps the invariant, when the jobs dispatched can be answered. -/
theorem Recoverable.step {s s' : Recovery} {a : Action} (h : s.Recoverable) (hok : s.AnswerableJobs a)
    (hs : s.step a = some s') : s'.Recoverable := by
  cases steps_of_step hs with
  | @dispatch job hroom =>
    have htexts := Childproc.texts_pushBack hroom job
    refine ⟨?_, ?_, ?_⟩
    · refine h.covered.imp_right ?_
      intro hsub
      rw [htexts]
      unfold inFlight at hsub ⊢
      rw [linesIn_of_answerable hok, ← List.append_assoc]
      exact hsub.append (List.Sublist.refl _)
    · rw [htexts, ← List.append_assoc, h.order]
    · intro text hmem
      rw [List.mem_append, List.mem_singleton] at hmem
      rcases hmem with hmem | rfl
      · exact h.answerable text hmem
      · exact hok
  | @read line rest hpiped =>
    refine ⟨?_, h.order, h.answerable⟩
    have hsame : ({ s with stdin := rest, worker := s.worker ++ [line] } : Recovery).inFlight = s.inFlight := by
      unfold inFlight
      simp only [hpiped, List.append_assoc, List.singleton_append]
    rw [hsame]
    exact h.covered
  | @answer line rest hheld =>
    refine ⟨?_, h.order, h.answerable⟩
    have hsame : ({ s with worker := rest, stdout := s.stdout ++ [line] } : Recovery).inFlight = s.inFlight := by
      unfold inFlight
      simp only [hheld, List.append_assoc, List.cons_append, List.nil_append]
    rw [hsame]
    exact h.covered
  | print =>
    refine ⟨h.covered.imp_right ?_, h.order, h.answerable⟩
    intro hsub
    refine hsub.trans ?_
    unfold inFlight
    simp only [List.append_assoc]
    exact (List.Sublist.refl _).append (List.sublist_append_right _ _)
  | crash => exact ⟨Or.inl (Nat.succ_pos _), h.order, h.answerable⟩
  | @matched now _ _ job child hwritten hanswers => exact (h.handleStdout now hwritten).1 job child hanswers
  | @ignored now _ _ hwritten hanswers => exact (h.handleStdout now hwritten).2 hanswers
  | handleRequest =>
    refine ⟨Or.inr ?_, h.order, h.answerable⟩
    unfold inFlight
    simp only [Childproc.resend_eq_texts, flatMap_linesIn h.answerable_texts]
    rw [← List.append_assoc]
    exact List.sublist_append_right _ _
  | inputComplete => exact ⟨h.covered, h.order, h.answerable⟩

/-- Every state reached with jobs that can be answered is recoverable. -/
theorem recoverable_of_reach {s : Recovery} (h : system.Reach AnswerableJobs s) : s.Recoverable :=
  h.invariant recoverable_init (fun _ _ _ hi hok hs => hi.step hok hs)

/-! ## Consuming what is in flight -/

/-- How many reads, answers and matches are left. -/
def remaining (s : Recovery) : Nat := 3 * s.stdin.length + 2 * s.worker.length + s.stdout.length

/-- While something is in flight, something can consume it. -/
theorem consumes_of_inFlight {s : Recovery} (h : s.inFlight ≠ []) :
    ∃ a s', s.Consumes a ∧ s.step a = some s' ∧ s'.remaining < s.remaining := by
  cases hin : s.stdin with
  | cons line rest =>
    refine ⟨.read, { s with stdin := rest, worker := s.worker ++ [line] }, trivial, by simp only [step, hin], ?_⟩
    simp only [remaining, hin, List.length_cons, List.length_append, List.length_nil]
    omega
  | nil =>
    cases hworker : s.worker with
    | cons line rest =>
      refine ⟨.answer, { s with worker := rest, stdout := s.stdout ++ [line] }, trivial, by simp only [step, hworker], ?_⟩
      simp only [remaining, hworker, List.length_cons, List.length_append, List.length_nil]
      omega
    | nil =>
      cases hout : s.stdout with
      | cons ret rest =>
        cases hc : s.child.handleStdout 0 (readLine ret) with
        | some p =>
          obtain ⟨job, child⟩ := p
          refine ⟨.handleStdout 0, { s with stdout := rest, child := child, done := s.done ++ [readLine ret] }, trivial,
            by simp only [step, hout, hc], ?_⟩
          simp only [remaining, hout, List.length_cons]
          omega
        | none =>
          refine ⟨.handleStdout 0, { s with stdout := rest }, trivial, by simp only [step, hout, hc], ?_⟩
          simp only [remaining, hout, List.length_cons]
          omega
      | nil =>
        refine absurd ?_ h
        simp only [inFlight, hin, hworker, hout, List.append_nil]

/-- Everything in flight can be consumed. -/
theorem exists_drained (s : Recovery) : ∃ t, system.ReachFrom Consumes s t ∧ t.inFlight = [] := by
  induction hn : s.remaining using Nat.strong_induction_on generalizing s with
  | _ n ih =>
    by_cases h : s.inFlight = []
    · exact ⟨s, System.ReachFrom.refl, h⟩
    · obtain ⟨a, s', hconsumes, hs, hlt⟩ := consumes_of_inFlight h
      obtain ⟨t, ht, hempty⟩ := ih s'.remaining (hn ▸ hlt) s' rfl
      exact ⟨t, (System.ReachFrom.single a hconsumes hs).trans ht, hempty⟩

/-- Consuming dispatches no job. -/
theorem answerableJobs_of_consumes {s : Recovery} {a : Action} (h : s.Consumes a) : s.AnswerableJobs a := by
  cases a with
  | dispatch job => exact h.elim
  | _ => trivial

/-- Consuming makes no `r`. -/
theorem requests_of_consumes {s t : Recovery} (h : system.ReachFrom Consumes s t) : t.requests = s.requests := by
  refine h.invariant (I := fun t => t.requests = s.requests) rfl ?_
  intro u a u' hu hok hs
  cases steps_of_step hs with
  | crash => exact hok.elim
  | handleRequest => exact hok.elim
  | _ => exact hu

/-- When nothing is in flight and no `r` is pending, the queue is empty. -/
theorem Recoverable.texts_eq_nil {s : Recovery} (h : s.Recoverable) (hreq : s.requests = 0) (hempty : s.inFlight = []) :
    s.child.texts = [] := by
  rcases h.covered with hpos | hsub
  · omega
  · rw [hempty] at hsub
    exact List.sublist_nil.mp hsub

/-! ## Recovery -/

/-- In every run whose jobs can be answered, whatever crashes: an `r` is pending or the queue is a subsequence of the lines in
flight; in the second case these can be consumed, and whoever consumes them empties the queue; and the jobs done are the jobs
dispatched, in order, without those still queued. -/
theorem recovers (s : Recovery) (h : system.Reach AnswerableJobs s) :
    (0 < s.requests ∨ s.child.texts.Sublist (s.stdout ++ s.worker ++ s.stdin)) ∧
      (s.requests = 0 → (∃ t, system.ReachFrom Consumes s t ∧ t.inFlight = []) ∧
        ∀ t, system.ReachFrom Consumes s t → t.inFlight = [] → t.child.texts = []) ∧
      s.done ++ s.child.texts = s.dispatched := by
  have hrec := recoverable_of_reach h
  refine ⟨hrec.covered, ?_, hrec.order⟩
  intro hreq
  refine ⟨exists_drained s, ?_⟩
  intro t ht hempty
  have hreach : system.Reach AnswerableJobs t := h.trans (ht.mono (fun _ _ hc => answerableJobs_of_consumes hc))
  exact (recoverable_of_reach hreach).texts_eq_nil ((requests_of_consumes ht).trans hreq) hempty

/-- Two equal jobs, a crash between them and a resend while the first answer is not read yet. -/
theorem recovers_run :
    ∃ s : Recovery, s.requests = 0 ∧ s.child.texts = [[97], [97]] ∧
      s.child.texts.Sublist (s.stdout ++ s.worker ++ s.stdin) := by
  obtain ⟨s, hs, hp⟩ := System.reach_of_restrict_run (S := system) AnswerableJobs
    [.dispatch ⟨[97], 0, 0⟩, .read, .dispatch ⟨[97], 1, 0⟩, .answer, .read, .crash, .handleRequest]
    (fun s => s.requests == 0 && s.child.texts == [[97], [97]]) (by decide)
  simp only [Bool.and_eq_true, beq_iff_eq] at hp
  refine ⟨s, hp.1, hp.2, (recovers s hs).1.resolve_left ?_⟩
  omega

/-- An empty job is dispatched, answered and the answer read, and it is still queued. -/
theorem empty_job_not_recovered :
    ¬ ∀ s, system.Reachable s →
      (0 < s.requests ∨ s.child.texts.Sublist (s.stdout ++ s.worker ++ s.stdin)) ∧
        s.done ++ s.child.texts = s.dispatched := by
  intro h
  obtain ⟨s, hs, hp⟩ := System.reachable_of_run (S := system)
    [.dispatch ⟨[], 0, 0⟩, .read, .answer, .handleStdout 0]
    (fun s => s.requests == 0 && s.child.texts == [[]] && s.inFlight == []) (by decide)
  simp only [Bool.and_eq_true, beq_iff_eq] at hp
  obtain ⟨⟨hreq, htexts⟩, hempty⟩ := hp
  rcases (h s hs).1 with hpos | hsub
  · omega
  · change s.child.texts.Sublist s.inFlight at hsub
    rw [htexts, hempty] at hsub
    cases hsub

/-- An empty job at the front of the queue stays there for ever. -/
theorem empty_front_stays {s t : Recovery} (h : system.ReachFrom System.anyStep s t)
    (hfront : s.child.texts.head? = some []) : t.child.texts.head? = some [] := by
  refine h.invariant (I := fun t => t.child.texts.head? = some []) hfront ?_
  intro s a s' hi _ hs
  cases steps_of_step hs with
  | @dispatch job hroom =>
    rw [Childproc.texts_pushBack hroom, List.head?_append, hi]
    rfl
  | matched _ hanswers =>
    rw [Childproc.texts_handleStdout hanswers, List.head?_cons, Option.some.injEq] at hi
    exact absurd hi (Childproc.handleStdout_eq_some hanswers).1
  | _ => exact hi

end Recovery

end FostWright
