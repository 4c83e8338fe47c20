import FostWright.Echo
import FostWright.Theorems.Recovery

/-!
# A crashing simulator loses no job

What a worker that runs `echo` has taken from its pipe and not answered is lost when it crashes, as it is with any other worker: every run
of the simulator under its supervisor is one of `Recovery`, where a killed supervisor counts as a resend of nothing. So the jobs come back in
order, and all of them when the simulator no longer crashes.
-/

namespace FostWright

open Lib

namespace Simulated

/-- The lines that a worker has taken from the pipe and not answered. -/
def held (s : Simulated) : List Line :=
  s.worker.elim [] (fun e => (match e.phase with | .working command => [command] | _ => []) ++ e.buffer)

/-- The child as `Recovery` has it. -/
def recovery (s : Simulated) : Recovery where
  child := s.child
  inputComplete := s.inputComplete
  stdin := s.stdin
  worker := s.held
  stdout := s.stdout
  requests := s.requests
  dispatched := s.dispatched
  done := s.done

/-- All work of the child is done. -/
def AllDone (s : Simulated) : Prop := s.inputComplete = true ∧ s.child.commands.elems = []

/-- No line is empty; a supervisor that is gone has no work, and neither has a closed pipe; a worker that is gone has no supervisor; and a
stream comes to its end when there is no more to read. -/
structure Sane (s : Simulated) : Prop where
  piped : [] ∉ s.stdin
  taken : [] ∉ s.held
  supervisor : s.supervisor ≠ .running → s.AllDone
  closed : s.closed = true → s.AllDone
  worker : s.worker = none → s.supervisor ≠ .running
  ended : ∀ buffer, s.worker = some { buffer := buffer, phase := .checking false } → buffer = [] ∧ s.closed = true

theorem sane_init (canDie : Bool) : (system canDie).init.Sane :=
  ⟨List.not_mem_nil, List.not_mem_nil, fun h => absurd rfl h, nofun, nofun, fun _ h => by cases h⟩

/-! ## What becomes of a worker -/

/-- A worker that exits with another code than zero is followed by the next one and an `r`, while there is a supervisor. -/
theorem exits_of_ne {s : Simulated} {code : Fin 256} (hcode : wexitstatus (Termination.exited code).status ≠ 0) :
    s.exits code =
      if s.supervisor = .running then { s with worker := some Echo.start, requests := s.requests + 1 } else { s with worker := none } := by
  unfold exits
  rcases s with ⟨_, _, _, _, _, supervisor, _, _, _, _⟩
  rcases supervisor with _ | _ | _
  · exact if_neg hcode
  · rfl
  · rfl

/-- A worker that exits with code zero is the last one. -/
theorem exits_zero (s : Simulated) :
    s.exits exitSuccess = { s with worker := none, supervisor := if s.supervisor = .running then .returned else s.supervisor } := by
  rcases s with ⟨_, _, _, _, _, supervisor, _, _, _, _⟩
  rcases supervisor with _ | _ | _ <;> rfl

/-- A crash is one of `Recovery`; without a supervisor the `r` that there is not would bring nothing back. -/
theorem Sane.crashes {s : Simulated} (h : s.Sane) {code : Fin 256} (hcode : wexitstatus (Termination.exited code).status ≠ 0) :
    Recovery.system.ReachFrom Recovery.AnswerableJobs s.recovery (s.exits code).recovery := by
  have hcrash : Recovery.system.ReachFrom Recovery.AnswerableJobs s.recovery { s.recovery with worker := [], requests := s.requests + 1 } :=
    .single .crash trivial rfl
  rw [exits_of_ne hcode]
  by_cases hrunning : s.supervisor = .running
  · rw [if_pos hrunning]
    exact hcrash
  · rw [if_neg hrunning]
    obtain ⟨hcomplete, hempty⟩ := h.supervisor hrunning
    have hnothing : s.child.resend s.inputComplete = [] := if_pos ⟨hcomplete, hempty⟩
    refine hcrash.step .handleRequest trivial ?_
    change some ({ s.recovery with worker := [], stdin := s.stdin ++ (s.child.resend s.inputComplete).flatMap linesIn } : Recovery) = _
    rw [hnothing, List.flatMap_nil, List.append_nil]
    rfl

/-- The stream of the worker takes one line after the other. -/
theorem reads (r : Recovery) (lines rest : List Line) (h : r.stdin = lines ++ rest) :
    Recovery.system.ReachFrom Recovery.AnswerableJobs r { r with stdin := rest, worker := r.worker ++ lines } := by
  induction lines generalizing r with
  | nil =>
    rw [List.nil_append] at h
    rw [List.append_nil, ← h]
    exact .refl
  | cons line lines ih =>
    have hread : r.step .read = some { r with stdin := lines ++ rest, worker := r.worker ++ [line] } := by
      simp only [Recovery.step, h, List.cons_append]
    have hrest := ih { r with stdin := lines ++ rest, worker := r.worker ++ [line] } rfl
    rw [List.append_cons]
    exact (System.ReachFrom.single .read trivial hread).trans hrest

/-- One action of the simulator is some actions of `Recovery`. -/
theorem Sane.refines {canDie : Bool} {s s' : Simulated} {a : Action} (h : s.Sane) (hok : s.AnswerableJobs a) (hs : s.step canDie a = some s') :
    Recovery.system.ReachFrom Recovery.AnswerableJobs s.recovery s'.recovery := by
  have hsame : s.recovery = s'.recovery → Recovery.system.ReachFrom Recovery.AnswerableJobs s.recovery s'.recovery := by
    intro heq
    rw [← heq]
    exact .refl
  have hheld := h.taken
  cases steps_of_step hs with
  | @dispatch job hroom =>
    refine .single (.dispatch job) hok ?_
    simp only [Recovery.system, Recovery.step, recovery, hroom, Bool.false_eq_true, if_false]
    rfl
  | @fill k hworker hpos hle =>
    have hreads := reads s.recovery (s.stdin.take k) (s.stdin.drop k) (List.take_append_drop k s.stdin).symm
    simpa only [recovery, held, hworker, Option.elim_some, List.nil_append] using hreads
  | @getline line rest hworker =>
    refine hsame ?_
    have hne : line ≠ [] := by
      rintro rfl
      simp [held, hworker] at hheld
    simp only [recovery, held, hworker, Option.elim_some, if_neg hne]
    rfl
  | endOfFile hworker =>
    refine hsame ?_
    simp only [recovery, held, hworker, Option.elim_some]
  | crash => exact h.crashes (by decide)
  | @answer high buffer command hworker =>
    refine .single .answer trivial ?_
    simp only [Recovery.system, Recovery.step, recovery, held, hworker, Option.elim_some, List.cons_append, List.nil_append]
  | crashAfter =>
    have hprint : Recovery.system.ReachFrom Recovery.AnswerableJobs s.recovery
        ({ s with stdout := s.stdout ++ [crashedLine] } : Simulated).recovery := .single (.print crashedLine) trivial rfl
    have hsane : ({ s with stdout := s.stdout ++ [crashedLine] } : Simulated).Sane :=
      ⟨h.piped, h.taken, h.supervisor, h.closed, h.worker, h.ended⟩
    exact hprint.trans (hsane.crashes (by decide))
  | turn hworker =>
    refine hsame ?_
    simp only [recovery, held, hworker, Option.elim_some]
  | @finished high buffer hworker =>
    refine hsame ?_
    have hbuffer := (h.ended buffer hworker).1
    simp only [exits_zero, recovery, held, hworker, hbuffer, Option.elim_some, Option.elim_none, List.append_nil]
  | @matched now _ _ _ _ hwritten hanswers =>
    refine .single (.handleStdout now) trivial ?_
    simp only [Recovery.system, Recovery.step, recovery, hwritten, hanswers]
    rfl
  | @ignored now _ _ hwritten hanswers =>
    refine .single (.handleStdout now) trivial ?_
    simp only [Recovery.system, Recovery.step, recovery, hwritten, hanswers]
    rfl
  | handleRequest hrequested =>
    refine .single .handleRequest trivial ?_
    simp only [Recovery.system, Recovery.step, recovery, hrequested]
    rfl
  | inputComplete => exact .single .inputComplete trivial rfl
  | close => exact hsame rfl

/-! ## The invariant -/

@[simp]
theorem exits_child (s : Simulated) (code : Fin 256) : (s.exits code).child = s.child := by
  unfold exits
  split
  · split <;> rfl
  · rfl

@[simp]
theorem exits_inputComplete (s : Simulated) (code : Fin 256) : (s.exits code).inputComplete = s.inputComplete := by
  unfold exits
  split
  · split <;> rfl
  · rfl

/-- Once all work is done it stays done. -/
theorem AllDone.step {canDie : Bool} {s s' : Simulated} {a : Action} (h : s.AllDone) (hs : s.step canDie a = some s') : s'.AllDone := by
  obtain ⟨hcomplete, hempty⟩ := h
  cases steps_of_step hs with
  | dispatch hroom hearly =>
    rw [hcomplete] at hearly
    cases hearly
  | crash => exact ⟨by simpa using hcomplete, by simpa using hempty⟩
  | crashAfter => exact ⟨by simpa using hcomplete, by simpa using hempty⟩
  | finished => exact ⟨by simpa using hcomplete, by simpa using hempty⟩
  | matched hwritten hanswers =>
    obtain ⟨-, -, hfront, -⟩ := Childproc.handleStdout_eq_some hanswers
    rw [hempty] at hfront
    cases hfront
  | inputComplete => exact ⟨rfl, hempty⟩
  | _ => exact ⟨hcomplete, hempty⟩

/-- A worker that ends; its supervisor returns when all work is done only. -/
theorem Sane.exits {s : Simulated} (h : s.Sane) {code : Fin 256} (hzero : wexitstatus (Termination.exited code).status = 0 → s.AllDone) :
    (s.exits code).Sane := by
  by_cases hrunning : s.supervisor = .running
  · by_cases hcode : wexitstatus (Termination.exited code).status = 0
    · have heq : s.exits code = { s with worker := none, supervisor := .returned } := by
        simp only [Simulated.exits, hrunning, hcode, if_true]
      rw [heq]
      exact ⟨h.piped, List.not_mem_nil, fun _ => hzero hcode, h.closed, fun _ heq => (by cases heq), fun _ heq => by cases heq⟩
    · rw [exits_of_ne hcode, if_pos hrunning]
      exact ⟨h.piped, List.not_mem_nil, h.supervisor, h.closed, fun heq => absurd heq (Option.some_ne_none _), fun _ heq => by cases heq⟩
  · have heq : s.exits code = { s with worker := none } := by
      unfold Simulated.exits
      split
      · contradiction
      · rfl
    rw [heq]
    exact ⟨h.piped, List.not_mem_nil, h.supervisor, h.closed, fun _ => hrunning, fun _ heq => by cases heq⟩

/-- One action keeps the invariant, where the jobs of the queue can be answered. -/
theorem Sane.step {canDie : Bool} {s s' : Simulated} {a : Action} (h : s.Sane) (hqueue : ∀ text ∈ s.child.texts, Answerable text)
    (hok : s.AnswerableJobs a) (hs : s.step canDie a = some s') : s'.Sane := by
  have hdone : s.AllDone → s'.AllDone := fun hall => hall.step hs
  have hheld := h.taken
  cases steps_of_step hs with
  | @dispatch job hroom hearly =>
    refine ⟨?_, h.taken, fun hgone => hdone (h.supervisor hgone), fun hclosed => hdone (h.closed hclosed), h.worker, h.ended⟩
    rw [linesIn_of_answerable hok, List.mem_append, List.mem_singleton]
    rintro (hmem | hmem)
    · exact h.piped hmem
    · exact hok.1 hmem.symm
  | @fill k hworker hpos hle =>
    refine ⟨fun hmem => h.piped (List.mem_of_mem_drop hmem), ?_, h.supervisor, h.closed, fun heq => absurd heq (Option.some_ne_none _),
      fun _ heq => by cases heq⟩
    exact fun hmem => h.piped (List.mem_of_mem_take hmem)
  | @getline line rest hworker =>
    have hlines : [] ∉ line :: rest := by simpa only [held, hworker, Option.elim_some, List.nil_append] using hheld
    have hline : line ≠ [] := fun heq => hlines (heq ▸ List.mem_cons_self)
    rw [if_neg hline]
    exact ⟨h.piped, hlines, h.supervisor, h.closed, fun heq => absurd heq (Option.some_ne_none _), fun _ heq => by cases heq⟩
  | endOfFile hworker hempty hclosed =>
    refine ⟨h.piped, List.not_mem_nil, h.supervisor, h.closed, fun heq => absurd heq (Option.some_ne_none _), ?_⟩
    rintro buffer ⟨⟩
    exact ⟨rfl, hclosed⟩
  | crash => exact h.exits (fun hzero => absurd hzero (by decide))
  | @answer high buffer command hworker =>
    refine ⟨h.piped, ?_, h.supervisor, h.closed, fun heq => absurd heq (Option.some_ne_none _), fun _ heq => by cases heq⟩
    simp only [held, hworker, Option.elim_some, List.cons_append, List.nil_append] at hheld
    exact fun hmem => hheld (List.mem_cons_of_mem _ hmem)
  | crashAfter =>
    have hsane : ({ s with stdout := s.stdout ++ [crashedLine] } : Simulated).Sane :=
      ⟨h.piped, h.taken, h.supervisor, h.closed, h.worker, h.ended⟩
    exact hsane.exits (fun hzero => absurd hzero (by decide))
  | @turn high buffer hworker =>
    refine ⟨h.piped, ?_, h.supervisor, h.closed, fun heq => absurd heq (Option.some_ne_none _), fun _ heq => by cases heq⟩
    simpa only [held, hworker, Option.elim_some] using hheld
  | @finished high buffer hworker => exact h.exits (fun _ => h.closed (h.ended buffer hworker).2)
  | matched =>
    exact ⟨h.piped, h.taken, fun hgone => hdone (h.supervisor hgone), fun hclosed => hdone (h.closed hclosed), h.worker, h.ended⟩
  | ignored => exact ⟨h.piped, h.taken, h.supervisor, h.closed, h.worker, h.ended⟩
  | handleRequest =>
    refine ⟨?_, h.taken, ?_, h.closed, ?_, h.ended⟩
    · rw [Childproc.resend_eq_texts, flatMap_linesIn hqueue, List.mem_append]
      rintro (hmem | hmem)
      · exact h.piped hmem
      · exact (hqueue [] hmem).1 rfl
    · by_cases hkill : s.inputComplete = true ∧ s.child.commands.elems = [] ∧ s.supervisor = .running
      · exact fun _ => ⟨hkill.1, hkill.2.1⟩
      · simp only [if_neg hkill]
        exact h.supervisor
    · intro hnone
      have hgone := h.worker hnone
      simp only [if_neg (fun hkill : s.inputComplete = true ∧ s.child.commands.elems = [] ∧ s.supervisor = .running => hgone hkill.2.2)]
      exact hgone
  | inputComplete =>
    exact ⟨h.piped, h.taken, fun hgone => hdone (h.supervisor hgone), fun hclosed => hdone (h.closed hclosed), h.worker, h.ended⟩
  | close hcomplete hempty => exact ⟨h.piped, h.taken, h.supervisor, fun _ => ⟨hcomplete, hempty⟩, h.worker,
      fun buffer hworker => ⟨(h.ended buffer hworker).1, rfl⟩⟩

/-- Every run of the simulator is a run of the child in `Recovery`, and sane. -/
theorem sane_of_reach {canDie : Bool} {s : Simulated} (h : (system canDie).Reach AnswerableJobs s) :
    Recovery.system.Reach Recovery.AnswerableJobs s.recovery ∧ s.Sane := by
  refine h.invariant (I := fun s => Recovery.system.Reach Recovery.AnswerableJobs s.recovery ∧ s.Sane) ⟨.refl, sane_init canDie⟩ ?_
  intro s a s' hi hok hs
  obtain ⟨hreach, hsane⟩ := hi
  have hqueue : ∀ text ∈ s.child.texts, Answerable text := (Recovery.recoverable_of_reach hreach).answerable_texts
  exact ⟨hreach.trans (hsane.refines hok hs), hsane.step hqueue hok hs⟩

/-! ## Progress -/

/-- A resend of jobs that can be answered has no more lines than the queue can have jobs. -/
theorem resend_length_le {child : Childproc} (hqueue : ∀ text ∈ child.texts, Answerable text) (inputComplete : Bool) :
    ((child.resend inputComplete).flatMap linesIn).length ≤ bufferSize := by
  rw [Childproc.resend_eq_texts, flatMap_linesIn hqueue, Childproc.texts, List.length_map]
  exact child.commands.bounded

/-- A productive action takes a line nearer to `handle_stdout`. -/
theorem remaining_lt {canDie : Bool} {s s' : Simulated} {a : Action} (hqueue : ∀ text ∈ s.child.texts, Answerable text)
    (hok : s.Productive a) (hs : s.step canDie a = some s') : s'.remaining < s.remaining := by
  cases steps_of_step hs with
  | dispatch => exact hok.elim
  | @fill k hworker hpos hle =>
    simp only [remaining, hworker, Option.elim_some, List.length_drop, List.length_take, List.length_nil, Nat.min_eq_left hle]
    omega
  | @getline line rest hworker =>
    simp only [remaining, hworker, Option.elim_some, List.length_cons]
    by_cases hline : line = []
    · simp only [if_pos hline, EchoPhase.remaining, if_true]
      omega
    · simp only [if_neg hline, EchoPhase.remaining]
      omega
  | endOfFile hworker =>
    simp only [remaining, hworker, Option.elim_some, EchoPhase.remaining, Bool.false_eq_true, if_false]
    omega
  | crash hworker hdies =>
    rw [show _ = false from hok, Bool.false_and] at hdies
    cases hdies
  | answer hworker =>
    simp only [remaining, hworker, Option.elim_some, EchoPhase.remaining, if_true, List.length_append, List.length_singleton]
    omega
  | crashAfter hworker hdies =>
    rw [show _ = false from hok, Bool.false_and] at hdies
    cases hdies
  | turn hworker =>
    simp only [remaining, hworker, Option.elim_some, EchoPhase.remaining, if_true]
    omega
  | finished hworker =>
    simp only [remaining, exits_zero, hworker, Option.elim_some, Option.elim_none, EchoPhase.remaining, Bool.false_eq_true, if_false]
    omega
  | matched hwritten =>
    simp only [remaining, hwritten, List.length_cons]
    omega
  | ignored hwritten =>
    simp only [remaining, hwritten, List.length_cons]
    omega
  | handleRequest hrequested =>
    have hle := resend_length_le hqueue s.inputComplete
    simp only [remaining, hrequested, List.length_append, Nat.mul_add, Nat.mul_one]
    omega
  | inputComplete => exact hok.elim
  | close => exact hok.elim

/-- When nothing productive can happen, no `r` is pending and nothing is in stdout; and the worker is gone, or waits at an empty pipe that is
open. -/
theorem of_stuck {canDie : Bool} {s : Simulated} (hstuck : (system canDie).Stuck Productive s) :
    s.requests = 0 ∧ s.stdout = [] ∧
      (s.worker = none ∨ s.worker = some { buffer := [], phase := .reading } ∧ s.stdin = [] ∧ s.closed = false) := by
  refine ⟨?_, ?_, ?_⟩
  · have hnone : s.step canDie .handleRequest = none := hstuck .handleRequest trivial
    simp only [Simulated.step] at hnone
    split at hnone
    · cases hnone
    · assumption
  · have hnone : s.step canDie (.handleStdout 0) = none := hstuck (.handleStdout 0) trivial
    simp only [Simulated.step] at hnone
    split at hnone
    · split at hnone <;> cases hnone
    · assumption
  · rcases hworker : s.worker with _ | ⟨buffer, phase⟩
    · exact Or.inl rfl
    · rcases phase with _ | command | good
      · have hget : s.step canDie .getline = none := hstuck .getline trivial
        rcases buffer with _ | ⟨line, rest⟩
        · have hfill : s.step canDie (.fill s.stdin.length) = none := hstuck (.fill s.stdin.length) trivial
          simp only [Simulated.step, hworker, le_refl, and_true, ite_eq_right_iff, reduceCtorEq, imp_false, not_lt, Nat.le_zero] at hfill
          have hstdin : s.stdin = [] := List.length_eq_zero_iff.mp hfill
          simp only [Simulated.step, hworker, hstdin, true_and, ite_eq_right_iff, reduceCtorEq, imp_false, Bool.not_eq_true] at hget
          exact Or.inr ⟨rfl, hstdin, hget⟩
        · simp only [Simulated.step, hworker] at hget
          cases hget
      · have hnone : s.step canDie (.work false) = none := hstuck (.work false) rfl
        simp only [Simulated.step, hworker, Bool.false_and, Bool.false_eq_true, if_false] at hnone
        cases hnone
      · have hnone : s.step canDie (.check false) = none := hstuck (.check false) rfl
        simp only [Simulated.step, hworker, Bool.false_and, Bool.false_eq_true, if_false] at hnone
        split at hnone <;> cases hnone

end Simulated

end FostWright
