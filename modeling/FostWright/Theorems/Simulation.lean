import FostWright.Simulation
import FostWright.Theorems.Echo
import Mathlib.Algebra.Order.BigOperators.Group.Finset

/-!
# A pool of simulators shuts down

Each child of the pool is on a run of its own, whatever the others do. A supervisor ends when all work is done only, so `sigchild_reactor`
ends the manager over none of them; and once its pipe is closed a worker, or the one after its last crash, comes to the end of the pipe, so
that `waitpid` returns if nothing else makes it return before. Where something else does, another supervisor has ended.
-/

namespace FostWright

open Lib

namespace Simulated

/-! ## What the actions of a child keep -/

@[simp]
theorem exits_closed (s : Simulated) (code : Fin 256) : (s.exits code).closed = s.closed := by
  unfold exits
  split
  · split <;> rfl
  · rfl

/-- The manager sets `input_complete`, not the child. -/
theorem inputComplete_step {canDie : Bool} {s s' : Simulated} {a : Action} (hown : a.ofChild = true) (hs : s.step canDie a = some s') :
    s'.inputComplete = s.inputComplete := by
  cases steps_of_step hs with
  | crash => exact exits_inputComplete s _
  | crashAfter => exact exits_inputComplete _ _
  | finished => exact exits_inputComplete s _
  | inputComplete => cases hown
  | _ => rfl

/-- A pipe that is closed stays closed. -/
theorem closed_step {canDie : Bool} {s s' : Simulated} {a : Action} (hclosed : s.closed = true) (hs : s.step canDie a = some s') :
    s'.closed = true := by
  cases steps_of_step hs with
  | crash => rw [exits_closed, hclosed]
  | crashAfter => rw [exits_closed, hclosed]
  | finished => rw [exits_closed, hclosed]
  | close => rfl
  | _ => exact hclosed

/-- A supervisor that has ended stays so. -/
theorem ended_step {canDie : Bool} {s s' : Simulated} {a : Action} (hended : s.supervisor ≠ .running) (hs : s.step canDie a = some s') :
    s'.supervisor ≠ .running := by
  have hexits : ∀ (t : Simulated) (code : Fin 256), t.supervisor ≠ .running → (t.exits code).supervisor ≠ .running := by
    intro t code ht
    unfold exits
    split
    · contradiction
    · exact ht
  cases steps_of_step hs with
  | crash => exact hexits s _ hended
  | crashAfter => exact hexits _ _ hended
  | finished => exact hexits s _ hended
  | handleRequest =>
    simp only [if_neg (fun h : s.inputComplete = true ∧ s.child.commands.elems = [] ∧ s.supervisor = .running => hended h.2.2)]
    exact hended
  | _ => exact hended

end Simulated

namespace Simulation

variable {n : Nat}

/-! ## Each child is on a run of its own -/

/-- In one action a child stays as it is or takes a step. -/
theorem child_step {canDie : Bool} {s s' : Simulation n} {a : Action n} (hok : s.AnswerableJobs a) (hs : s.step canDie a = some s')
    (i : Fin n) : s'.child i = s.child i ∨ ∃ b, (s.child i).AnswerableJobs b ∧ (s.child i).step canDie b = some (s'.child i) := by
  have hput : ∀ (j : Fin n) (b : Simulated.Action) (child : Simulated), (s.child j).AnswerableJobs b →
      (s.child j).step canDie b = some child → (s.put j child).child i = s.child i ∨
        ∃ b, (s.child i).AnswerableJobs b ∧ (s.child i).step canDie b = some ((s.put j child).child i) := by
    intro j b child hjobs hstep
    by_cases hij : i = j
    · subst hij
      rw [put_self]
      exact Or.inr ⟨b, hjobs, hstep⟩
    · exact Or.inl (put_other s hij child)
  obtain ⟨-, hs⟩ := steps_of_step hs
  cases hs with
  | child _ hstep => exact hput _ _ _ hok hstep
  | inputComplete => exact Or.inr ⟨.inputComplete, trivial, rfl⟩
  | close _ hstep => exact hput _ .close _ trivial hstep
  | _ => exact Or.inl rfl

/-- The run of one child in a run of the pool. -/
theorem child_of_reach {canDie : Bool} {s : Simulation n} (h : (system canDie n).Reach AnswerableJobs s) (i : Fin n) :
    (Simulated.system canDie).Reach Simulated.AnswerableJobs (s.child i) := by
  refine h.invariant (I := fun s => (Simulated.system canDie).Reach Simulated.AnswerableJobs (s.child i)) .refl ?_
  intro s a s' hi hok hs
  rcases child_step hok hs i with hsame | ⟨b, hjobs, hstep⟩
  · rw [hsame]
    exact hi
  · exact hi.step b hjobs hstep

/-! ## The invariant -/

/-- `input_complete` is the same for all; the main thread goes on when all work is done only; it has closed the pipes that it has gone past;
a child that it has waited for has ended or was abandoned; a SIGCHLD comes of a child that has ended, and so does each wait that is cut short;
and the manager has not panicked. -/
structure Sound (s : Simulation n) : Prop where
  flag : ∀ i, (s.child i).inputComplete = s.inputComplete
  done : s.stage ≠ .blocked → s.inputComplete = true ∧ ∀ i, (s.child i).AllDone
  closed : ∀ i : Fin n, i < s.stage.closed → (s.child i).closed = true
  passed : ∀ i : Fin n, i < s.stage.passed → (s.child i).supervisor ≠ .running ∨ i ∈ s.abandoned
  signalled : s.signalled = true → ∃ j, (s.child j).supervisor ≠ .running
  abandoned : ∀ i ∈ s.abandoned, ∃ j, j ≠ i ∧ (s.child j).supervisor ≠ .running
  bounded : s.stage.closed ≤ n
  calm : s.panicked = false

theorem sound_init (canDie : Bool) (n : Nat) : (system canDie n).init.Sound where
  flag _ := rfl
  done hstage := absurd rfl hstage
  closed _ hlt := absurd hlt (Nat.not_lt_zero _)
  passed _ hlt := absurd hlt (Nat.not_lt_zero _)
  signalled h := absurd h Bool.false_ne_true
  abandoned _ hmem := absurd hmem List.not_mem_nil
  bounded := Nat.zero_le _
  calm := rfl

/-- What a child has, and does not lose when it takes a step, the children have still when one of them does. -/
theorem put_keeps {s : Simulation n} {i : Fin n} {child : Simulated} {P : Simulated → Prop} (hstep : P (s.child i) → P child) {j : Fin n}
    (hj : P (s.child j)) : P ((s.put i child).child j) := by
  by_cases hji : j = i
  · subst hji
    rw [put_self]
    exact hstep hj
  · rw [put_other s hji]
    exact hj

/-- A child that takes a step, where the signal that says so is not forgotten. -/
theorem Sound.put {canDie : Bool} {s : Simulation n} (h : s.Sound) {i : Fin n} {a : Simulated.Action} {child : Simulated}
    (hflag : child.inputComplete = (s.child i).inputComplete) (hstep : (s.child i).step canDie a = some child) {signalled : Bool}
    (hsignalled : signalled = true → s.signalled = true ∨ s.Ends i child) :
    ({ s.put i child with signalled := signalled } : Simulation n).Sound := by
  have hended : ∀ {j}, (s.child j).supervisor ≠ .running → ((s.put i child).child j).supervisor ≠ .running :=
    fun hj => put_keeps (P := fun t => t.supervisor ≠ .running) (fun hi => Simulated.ended_step hi hstep) hj
  refine ⟨?_, ?_, ?_, ?_, ?_, ?_, h.bounded, h.calm⟩
  · intro j
    exact put_keeps (P := fun t => t.inputComplete = s.inputComplete) (fun hi => hflag.trans hi) (h.flag j)
  · intro hstage
    obtain ⟨hcomplete, hdone⟩ := h.done hstage
    exact ⟨hcomplete, fun j => put_keeps (P := Simulated.AllDone) (fun hi => hi.step hstep) (hdone j)⟩
  · intro j hlt
    exact put_keeps (P := fun t => t.closed = true) (fun hi => Simulated.closed_step hi hstep) (h.closed j hlt)
  · intro j hlt
    exact (h.passed j hlt).imp_left hended
  · intro hs
    rcases hsignalled hs with hold | hnew
    · obtain ⟨j, hj⟩ := h.signalled hold
      exact ⟨j, hended hj⟩
    · refine ⟨i, ?_⟩
      change ((s.put i child).child i).supervisor ≠ .running
      rw [put_self]
      exact hnew.2
  · intro j hmem
    obtain ⟨k, hne, hk⟩ := h.abandoned j hmem
    exact ⟨k, hne, hended hk⟩

/-- The main thread is past the child for which it has waited, which has ended or is abandoned now. -/
theorem Sound.passed_succ {s : Simulation n} (h : s.Sound) {i : Fin n} (hstage : s.stage = .waiting i) {abandoned : List (Fin n)}
    (hsub : s.abandoned ⊆ abandoned) (hi : (s.child i).supervisor ≠ .running ∨ i ∈ abandoned) :
    ∀ j : Fin n, j < (i : Nat) + 1 → (s.child j).supervisor ≠ .running ∨ j ∈ abandoned := by
  intro j hlt
  by_cases hji : j = i
  · exact hji ▸ hi
  · have hne : j.val ≠ i.val := fun heq => hji (Fin.ext heq)
    refine (h.passed j ?_).imp_right (fun hmem => hsub hmem)
    rw [hstage]
    exact Nat.lt_of_le_of_ne (Nat.le_of_lt_succ hlt) hne

/-- One action keeps the invariant, where the supervisors that have ended have no work. -/
theorem Sound.step {canDie : Bool} {s s' : Simulation n} {a : Action n} (hsane : ∀ i, (s.child i).Sane) (h : s.Sound)
    (hs : s.step canDie a = some s') : s'.Sound := by
  obtain ⟨-, hs⟩ := steps_of_step hs
  cases hs with
  | child hown hstep =>
    refine h.put (Simulated.inputComplete_step hown hstep) hstep ?_
    simp only [Bool.or_eq_true, decide_eq_true_eq, imp_self]
  | inputComplete =>
    refine ⟨fun _ => rfl, ?_, h.closed, h.passed, h.signalled, h.abandoned, h.bounded, h.calm⟩
    intro hstage
    exact ⟨rfl, fun i => ⟨rfl, ((h.done hstage).2 i).2⟩⟩
  | allDone hstage hcomplete hempty =>
    exact ⟨h.flag, fun _ => ⟨hcomplete, fun i => ⟨(h.flag i).trans hcomplete, hempty i⟩⟩, fun _ hlt => absurd hlt (Nat.not_lt_zero _),
      fun _ hlt => absurd hlt (Nat.not_lt_zero _), h.signalled, h.abandoned, Nat.zero_le _, h.calm⟩
  | @close i child hstage hstep =>
    have hput : ({ s.put i child with signalled := false } : Simulation n).Sound := by
      refine h.put ?_ hstep (fun hs => absurd hs Bool.false_ne_true)
      cases Simulated.steps_of_step hstep
      rfl
    have hdone := hput.done (by change s.stage ≠ .blocked; rw [hstage]; exact MainStage.noConfusion)
    refine ⟨hput.flag, fun _ => hdone, ?_, ?_, hput.signalled, hput.abandoned, i.isLt, h.calm⟩
    · intro j hlt
      by_cases hji : j = i
      · subst hji
        cases Simulated.steps_of_step hstep
        exact congrArg Simulated.closed (put_self s j _)
      · refine hput.closed j ?_
        have hne : j.val ≠ i.val := fun heq => hji (Fin.ext heq)
        change (j : Nat) < s.stage.closed
        change (j : Nat) < i + 1 at hlt
        rw [hstage]
        exact Nat.lt_of_le_of_ne (Nat.le_of_lt_succ hlt) hne
    · intro j hlt
      refine hput.passed j ?_
      change (j : Nat) < s.stage.passed
      rw [hstage]
      exact hlt
  | @waitpid i hstage hended =>
    have hdone := h.done (by rw [hstage]; exact MainStage.noConfusion)
    have hclosed := h.closed
    rw [hstage] at hclosed
    exact ⟨h.flag, fun _ => hdone, hclosed, h.passed_succ hstage (List.Subset.refl _) (Or.inl hended), h.signalled, h.abandoned, i.isLt,
      h.calm⟩
  | @interrupt i hstage hrunning hsignalled =>
    have hdone := h.done (by rw [hstage]; exact MainStage.noConfusion)
    have hclosed := h.closed
    rw [hstage] at hclosed
    have hpassed := h.passed_succ hstage (List.subset_append_left s.abandoned [i])
      (Or.inr (List.mem_append_right _ (List.mem_singleton_self i)))
    refine ⟨h.flag, fun _ => hdone, hclosed, hpassed, h.signalled, ?_, i.isLt, h.calm⟩
    intro j hmem
    rcases List.mem_append.mp hmem with hmem | hmem
    · exact h.abandoned j hmem
    · obtain rfl := List.mem_singleton.mp hmem
      -- the child that has ended is not the one for which the main thread waits, which is running
      obtain ⟨k, hk⟩ := h.signalled hsignalled
      refine ⟨k, ?_, hk⟩
      rintro rfl
      exact hk hrunning
  | @sigchild i hended =>
    refine ⟨h.flag, h.done, h.closed, h.passed, h.signalled, h.abandoned, h.bounded, ?_⟩
    simp only [((hsane i).supervisor hended).2, ne_eq, not_true_eq_false, decide_false]

theorem sound_of_reach {canDie : Bool} {s : Simulation n} (h : (system canDie n).Reach AnswerableJobs s) : s.Sound := by
  refine h.invariant₂ (J := fun s => ∀ i, (s.child i).Sane) (I := Sound) ?_ (sound_init canDie n) ?_
  · exact fun _ hu i => (Simulated.sane_of_reach (child_of_reach hu i)).2
  · exact fun _ _ _ hsane hi _ hs => hi.step hsane hs

/-- The jobs of a child can be answered. -/
theorem answerable_of_reach {canDie : Bool} {s : Simulation n} (h : (system canDie n).Reach AnswerableJobs s) (i : Fin n) :
    ∀ text ∈ (s.child i).child.texts, Answerable text :=
  (Recovery.recoverable_of_reach (Simulated.sane_of_reach (child_of_reach h i)).1).answerable_texts

/-! ## Progress -/

/-- The others have as much left as before. -/
theorem sum_put (s : Simulation n) (i : Fin n) (child : Simulated) :
    ∑ j, ((s.put i child).child j).remaining + (s.child i).remaining = ∑ j, (s.child j).remaining + child.remaining := by
  have hsum := System.sum_add_of_others (f := fun j => (s.child j).remaining) (g := fun j => ((s.put i child).child j).remaining) (i := i)
    (fun j hj => by rw [put_other s hj])
  simp only [put_self] at hsum
  exact hsum

/-- A productive action leaves less to do. -/
theorem remaining_lt {canDie : Bool} {s s' : Simulation n} {a : Action n} (hqueue : ∀ i, ∀ text ∈ (s.child i).child.texts, Answerable text)
    (hok : s.Productive a) (hs : s.step canDie a = some s') : s'.remaining < s.remaining := by
  obtain ⟨-, hs⟩ := steps_of_step hs
  cases hs with
  | @child i a child hown hstep =>
    have hlt := Simulated.remaining_lt (hqueue i) hok hstep
    have hsum := sum_put s i child
    simp only [remaining, put] at hsum ⊢
    omega
  | inputComplete => exact hok.elim
  | allDone hstage =>
    simp only [remaining, hstage, MainStage.remaining]
    omega
  | @close i child hstage hstep =>
    have hsame : child.remaining = (s.child i).remaining := by
      cases Simulated.steps_of_step hstep
      rfl
    have hsum := sum_put s i child
    have hlt := i.isLt
    simp only [remaining, put, hstage, MainStage.remaining] at hsum ⊢
    omega
  | @waitpid i hstage hended =>
    have hlt := i.isLt
    simp only [remaining, hstage, MainStage.remaining]
    omega
  | @interrupt i hstage hrunning hsignalled =>
    have hlt := i.isLt
    simp only [remaining, hstage, MainStage.remaining]
    omega
  | sigchild => exact hok.elim

/-- A productive action dispatches no job. -/
theorem Productive.answerableJobs {s : Simulation n} {a : Action n} (h : s.Productive a) : s.AnswerableJobs a := by
  rcases a with ⟨i, job | _ | _ | _ | _ | _ | _ | _ | _⟩ | _ | _ | _ | _ | _ | _
  · exact h.elim
  all_goals trivial

end Simulation

end FostWright
