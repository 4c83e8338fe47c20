import FostWright.Construction

/-!
# One process for each child

The rest of the constructor is run by the manager and by every process whose `execvp` failed. So there is one process for each child
exactly when every `execvp` succeeds; when none does, the number of processes doubles with each iteration.
-/

namespace FostWright

/-! ## One iteration -/

theorem constructFrom_starts {launch : Proc → Launch} {child remaining : Nat} {p : Proc} (h : launch (p ++ [child]) = .starts) :
    constructFrom launch child (remaining + 1) p =
      .forked p (p ++ [child]) :: .execed (p ++ [child]) :: constructFrom launch (child + 1) remaining p := by
  simp [constructFrom, forkExec, h]

theorem constructFrom_execFails {launch : Proc → Launch} {child remaining : Nat} {p : Proc}
    (h : launch (p ++ [child]) = .execFails) :
    constructFrom launch child (remaining + 1) p =
      .forked p (p ++ [child]) :: .execFailed (p ++ [child]) ::
        (constructFrom launch (child + 1) remaining (p ++ [child]) ++ constructFrom launch (child + 1) remaining p) := by
  simp [constructFrom, forkExec, h]

/-- A process in which `fork` does not fail either becomes a supervisor or is one whose `execvp` failed. -/
theorem Launch.starts_or_execFails {l : Launch} (h : l ≠ .forkFails) : l = .starts ∨ l = .execFails := by
  cases l with
  | forkFails => exact absurd rfl h
  | execFails => exact Or.inr rfl
  | starts => exact Or.inl rfl

/-! ## All iterations -/

/-- Every process that runs the loop returns from the constructor, whatever becomes of the processes that it forks. -/
theorem returned_mem_constructFrom {launch : Proc → Launch} (hfork : ∀ p, launch p ≠ .forkFails) (child remaining : Nat) (p : Proc) :
    .returned p ∈ constructFrom launch child remaining p := by
  induction remaining generalizing child with
  | zero => simp [constructFrom]
  | succ remaining ih =>
    rcases Launch.starts_or_execFails (hfork (p ++ [child])) with h | h
    · simp [constructFrom_starts h, ih]
    · simp [constructFrom_execFails h, ih]

/-- What the manager forks in an iteration returns from the constructor too when its `execvp` fails. -/
theorem returned_mem_of_execFails {launch : Proc → Launch} (hfork : ∀ p, launch p ≠ .forkFails) {child remaining i : Nat} {p : Proc}
    (hlo : child ≤ i) (hhi : i < child + remaining) (hi : launch (p ++ [i]) = .execFails) :
    .returned (p ++ [i]) ∈ constructFrom launch child remaining p := by
  induction remaining generalizing child with
  | zero => omega
  | succ remaining ih =>
    by_cases hchild : child = i
    · subst hchild
      have hmem := returned_mem_constructFrom hfork (child + 1) remaining (p ++ [child])
      simp [constructFrom_execFails hi, hmem]
    · have hmem : .returned (p ++ [i]) ∈ constructFrom launch (child + 1) remaining p := ih (by omega) (by omega)
      rcases Launch.starts_or_execFails (hfork (p ++ [child])) with h | h
      · simp [constructFrom_starts h, hmem]
      · simp [constructFrom_execFails h, hmem]

/-- When every `execvp` succeeds, the loop forks once for each iteration that remains, and only the process that runs it returns. -/
theorem constructFrom_of_starts {launch : Proc → Launch} {child remaining : Nat} {p : Proc}
    (h : ∀ i, child ≤ i → i < child + remaining → launch (p ++ [i]) = .starts) :
    constructFrom launch child remaining p =
      (List.range' child remaining).flatMap (fun i => [.forked p (p ++ [i]), .execed (p ++ [i])]) ++ [.returned p] := by
  induction remaining generalizing child with
  | zero => simp [constructFrom]
  | succ remaining ih =>
    have htail : constructFrom launch (child + 1) remaining p = _ := ih (fun i hlo hhi => h i (by omega) (by omega))
    rw [constructFrom_starts (h child (Nat.le_refl _) (by omega)), htail]
    simp [List.range'_succ]

/-- The same for the whole constructor. -/
theorem oneEach_of_starts {launch : Proc → Launch} {number : Nat} (h : ∀ i < number, launch [i] = .starts) :
    OneEach number (construct launch number) := by
  have heq : constructFrom launch 0 number managerProc = _ := constructFrom_of_starts (fun i _ hi => h i (by omega))
  unfold construct
  rw [heq]
  refine ⟨?_, ?_, ?_, ?_⟩
  · simp [List.countP_flatMap, Function.comp_def, List.countP_cons, Happening.isFork]
  · intro parent child hmem
    simp at hmem
    obtain ⟨i, -, hparent, -⟩ := hmem
    exact hparent
  · simp
  · intro p hmem
    simp at hmem

/-- For every number of children and every pattern of `execvp` results, no `fork` failing: there is exactly one process for each child
exactly when the `execvp` of every process that the manager forks succeeds. -/
theorem oneEach_iff (launch : Proc → Launch) (number : Nat) (hfork : ∀ p, launch p ≠ .forkFails) :
    OneEach number (construct launch number) ↔ ∀ i < number, launch [i] = .starts := by
  constructor
  · intro h i hi
    rcases Launch.starts_or_execFails (hfork [i]) with hstarts | hfails
    · exact hstarts
    · have hmem : .returned (managerProc ++ [i]) ∈ constructFrom launch 0 number managerProc :=
        returned_mem_of_execFails hfork (Nat.zero_le i) (by omega) hfails
      have hroot := h.returns.mp hmem
      cases hroot
  · exact oneEach_of_starts

/-- Three children, whose supervisors all start. -/
theorem oneEach_three : OneEach 3 (construct (fun _ => .starts) 3) :=
  (oneEach_iff (fun _ => .starts) 3 (by intro p; decide)).mpr (by intro i _; rfl)

/-- Two children with a command that cannot be executed: the first process goes on to fork one of its own. -/
theorem execFails_not_oneEach :
    ¬ ∀ (launch : Proc → Launch) (number : Nat), (∀ p, launch p ≠ .forkFails) → OneEach number (construct launch number) := by
  intro h
  have hmem : .forked [0] [0, 1] ∈ construct (fun _ => .execFails) 2 := by decide
  have hparent := (h (fun _ => .execFails) 2 (by intro p; decide)).forks hmem
  cases hparent

/-- When no `execvp` succeeds, the processes double with each iteration. -/
theorem countP_isFork_of_execFails (child remaining : Nat) (p : Proc) :
    (constructFrom (fun _ => .execFails) child remaining p).countP Happening.isFork + 1 = 2 ^ remaining := by
  induction remaining generalizing child p with
  | zero => rfl
  | succ remaining ih =>
    have hchild := ih (child + 1) (p ++ [child])
    have hp := ih (child + 1) p
    rw [constructFrom_execFails rfl]
    simp only [List.countP_cons, List.countP_append, Happening.isFork, Bool.false_eq_true, if_true, if_false]
    omega

end FostWright
