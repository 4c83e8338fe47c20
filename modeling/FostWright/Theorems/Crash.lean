import FostWright.Crash
import FostWright.Theorems.Recovery

/-!
# When a crash in the middle of a line does no damage

The bytes that a dead worker left in the two pipes are glued to what comes after them. At the front of the stdin pipe the end of a
line that was half consumed is handed to the next worker as a job of its own; in the stdout pipe the beginning of an answer
is put before the first answer of the next worker. The resend that follows covers the queue again in every case but those of
`CleanCut`.
-/

namespace FostWright

open Lib

/-! ## Handling many lines -/

/-- On a queue without empty jobs, handling lines is the greedy matching. -/
theorem Childproc.texts_handleLines {child : Childproc} (h : [] ∉ child.texts) (now : Nat) (lines : List Line) :
    (child.handleLines now lines).texts = leftover child.texts lines ∧ [] ∉ (child.handleLines now lines).texts := by
  induction lines generalizing child with
  | nil => exact ⟨rfl, h⟩
  | cons ret lines ih =>
    have hstrike := strike_texts h now ret
    have hnext : (((child.handleStdout now ret).map Prod.snd).getD child).texts = strike child.texts ret := by
      rw [hstrike]
      cases child.handleStdout now ret <;> rfl
    have hne : [] ∉ (((child.handleStdout now ret).map Prod.snd).getD child).texts := by
      rw [hnext]
      unfold strike
      split
      · exact fun hmem => h (List.mem_of_mem_tail hmem)
      · exact h
    obtain ⟨htexts, hrest⟩ := ih hne
    rw [hnext] at htexts
    exact ⟨htexts, hrest⟩

/-- The jobs that are left were there before. -/
theorem Childproc.texts_handleLines_subset (child : Childproc) (now : Nat) (lines : List Line) :
    ∀ text ∈ (child.handleLines now lines).texts, text ∈ child.texts := by
  induction lines generalizing child with
  | nil => exact fun text h => h
  | cons ret lines ih =>
    intro text htext
    have hmem := ih (((child.handleStdout now ret).map Prod.snd).getD child) text htext
    cases hc : child.handleStdout now ret with
    | none => simpa [hc] using hmem
    | some p =>
      obtain ⟨job, child'⟩ := p
      rw [hc, Option.map_some, Option.getD_some] at hmem
      rw [texts_handleStdout hc]
      exact List.mem_cons_of_mem ret hmem

/-- A job that no line can answer is never removed. -/
theorem Childproc.mem_handleLines_of_not_answerable {child : Childproc} {text : Line} (htext : ¬ Answerable text)
    (h : text ∈ child.texts) (now : Nat) {lines : List Line} (hlines : ∀ line ∈ lines, newline ∉ line ∧ nul ∉ line) :
    text ∈ (child.handleLines now lines).texts := by
  induction lines generalizing child with
  | nil => exact h
  | cons ret lines ih =>
    refine ih ?_ (fun line hline => hlines line (List.mem_cons_of_mem ret hline))
    cases hc : child.handleStdout now ret with
    | none =>
      simp only [hc, Option.map_none, Option.getD_none]
      exact h
    | some p =>
      obtain ⟨job, child'⟩ := p
      simp only [hc, Option.map_some, Option.getD_some]
      rw [texts_handleStdout hc] at h
      rcases List.mem_cons.mp h with rfl | h
      · exact absurd ⟨(handleStdout_eq_some hc).1, hlines text List.mem_cons_self⟩ htext
      · exact h

/-- What the manager reads has neither newlines nor NULs. -/
theorem not_mem_readLines {stream : List Byte} {line : Line} (h : line ∈ readLines stream) : newline ∉ line ∧ nul ∉ line := by
  obtain ⟨bytes, -, rfl⟩ := List.mem_map.mp h
  exact not_mem_readLine bytes

/-- A text before the first line is read with it. -/
theorem map_readLine_glue (f : List Byte) (lines : List (List Byte)) :
    (glue f lines).map readLine = glue (readLine f) (lines.map readLine) := by
  cases lines with
  | nil => rfl
  | cons line lines =>
    simp only [glue, List.map_cons, List.cons.injEq, and_true]
    exact List.filter_append f line

/-! ## A queue behind a fragment -/

/-- A queue is matched by what precedes it and its own lines, the first of which has a fragment before it, exactly when there is no
fragment, or it hits another line, or the front of the queue is matched before. -/
theorem sublist_glue_iff {α : Type*} [DecidableEq α] (q u g : List (List α)) (f : List α) :
    q.Sublist (u ++ glue f (g ++ q)) ↔ f = [] ∨ g ≠ [] ∨ ∀ x ∈ q.head?, x ∈ u := by
  cases g with
  | cons w g =>
    refine iff_of_true ?_ (Or.inr (Or.inl (List.cons_ne_nil w g)))
    rw [List.cons_append, glue, ← List.cons_append, ← List.append_assoc]
    exact List.sublist_append_right _ _
  | nil =>
    rw [List.nil_append]
    cases q with
    | nil => exact iff_of_true (List.nil_sublist _) (Or.inr (Or.inr (by simp)))
    | cons x q =>
      rw [glue]
      constructor
      · intro hsub
        by_cases hf : f = []
        · exact Or.inl hf
        · refine Or.inr (Or.inr ?_)
          intro y hy
          rw [List.head?_cons, Option.mem_some_iff] at hy
          subst hy
          by_contra hxu
          have hskip : leftover (x :: q) u = x :: q := by
            refine leftover_of_head_not_mem (fun y hy hhead => hxu ?_)
            rw [List.head?_cons, Option.some.injEq] at hhead
            exact hhead ▸ hy
          have hne : strike (x :: q) (f ++ x) = x :: q := by
            refine if_neg (fun hhead => hf ?_)
            rw [List.head?_cons, Option.some.injEq] at hhead
            simpa using hhead.symm
          rw [← leftover_eq_nil_iff, leftover_append, hskip, leftover_cons, hne, leftover_eq_nil_iff] at hsub
          have hlen := hsub.length_le
          rw [List.length_cons] at hlen
          omega
      · rintro (rfl | hg | hhead)
        · exact List.sublist_append_right _ _
        · exact absurd rfl hg
        · have hx : x ∈ u := hhead x rfl
          have happ := (List.singleton_sublist.mpr hx).append (List.sublist_cons_self (f ++ x) q)
          exact happ

namespace Crash

/-! ## The streams -/

theorem queue_texts_subset (c : Crash) : ∀ text ∈ c.queue.texts, text ∈ c.child.texts := c.child.texts_handleLines_subset _ _

/-- The bytes in the pipe are lines. -/
theorem stdin_eq_frames (c : Crash) : c.stdin = frames newline (c.piped.flatMap linesIn) := by
  unfold stdin
  induction c.piped with
  | nil => rfl
  | cons text piped ih => rw [List.flatMap_cons, List.flatMap_cons, frames_append, frames_linesIn, ih]

/-- Whatever the worker consumed, what it left ends with the end of a line. -/
theorem unread_rest (c : Crash) : (unframe newline c.unread).2 = [] := by
  unfold unread
  rw [stdin_eq_frames]
  refine (unframe_drop_frames ?_ c.consumed).1
  intro line hline
  obtain ⟨text, -, hline⟩ := List.mem_flatMap.mp hline
  exact not_mem_linesIn hline

/-- Of jobs without newlines only the first line that is left can be no job. -/
theorem leftLines_dispatched_iff {c : Crash} (h : ∀ text ∈ c.piped, newline ∉ text) :
    (∀ line ∈ c.leftLines, line ∈ c.dispatched) ↔ ∀ line ∈ c.leftLines.head?, line ∈ c.dispatched := by
  constructor
  · intro hall line hline
    exact hall line (List.mem_of_head? hline)
  · intro hhead line hline
    have htail := (unframe_drop_frames h c.consumed).2
    rw [frames_eq_writeLine] at htail
    cases hleft : c.leftLines with
    | nil =>
      rw [hleft] at hline
      cases hline
    | cons first rest =>
      rw [hleft] at hline
      rcases List.mem_cons.mp hline with rfl | hline
      · exact hhead line (by rw [hleft]; rfl)
      · have hmem : line ∈ c.leftLines.tail := by
          rw [hleft]
          exact hline
        exact c.piped_dispatched line (htail line hmem)

/-- The next worker is handed what is left in the pipe, and the queue. -/
theorem restarted_eq {c : Crash} (hqueue : ∀ text ∈ c.queue.texts, Answerable text) : c.restarted = c.leftLines ++ c.queue.texts := by
  have hresent : c.resent = frames newline c.queue.texts := by
    rw [resent, Childproc.resend_eq_texts, frames_eq_writeLine]
  unfold restarted leftLines
  rw [hresent, unframe_append, c.unread_rest, List.nil_append, unframe_frames_nil (fun w hw => (hqueue w hw).2.1)]

/-- The manager reads the complete answers of the dead worker, and those of the next one with the fragment before the first. -/
theorem readLines_stdout (c : Crash) : readLines c.stdout = c.answered ++ glue c.fragment (c.restarted.map readLine) := by
  have hglue := unframe_rest_frames (not_mem_unframe newline c.output).2
    (fun w hw => (not_mem_unframe newline (c.unread ++ c.resent)).1 w hw)
  unfold readLines stdout answered
  rw [unframe_append, List.map_append, restarted, hglue, map_readLine_glue]
  rfl

/-- What the manager still has to read when it handles the `r`. -/
theorem drop_readLines {c : Crash} (hqueue : ∀ text ∈ c.queue.texts, Answerable text) :
    (readLines c.stdout).drop (min c.handled c.answered.length) =
      c.answered.drop c.handled ++ glue c.fragment (c.leftLines.map readLine ++ c.queue.texts) := by
  have hread : c.queue.texts.map readLine = c.queue.texts := by
    rw [List.map_congr_left (fun text htext => readLine_of_answerable (hqueue text htext)), List.map_id']
  rw [readLines_stdout, restarted_eq hqueue, List.map_append, hread, List.drop_append_of_le_length (Nat.min_le_right _ _)]
  by_cases h : c.handled ≤ c.answered.length
  · rw [Nat.min_eq_left h]
  · rw [Nat.min_eq_right (by omega), List.drop_length, List.drop_eq_nil_of_le (by omega)]

/-! ## The recovery -/

/-- Every line that the next worker is handed was dispatched exactly when those left in the pipe were. -/
theorem restarted_dispatched_iff {c : Crash} (hqueue : ∀ text ∈ c.queue.texts, Answerable text) :
    (∀ line ∈ c.restarted, line ∈ c.dispatched) ↔ ∀ line ∈ c.leftLines, line ∈ c.dispatched := by
  rw [restarted_eq hqueue]
  constructor
  · intro h line hline
    exact h line (List.mem_append_left _ hline)
  · intro h line hline
    rcases List.mem_append.mp hline with hline | hline
    · exact h line hline
    · exact c.queued_dispatched line (c.queue_texts_subset line hline)

/-- Whatever the worker had consumed and written when it died: the restarted worker is handed only dispatched jobs and every queued
job is removed exactly when the cut was clean. -/
theorem recovers_iff_cleanCut (c : Crash) : c.Recovers ↔ c.CleanCut := by
  unfold Recovers CleanCut
  by_cases hqueue : ∀ text ∈ c.queue.texts, Answerable text
  · have hnonempty : [] ∉ c.queue.texts := fun hmem => (hqueue [] hmem).1 rfl
    rw [restarted_dispatched_iff hqueue, and_iff_right hqueue]
    refine and_congr_right (fun _ => ?_)
    have hleft : c.leftLines ≠ [] ↔ c.leftLines.map readLine ≠ [] := List.map_eq_nil_iff.not.symm
    rw [hleft, ← sublist_glue_iff, ← leftover_eq_nil_iff]
    unfold final
    rw [(Childproc.texts_handleLines hnonempty c.now _).1, drop_readLines hqueue]
  · refine iff_of_false ?_ (fun h => hqueue h.2.1)
    rintro ⟨-, hnil⟩
    push Not at hqueue
    obtain ⟨text, hmem, htext⟩ := hqueue
    have hclean : ∀ line ∈ (readLines c.stdout).drop (min c.handled c.answered.length), newline ∉ line ∧ nul ∉ line :=
      fun line hline => not_mem_readLines (List.mem_of_mem_drop hline)
    -- the job is still there when everything has been read
    have hstays := Childproc.mem_handleLines_of_not_answerable htext hmem c.now hclean
    unfold final at hnil
    rw [hnil] at hstays
    cases hstays

/-- The worker dies after it has consumed one of two jobs and written the first byte of its answer: the other job is left in the pipe, and
comes before the resent ones. -/
theorem recovers_iff_cleanCut_run :
    ∃ c : Crash, c.leftLines = [[98]] ∧ c.fragment = [97] ∧ c.queue.texts = [[97, 99], [98]] ∧ c.Recovers := by
  let c : Crash :=
    { child := { commands := ⟨[⟨[97, 99], 0, 0⟩, ⟨[98], 1, 0⟩], by decide⟩ }
      inputComplete := false
      now := 0
      piped := [[97, 99], [98]]
      consumed := 3
      written := 1
      handled := 0
      dispatched := [[97, 99], [98]]
      queued_dispatched := by decide
      piped_dispatched := by decide }
  exact ⟨c, by decide, by decide, by decide, (recovers_iff_cleanCut c).mpr (by decide)⟩

/-- The worker dies after it has consumed the first byte of the job `ab`: the next one is handed `b`. -/
theorem half_read_line_handed_on : ¬ ∀ c : Crash, c.Recovers := by
  intro h
  have hrecovers := h
    { child := { commands := ⟨[⟨[97, 98], 0, 0⟩], by decide⟩ }
      inputComplete := false
      now := 0
      piped := [[97, 98]]
      consumed := 1
      written := 0
      handled := 0
      dispatched := [[97, 98]]
      queued_dispatched := by decide
      piped_dispatched := by decide }
  exact absurd (hrecovers.1 [98] (by decide)) (by decide)

end Crash

end FostWright
