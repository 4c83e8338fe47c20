import FostWright.StdinLoop

/-!
# What the stdin loop submits

The jobs are the lines that a newline ends, whatever the pieces in which the input arrives. What follows the last newline is still in
the buffer when the loop is left.
-/

namespace FostWright

open Lib

namespace StdinLoop

/-- The jobs submitted are the lines made of the frames taken; after the loop these are all frames of the input. -/
structure Framed (s : StdinLoop) (ws : List (List Byte)) : Prop where
  framed : s.reader.Framed newline ws
  submitted : s.submitted = ws.map readLine
  atEnd : s.done = true → s.reader.AtEnd newline

theorem framed_init : system.init.Framed [] := by
  refine ⟨Reader.framed_start newline, rfl, ?_⟩
  intro h
  cases h

/-- What a completed `async_read_until` leads to. -/
theorem step_line {s : StdinLoop} {w rest : List Byte} (hdone : s.done = false) (hbuffer : s.reader.buffer = w ++ newline :: rest)
    (hread : s.reader.readUntil newline = some (w.length + 1)) :
    s.step .line = some { s with reader := { s.reader with buffer := rest }, submitted := s.submitted ++ [readLine w] } := by
  simp only [step, hdone, hread, Option.map_some, hbuffer, bump_append_newline]
  rfl

/-- One action: it takes one more frame, or none. -/
theorem Framed.step {s s' : StdinLoop} {ws : List (List Byte)} (h : s.Framed ws) {a : Action} (hs : s.step a = some s') :
    ∃ ws', s'.Framed ws' := by
  unfold StdinLoop.step at hs
  split at hs
  · cases hs
  · rename_i hdone
    cases a with
    | feed f =>
      obtain ⟨reader, hfeed, rfl⟩ := Option.map_eq_some_iff.mp hs
      exact ⟨ws, h.framed.feed hfeed, h.submitted, fun hd => absurd hd hdone⟩
    | line =>
      obtain ⟨bytes, hread, rfl⟩ := Option.map_eq_some_iff.mp hs
      obtain ⟨w, rest, hbuffer, hw, rfl⟩ := Reader.readUntil_eq_some hread
      refine ⟨ws ++ [w], ?_, ?_, fun hd => absurd hd hdone⟩
      · rw [hbuffer, bump_append_newline]
        exact h.framed.take hbuffer hw
      · rw [hbuffer, bump_append_newline]
        simp [h.submitted]
    | inputError =>
      obtain ⟨hend, rfl⟩ := (Option.ite_none_right_eq_some.mp hs).imp_right Option.some.inj
      exact ⟨ws, h.framed, h.submitted, fun _ => hend⟩

theorem framed_of_reachable {s : StdinLoop} (h : system.Reachable s) : ∃ ws, s.Framed ws := by
  refine h.invariant (I := fun s => ∃ ws, s.Framed ws) ⟨[], framed_init⟩ ?_
  rintro s a s' ⟨ws, hws⟩ - hs
  exact hws.step hs

/-- What the loop submits of a stream: the lines that a newline ends. -/
theorem submitted_of_submits {stream : List Byte} {jobs : List Line} (h : Submits stream jobs) :
    jobs = (unframe newline stream).1.map readLine := by
  obtain ⟨s, hs, hdone, rfl, rfl⟩ := h
  obtain ⟨ws, hws⟩ := framed_of_reachable hs
  rw [hws.framed.unframe_idle (hws.atEnd hdone).2, hws.submitted]

/-! ## The loop ends -/

/-- The input can be moved along while the loop runs. -/
theorem reach_move (s : StdinLoop) (k : Nat) (r : Reader Byte) (h : system.Reachable s ∧ s.done = false)
    (hfeed : s.reader.feed newline (.readSome k) = some r) : ∃ t, (system.Reachable t ∧ t.done = false) ∧ t.reader = r := by
  obtain ⟨hs, hdone⟩ := h
  have hstep : s.step (.feed (.readSome k)) = some { s with reader := r } := by simp [step, hdone, hfeed]
  exact ⟨_, ⟨hs.step (.feed _) trivial hstep, hdone⟩, rfl⟩

/-- A line that is there can be taken while the loop runs. -/
theorem reach_take (s : StdinLoop) (w rest : List Byte) (h : system.Reachable s ∧ s.done = false)
    (hread : s.reader.readUntil newline = some (w.length + 1)) (hbuffer : s.reader.buffer = w ++ newline :: rest) :
    ∃ t, (system.Reachable t ∧ t.done = false) ∧ t.reader = { s.reader with buffer := rest } :=
  ⟨_, ⟨h.1.step .line trivial (step_line h.2 hbuffer hread), h.2⟩, rfl⟩

/-- When the input has ended, the loop takes the lines that are left and is left itself. -/
theorem finishes {s : StdinLoop} (h : system.Reachable s) (hended : s.reader.ended = true) :
    ∃ t, system.Reachable t ∧ t.done = true ∧ t.reader.arrived = s.reader.arrived := by
  by_cases hdone : s.done = true
  · exact ⟨s, h, hdone, rfl⟩
  · rw [Bool.not_eq_true] at hdone
    obtain ⟨t, ⟨ht, htdone⟩, harrived, hended', hidle⟩ :=
      Reader.exhaust newline (fun s => system.Reachable s ∧ s.done = false) StdinLoop.reader reach_move reach_take ⟨h, hdone⟩
    have hstep : t.step .inputError = some { t with done := true } := by
      have hend : t.reader.AtEnd newline := ⟨hended'.trans hended, hidle⟩
      simp [step, htdone, hend]
    exact ⟨_, ht.step .inputError trivial hstep, rfl, harrived⟩

/-- There is a run to the end on every stream. -/
theorem submits (stream : List Byte) : ∃ jobs, Submits stream jobs := by
  have hrun : system.run system.init [.feed (.arrive stream), .feed .finish] =
      some { reader := { arrived := stream, pipe := stream, buffer := [], ended := true }, submitted := [], done := false } := rfl
  have hreach := System.reachFrom_of_run System.ReachFrom.refl (System.meets_anyStep _ _ _) hrun
  obtain ⟨t, ht, hdone, harrived⟩ := finishes hreach rfl
  exact ⟨t.submitted, t, ht, hdone, harrived, rfl⟩

/-! ## What is lost -/

/-- All lines that are not empty are submitted when nothing follows the last newline, and not otherwise. -/
theorem nonEmpty_lines_iff (stream : List Byte) :
    nonEmpty ((unframe newline stream).1.map readLine) = nonEmpty (allLines stream) ↔ tail stream = [] := by
  have hall : nonEmpty (allLines stream) = nonEmpty ((unframe newline stream).1.map readLine) ++ nonEmpty [tail stream] := by
    simp [allLines, nonEmpty, tail]
  rw [hall]
  constructor
  · intro h
    have hnil : nonEmpty [tail stream] = [] := List.append_right_eq_self.mp h.symm
    by_contra hne
    simp [nonEmpty, hne] at hnil
  · intro h
    simp [nonEmpty, h]

/-- For every stream that ends, in whatever pieces it arrives: the loop submits its lines, up to empty ones and with the last one, and
the same for all pieces, exactly when what follows the last newline is made of NULs. -/
theorem loses_no_input_iff (stream : List Byte) :
    ((∀ jobs, Submits stream jobs → nonEmpty jobs = nonEmpty (allLines stream)) ∧
      ∀ jobs jobs', Submits stream jobs → Submits stream jobs' → jobs = jobs') ↔ tail stream = [] := by
  rw [← nonEmpty_lines_iff]
  constructor
  · rintro ⟨hlines, -⟩
    obtain ⟨jobs, hjobs⟩ := submits stream
    rw [← submitted_of_submits hjobs]
    exact hlines jobs hjobs
  · intro h
    refine ⟨?_, ?_⟩
    · intro jobs hjobs
      rw [submitted_of_submits hjobs]
      exact h
    · intro jobs jobs' hjobs hjobs'
      rw [submitted_of_submits hjobs, submitted_of_submits hjobs']

/-- The single job `a`, without a newline, is not submitted. -/
theorem last_line_lost :
    ¬ ∀ (stream : List Byte) (jobs : List Line), Submits stream jobs → nonEmpty jobs = nonEmpty (allLines stream) := by
  intro h
  obtain ⟨s, hs, hp⟩ := System.reachable_of_run (S := system) [.feed (.arrive [97]), .feed .finish, .feed (.readSome 1), .inputError]
    (fun s => s.done && s.reader.arrived == [97] && s.submitted == []) (by decide)
  simp only [Bool.and_eq_true, beq_iff_eq] at hp
  obtain ⟨⟨hdone, harrived⟩, hsubmitted⟩ := hp
  have hlines := h [97] [] ⟨s, hs, hdone, harrived, hsubmitted⟩
  exact absurd hlines (by decide)

end StdinLoop

end FostWright
