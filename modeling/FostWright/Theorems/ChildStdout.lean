import FostWright.Lemmas.Capacity
import FostWright.ChildStdout

/-!
# The stdout reader refines the line matcher

After the frames that have been taken off the stream the machine has the same queue, the same reports and the same queue after each
line, whatever lines are still to come for it.
-/

namespace FostWright

open Lib

/-! ## The machine -/

theorem Matcher.run_append (lines : List Line) (schedule : List (Option Command)) (e : Option Command) :
    run lines (schedule ++ [e]) = (run lines schedule).step e := by
  simp [run]

/-- The lines of a stream are its frames, each read as a line. -/
theorem linesOf_eq (stream : List Byte) : linesOf stream = (unframe newline stream).1.map readLine := by
  have hnewline : decide (newline ≠ nul) = true := by decide
  unfold linesOf withoutNul
  rw [unframe_filter (fun b => decide (b ≠ nul)) hnewline]
  refine List.map_congr_left ?_
  intro w hw
  unfold readLine
  refine List.filter_congr ?_
  intro b hb
  have hne : b ≠ newline := by
    rintro rfl
    exact (not_mem_unframe newline stream).1 w hw hb
  simp [hne]

/-! ## The simulation -/

namespace ChildStdout

/-- The machine, under the same schedule, is where the code is. -/
def Matches (s : ChildStdout) (lines more : List Line) : Prop :=
  Matcher.run lines s.schedule = { lines := more, queue := s.child.queue, done := s.done, after := s.after }

/-- The frames taken are the lines that the machine has handled, whatever lines follow them. -/
structure Simulates (s : ChildStdout) (ws : List (List Byte)) : Prop where
  framed : s.reader.Framed newline ws
  agrees : ∀ more, s.Matches (ws.map readLine ++ more) more

theorem simulates_init : system.init.Simulates [] :=
  ⟨Reader.framed_start newline, fun _ => rfl⟩

/-- The front of the queue, as a command. -/
theorem queue_cons {child : Childproc} {front : Job} (h : child.commands.front? = some front) :
    child.queue = (front.command, front.limiter) :: child.commands.elems.tail.map (fun job => (job.command, job.limiter)) := by
  unfold Childproc.queue
  unfold CircularBuffer.front? at h
  cases helems : child.commands.elems with
  | nil =>
    rw [helems] at h
    cases h
  | cons job jobs =>
    rw [helems] at h
    cases h
    rfl

/-- Handling a line takes nothing from the stream. -/
theorem reader_handle (s : ChildStdout) (now : Nat) (ret : Line) : (s.handle now ret).reader = s.reader := by
  unfold handle
  split <;> rfl

/-- Handling a line does to the queue and the reports what the machine does. -/
theorem matchLine_handle (s : ChildStdout) (now : Nat) (ret : Line) (lines : List Line) :
    ({ lines := lines, queue := s.child.queue, done := s.done, after := s.after } : Matcher).matchLine ret =
      { lines := lines, queue := (s.handle now ret).child.queue, done := (s.handle now ret).done, after := s.after } := by
  unfold handle Childproc.handleStdout Matcher.matchLine
  cases hfront : s.child.commands.front? with
  | none =>
    have hnil : s.child.queue = [] := by
      unfold CircularBuffer.front? at hfront
      unfold Childproc.queue
      rw [List.head?_eq_none_iff.mp hfront]
      rfl
    simp [hnil]
  | some front =>
    have hcons := queue_cons hfront
    by_cases hmatch : ret ≠ [] ∧ ret = front.command
    · have hpop : ({ commands := s.child.commands.popFront.modifyFront (fun job => { job with time := now }) } : Childproc).queue =
          s.child.commands.elems.tail.map (fun job => (job.command, job.limiter)) :=
        map_modifyHead_time _ (fun _ _ => rfl) s.child.commands.elems.tail now
      simp only [hcons, if_pos hmatch, hpop]
    · simp only [hcons, if_neg hmatch]

/-- Pushing a command does to the queue what the machine does. -/
theorem queue_pushBack (child : Childproc) (job : Job) :
    ({ commands := child.commands.pushBack job } : Childproc).queue =
      (child.queue ++ [(job.command, job.limiter)]).drop (child.queue.length + 1 - bufferSize) := by
  simp [Childproc.queue, CircularBuffer.pushBack, List.map_drop]

/-- One action: the machine makes the same one. -/
theorem Simulates.step {s s' : ChildStdout} {ws : List (List Byte)} (h : s.Simulates ws) {a : Action} (hs : s.step a = some s') :
    ∃ ws', s'.Simulates ws' := by
  cases a with
  | feed f =>
    obtain ⟨reader, hfeed, rfl⟩ := Option.map_eq_some_iff.mp hs
    exact ⟨ws, h.framed.feed hfeed, h.agrees⟩
  | line now =>
    obtain ⟨bytes, hread, rfl⟩ := Option.map_eq_some_iff.mp hs
    obtain ⟨w, rest, hbuffer, hw, rfl⟩ := Reader.readUntil_eq_some hread
    simp only [hbuffer, bump_append_newline]
    refine ⟨ws ++ [w], ?_, ?_⟩
    · rw [reader_handle]
      exact h.framed.take hbuffer hw
    · intro more
      have hrun := h.agrees (readLine w :: more)
      unfold Matches at hrun ⊢
      rw [List.map_append, List.append_assoc, Matcher.run_append]
      change (Matcher.run (ws.map readLine ++ readLine w :: more) s.schedule).step none = _
      rw [hrun]
      have hline := matchLine_handle { s with reader := { s.reader with buffer := rest } } now (readLine w) more
      simp only [Matcher.step]
      simp only at hline
      rw [hline]
  | dispatch job =>
    obtain rfl := Option.some.inj hs
    refine ⟨ws, h.framed, ?_⟩
    intro more
    have hrun := h.agrees more
    unfold Matches at hrun ⊢
    rw [Matcher.run_append, hrun]
    simp only [Matcher.step, queue_pushBack]

theorem simulates_of_reachable {s : ChildStdout} (h : system.Reachable s) : ∃ ws, s.Simulates ws := by
  refine h.invariant (I := fun s => ∃ ws, s.Simulates ws) ⟨[], simulates_init⟩ ?_
  rintro s a s' ⟨ws, hws⟩ - hs
  exact hws.step hs

/-- The machine on the stream that has arrived is where the code is, and has handled all lines when nothing is left to read. -/
theorem run_linesOf {s : ChildStdout} (h : system.Reachable s) :
    ∃ more, s.Matches (linesOf s.reader.arrived) more ∧ (s.reader.Idle newline → more = []) := by
  obtain ⟨ws, hws⟩ := simulates_of_reachable h
  refine ⟨(unframe newline s.reader.left).1.map readLine, ?_, ?_⟩
  · rw [linesOf_eq, hws.framed.unframe_arrived, List.map_append]
    exact hws.agrees _
  · intro hidle
    have harrived := hws.framed.unframe_arrived
    rw [hws.framed.unframe_idle hidle, Prod.mk.injEq] at harrived
    rw [List.append_right_eq_self.mp harrived.1.symm]
    rfl

/-- The stream can be moved along. -/
theorem reach_move (s : ChildStdout) (k : Nat) (r : Reader Byte) (h : system.Reachable s)
    (hfeed : s.reader.feed newline (.readSome k) = some r) : ∃ t, system.Reachable t ∧ t.reader = r := by
  have hstep : s.step (.feed (.readSome k)) = some { s with reader := r } := by simp [step, hfeed]
  exact ⟨_, h.step (.feed _) trivial hstep, rfl⟩

/-- A line that is there can be handled. -/
theorem reach_take (s : ChildStdout) (w rest : List Byte) (h : system.Reachable s)
    (hread : s.reader.readUntil newline = some (w.length + 1)) (hbuffer : s.reader.buffer = w ++ newline :: rest) :
    ∃ t, system.Reachable t ∧ t.reader = { s.reader with buffer := rest } := by
  refine ⟨_, h.step (.line 0) trivial (congrArg (Option.map _) hread), ?_⟩
  simp only [hbuffer, bump_append_newline, reader_handle]

/-- The reader gets to where nothing is left to read, of what has arrived. -/
theorem settles {s : ChildStdout} (h : system.Reachable s) :
    ∃ t, system.Reachable t ∧ t.reader.arrived = s.reader.arrived ∧ t.reader.Idle newline := by
  obtain ⟨t, ht, harrived, -, hidle⟩ := Reader.exhaust newline system.Reachable ChildStdout.reader reach_move reach_take h
  exact ⟨t, ht, harrived, hidle⟩

/-- For every stream, every way it arrives and every dispatch between the handling of its lines: the queue, the calls of `job_done` and
the queue after each line are those of the machine on the lines of the stream without its NULs; the reader gets to the end of what has
arrived, where all these lines have been handled; and two streams that differ in their NULs and in the pieces in which they arrive, under
the same schedule, give the same. -/
theorem refines_matcher :
    (∀ s, system.Reachable s →
      (Matcher.run (linesOf s.reader.arrived) s.schedule).queue = s.child.queue ∧
      (Matcher.run (linesOf s.reader.arrived) s.schedule).done = s.done ∧
      (Matcher.run (linesOf s.reader.arrived) s.schedule).after = s.after ∧
      (s.reader.Idle newline → (Matcher.run (linesOf s.reader.arrived) s.schedule).lines = []) ∧
      ∃ t, system.Reachable t ∧ t.reader.arrived = s.reader.arrived ∧ t.reader.Idle newline) ∧
    (∀ s t, system.Reachable s → system.Reachable t → withoutNul s.reader.arrived = withoutNul t.reader.arrived →
      s.schedule = t.schedule → s.done = t.done ∧ s.child.queue = t.child.queue ∧ s.after = t.after) := by
  constructor
  · intro s hs
    obtain ⟨more, hmore, hidle⟩ := run_linesOf hs
    unfold Matches at hmore
    rw [hmore]
    exact ⟨rfl, rfl, rfl, hidle, settles hs⟩
  · intro s t hs ht hstream hschedule
    obtain ⟨more, hmore, -⟩ := run_linesOf hs
    obtain ⟨more', hmore', -⟩ := run_linesOf ht
    have hlines : linesOf s.reader.arrived = linesOf t.reader.arrived := congrArg (fun x => (unframe newline x).1) hstream
    unfold Matches at hmore hmore'
    rw [hlines, hschedule, hmore'] at hmore
    simp only [Matcher.mk.injEq] at hmore
    obtain ⟨-, hqueue, hdone, hafter⟩ := hmore
    exact ⟨hdone.symm, hqueue.symm, hafter.symm⟩

/-- A child answers two commands, with a NUL before the first answer, a blank line and the last piece cut in two. -/
theorem refines_matcher_run : ∃ s, system.Reachable s ∧ s.done = [[97], [98]] ∧
    (Matcher.run (linesOf s.reader.arrived) s.schedule).done = s.done := by
  obtain ⟨s, hs, hp⟩ := System.reachable_of_run (S := system)
    [.dispatch ⟨[97], 0, 0⟩, .feed (.arrive [0, 97, 10, 10, 98]), .feed (.readSome 5), .line 1, .dispatch ⟨[98], 1, 1⟩, .line 2,
      .feed (.arrive [10]), .feed (.readSome 1), .line 3]
    (fun s => s.done == [[97], [98]]) (by decide)
  rw [beq_iff_eq] at hp
  exact ⟨s, hs, hp, (refines_matcher.1 s hs).2.1⟩

end ChildStdout

end FostWright
