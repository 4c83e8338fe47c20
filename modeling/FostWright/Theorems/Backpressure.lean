import FostWright.Backpressure
import FostWright.Theorems.Recovery

/-!
# Full pipes block nobody for ever

What is on its way through the child is one stream of bytes, from what is still to be written to what the manager has read, and it is the
jobs that are not done, line by line. Where nothing can move, the last pipe is empty, as `handle_stdout` waits for nobody; so the worker can
write, and the pipe before it is empty, and so on up to `next_job`.
-/

namespace FostWright

open Lib

/-- A line that is the text of the front is matched. -/
theorem Childproc.handleStdout_of_texts {child : Childproc} (now : Nat) {ret : Line} {texts : List Line} (hne : ret ≠ [])
    (htexts : child.texts = ret :: texts) : ∃ job child', child.handleStdout now ret = some (job, child') ∧ child'.texts = texts := by
  rcases h : child.handleStdout now ret with _ | ⟨job, child'⟩
  · rcases handleStdout_eq_none h with hempty | hhead
    · exact absurd hempty hne
    · rw [htexts] at hhead
      exact absurd rfl hhead
  · refine ⟨job, child', rfl, ?_⟩
    have hfront := texts_handleStdout h
    rw [htexts] at hfront
    exact (List.cons.inj hfront).2.symm

/-- Two streams that are the same and start with a line start with the same line. -/
theorem line_unique {w v : Line} {rest others : List Byte} (hw : newline ∉ w) (hv : newline ∉ v)
    (h : w ++ newline :: rest = v ++ newline :: others) : w = v ∧ rest = others := by
  have hcut := cut_frame hw rest
  rw [h, cut_frame hv others] at hcut
  obtain ⟨hline, hrest⟩ := Prod.mk.inj (Option.some.inj hcut)
  exact ⟨hline.symm, hrest.symm⟩

namespace Backpressure

variable {inCap outCap : Nat} {s t : Backpressure inCap outCap}

/-! ## The stream -/

/-- The text of the job that is being written. -/
def beingWritten (s : Backpressure inCap outCap) : List Line := s.writing.toList.map (fun w => w.1.command)

/-- The bytes on their way, the oldest first. -/
def stream (s : Backpressure inCap outCap) : List Byte :=
  s.buffer ++ s.stdout.elems ++ s.answer ++ s.taken ++ s.stdin.elems ++ s.unwritten

/-- The bytes on their way are the lines of the jobs that are not done; the jobs are done in order; and there is room for the job that is
being written, with a byte of it still to write. -/
structure Flowing (s : Backpressure inCap outCap) : Prop where
  flow : s.stream = (s.child.texts ++ s.beingWritten).flatMap writeLine
  answerable : ∀ text ∈ s.child.texts ++ s.beingWritten, Answerable text
  order : s.done ++ s.child.texts ++ s.beingWritten = s.given
  room : ∀ w ∈ s.writing, s.child.commands.full = false ∧ w.2 ≠ []

theorem flowing_init (inCap outCap : Nat) : (system inCap outCap).init.Flowing :=
  ⟨rfl, fun _ h => absurd h List.not_mem_nil, rfl, fun _ h => by cases h⟩

/-- A step that only moves bytes along. -/
theorem Flowing.moved (h : s.Flowing) (hchild : t.child = s.child) (hwriting : t.beingWritten = s.beingWritten)
    (hroom : ∀ w ∈ t.writing, t.child.commands.full = false ∧ w.2 ≠ []) (hgiven : t.given = s.given) (hdone : t.done = s.done)
    (hstream : t.stream = s.stream) : t.Flowing := by
  refine ⟨?_, ?_, ?_, hroom⟩
  · rw [hstream, hchild, hwriting]
    exact h.flow
  · rw [hchild, hwriting]
    exact h.answerable
  · rw [hchild, hwriting, hgiven, hdone]
    exact h.order

/-- A line that the manager has read is that of the front of the queue. -/
theorem Flowing.front (h : s.Flowing) {bytes rest : List Byte} (hcomplete : s.buffer = bytes ++ newline :: rest) (hnewline : newline ∉ bytes) :
    ∃ texts, s.child.texts = bytes :: texts := by
  have hflow := h.flow
  rcases htexts : s.child.texts with _ | ⟨text, texts⟩
  · rcases hwriting : s.writing with _ | ⟨job, left⟩
    · rw [htexts] at hflow
      simp only [stream, hcomplete, beingWritten, hwriting, Option.toList_none, List.map_nil, List.append_nil, List.flatMap_nil,
        List.append_assoc, List.append_eq_nil_iff, List.cons_append, reduceCtorEq, and_false] at hflow
    · -- the newline of the line that is being written is its last byte, and that is still to be written
      have hleft : left ≠ [] := (h.room (job, left) hwriting).2
      have hanswerable : Answerable job.command := h.answerable job.command (by
        simp only [beingWritten, hwriting, Option.toList_some, List.map_singleton]
        exact List.mem_append_right _ List.mem_cons_self)
      rw [htexts] at hflow
      simp only [stream, hcomplete, beingWritten, unwritten, hwriting, Option.toList_some, List.map_singleton, List.nil_append,
        List.flatMap_singleton, Option.elim_some, writeLine] at hflow
      have hlast := congrArg List.dropLast hflow
      rw [List.dropLast_append_of_ne_nil hleft, List.dropLast_concat] at hlast
      have hmem : newline ∈ job.command := by
        rw [← hlast]
        simp
      exact absurd hmem hanswerable.2.1
  · have hanswerable : Answerable text := h.answerable text (by rw [htexts]; exact List.mem_append_left _ List.mem_cons_self)
    rw [htexts] at hflow
    simp only [stream, hcomplete, List.cons_append, List.flatMap_cons, writeLine, List.append_assoc, List.nil_append] at hflow
    obtain ⟨rfl, -⟩ := line_unique hnewline hanswerable.2.1 hflow
    exact ⟨texts, rfl⟩

/-- One action keeps the invariant, when each job is answered by one line. -/
theorem Flowing.step {a : Action} (h : s.Flowing) (hok : s.AnswerableJobs a) (hs : s.step a = some t) : t.Flowing := by
  cases steps_of_step hs with
  | @nextJob job hfree hroom =>
    have hnone : s.beingWritten = [] := by rw [beingWritten, hfree]; rfl
    have hflow := h.flow
    have hall := h.answerable
    have horder := h.order
    rw [hnone, List.append_nil] at hflow hall horder
    refine ⟨?_, ?_, ?_, ?_⟩
    · simp only [stream, unwritten, hfree, Option.elim_none, List.append_nil] at hflow
      simp only [stream, unwritten, Option.elim_some, beingWritten, Option.toList_some, List.map_singleton, List.flatMap_append,
        List.flatMap_singleton, hflow]
    · intro text htext
      rcases List.mem_append.mp htext with hqueued | hnew
      · exact hall text hqueued
      · rw [List.mem_singleton.mp hnew]
        exact hok
    · simp only [beingWritten, Option.toList_some, List.map_singleton, horder]
    · rintro w ⟨⟩
      exact ⟨hroom, by simp [writeLine]⟩
  | @write k job bytes piece rest stdin hwriting hmoves hsplits hthere hmore =>
    refine h.moved rfl ?_ ?_ rfl rfl ?_
    · simp only [beingWritten, hwriting, Option.toList_some, List.map_singleton]
    · rintro w ⟨⟩
      exact ⟨(h.room (job, bytes) hwriting).1, hmore⟩
    · simp only [stream, unwritten, hwriting, hthere, hsplits, Option.elim_some, List.append_assoc]
  | @written k job bytes stdin hwriting hmoves hthere =>
    have htexts := Childproc.texts_pushBack (h.room (job, bytes) hwriting).1 job
    have hold : s.beingWritten = [job.command] := by rw [beingWritten, hwriting]; rfl
    refine ⟨?_, ?_, ?_, fun w hw => by cases hw⟩
    · have hflow := h.flow
      rw [hold] at hflow
      simp only [htexts, beingWritten, Option.toList_none, List.map_nil, List.append_nil]
      rw [← hflow]
      simp only [stream, unwritten, hwriting, hthere, Option.elim_some, Option.elim_none, List.append_assoc, List.append_nil]
    · have hall := h.answerable
      rw [hold] at hall
      simpa only [htexts, beingWritten, Option.toList_none, List.map_nil, List.append_nil] using hall
    · have horder := h.order
      rw [hold] at horder
      simpa only [htexts, beingWritten, Option.toList_none, List.map_nil, List.append_nil, List.append_assoc] using horder
  | @read k piece stdin hanswered hmoves hthere =>
    refine h.moved rfl rfl h.room rfl rfl ?_
    simp only [stream, unwritten, hthere, List.append_assoc]
  | @respond line rest hanswered hcomplete =>
    refine h.moved rfl rfl h.room rfl rfl ?_
    simp only [stream, unwritten, hanswered, hcomplete, writeLine, List.append_assoc, List.cons_append, List.nil_append]
  | @put k piece rest stdout hmoves hsplits hthere =>
    refine h.moved rfl rfl h.room rfl rfl ?_
    simp only [stream, unwritten, hthere, hsplits, List.append_assoc]
  | @readSome k piece stdout hmoves hthere =>
    refine h.moved rfl rfl h.room rfl rfl ?_
    simp only [stream, unwritten, hthere, List.append_assoc]
  | @matched now bytes rest job child hcomplete hnewline hanswers =>
    obtain ⟨texts, htexts⟩ := h.front hcomplete hnewline
    have hanswerable : Answerable bytes := h.answerable bytes (by rw [htexts]; exact List.mem_append_left _ List.mem_cons_self)
    have hread : readLine bytes = bytes := readLine_eq_self hanswerable.2.2 hnewline
    have hfront := Childproc.texts_handleStdout hanswers
    rw [htexts, hread] at hfront
    have hrest : texts = child.texts := (List.cons.inj hfront).2
    have hflow := h.flow
    have hall := h.answerable
    have horder := h.order
    rw [htexts, hrest] at hflow hall horder
    refine ⟨?_, fun text htext => hall text (List.mem_cons_of_mem _ htext), ?_, ?_⟩
    · simp only [stream, hcomplete, List.cons_append, List.flatMap_cons, writeLine, List.append_assoc, List.nil_append] at hflow
      simp only [stream, List.append_assoc]
      exact (line_unique hnewline hnewline hflow).2
    · simp only [hread, List.append_assoc, List.cons_append, List.nil_append] at horder ⊢
      exact horder
    · intro w hw
      obtain ⟨hroom, hleft⟩ := h.room w hw
      obtain ⟨-, -, -, helems⟩ := Childproc.handleStdout_eq_some hanswers
      refine ⟨?_, hleft⟩
      rw [CircularBuffer.full_eq_false_iff] at hroom ⊢
      rw [helems, List.length_modifyHead, List.length_tail]
      omega
  | @ignored now bytes rest hcomplete hnewline hanswers =>
    obtain ⟨texts, htexts⟩ := h.front hcomplete hnewline
    have hanswerable : Answerable bytes := h.answerable bytes (by rw [htexts]; exact List.mem_append_left _ List.mem_cons_self)
    rw [readLine_eq_self hanswerable.2.2 hnewline] at hanswers
    obtain ⟨job, child, hmatched, -⟩ := Childproc.handleStdout_of_texts now hanswerable.1 htexts
    rw [hanswers] at hmatched
    cases hmatched

theorem flowing_of_reach (h : (system inCap outCap).Reach AnswerableJobs s) : s.Flowing :=
  h.invariant (I := Flowing) (flowing_init inCap outCap) (fun _ _ _ hi hok hs => hi.step hok hs)

/-! ## Progress -/

theorem length_pos {piece : List Byte} (h : piece ≠ []) : 0 < piece.length := List.length_pos_of_ne_nil h

/-- A byte that moves is nearer to its end. -/
theorem remaining_lt {a : Action} (hok : s.Productive a) (hs : s.step a = some t) : t.remaining < s.remaining := by
  cases steps_of_step hs with
  | nextJob => exact hok.elim
  | write hwriting hmoves hsplits hthere =>
    have hpos := length_pos hmoves
    simp only [remaining, unwritten, hwriting, hsplits, hthere, Option.elim_some, List.length_append]
    omega
  | written hwriting hmoves hthere =>
    have hpos := length_pos hmoves
    simp only [remaining, unwritten, hwriting, hthere, Option.elim_some, Option.elim_none, List.length_append, List.length_nil]
    omega
  | read hanswered hmoves hthere =>
    have hpos := length_pos hmoves
    simp only [remaining, unwritten, hthere, List.length_append]
    omega
  | respond hanswered hcomplete =>
    simp only [remaining, unwritten, hanswered, hcomplete, writeLine, List.length_append, List.length_cons, List.length_nil]
    omega
  | put hmoves hsplits hthere =>
    have hpos := length_pos hmoves
    simp only [remaining, unwritten, hsplits, hthere, List.length_append]
    omega
  | readSome hmoves hthere =>
    have hpos := length_pos hmoves
    simp only [remaining, unwritten, hthere, List.length_append]
    omega
  | matched hcomplete =>
    simp only [remaining, unwritten, hcomplete, List.length_append, List.length_cons]
    omega
  | ignored hcomplete =>
    simp only [remaining, unwritten, hcomplete, List.length_append, List.length_cons]
    omega

/-- Only a new job is given. -/
theorem given_of_productive {a : Action} (hok : s.Productive a) (hs : s.step a = some t) : t.given = s.given := by
  cases steps_of_step hs with
  | nextJob => exact hok.elim
  | _ => rfl

theorem Productive.answerableJobs {a : Action} (h : s.Productive a) : s.AnswerableJobs a := by
  rcases a with job | _ | _ | _ | _ | _ | _
  · exact h.elim
  all_goals trivial

/-- Where nothing can move, from the last pipe back: nothing is left in the pipes, and no line in the buffers. -/
theorem of_stuck (hin : 0 < inCap) (hout : 0 < outCap) (hroom : ∀ w ∈ s.writing, w.2 ≠ []) (hstuck : (system inCap outCap).Stuck Productive s) :
    newline ∉ s.buffer ∧ s.stdout.elems = [] ∧ s.answer = [] ∧ newline ∉ s.taken ∧ s.stdin.elems = [] ∧ s.writing = none := by
  have hbuffer : newline ∉ s.buffer := by
    have hnone : s.step (.handle 0) = none := hstuck (.handle 0) trivial
    exact not_mem_of_cut (Option.map_eq_none_iff.mp hnone)
  have hstdout : s.stdout.elems = [] := by
    by_contra hne
    obtain ⟨piece, q, hread⟩ := BoundedPipe.read_isSome hne
    have hnone : s.step (.readSome 1) = none := hstuck (.readSome 1) trivial
    simp only [Backpressure.step, hbuffer, not_false_eq_true, if_true, hread, Option.map_some, reduceCtorEq] at hnone
  have hanswer : s.answer = [] := by
    by_contra hne
    obtain ⟨q, rest, hwrite⟩ := BoundedPipe.write_isSome (p := s.stdout) hne (by rw [hstdout]; exact hout)
    have hnone : s.step (.put 1) = none := hstuck (.put 1) trivial
    simp only [Backpressure.step, hwrite, Option.map_some, reduceCtorEq] at hnone
  have htaken : newline ∉ s.taken := by
    have hnone : s.step .respond = none := hstuck .respond trivial
    simp only [Backpressure.step, hanswer, if_true] at hnone
    exact not_mem_of_cut (Option.map_eq_none_iff.mp hnone)
  have hstdin : s.stdin.elems = [] := by
    by_contra hne
    obtain ⟨piece, q, hread⟩ := BoundedPipe.read_isSome hne
    have hnone : s.step (.read 1) = none := hstuck (.read 1) trivial
    simp only [Backpressure.step, hanswer, htaken, not_false_eq_true, and_self, if_true, hread, Option.map_some, reduceCtorEq] at hnone
  refine ⟨hbuffer, hstdout, hanswer, htaken, hstdin, ?_⟩
  by_contra hne
  obtain ⟨⟨job, bytes⟩, hwriting⟩ := Option.ne_none_iff_exists'.mp hne
  obtain ⟨q, rest, hwrite⟩ := BoundedPipe.write_isSome (p := s.stdin) (hroom (job, bytes) hwriting) (by rw [hstdin]; exact hin)
  have hnone : s.step (.write 1) = none := hstuck (.write 1) trivial
  simp only [Backpressure.step, hwriting, Option.bind_some, hwrite, Option.map_some, reduceCtorEq] at hnone

/-- Where nothing can move, all jobs are done. -/
theorem Flowing.done_of_stuck (h : s.Flowing) (hin : 0 < inCap) (hout : 0 < outCap) (hstuck : (system inCap outCap).Stuck Productive s) :
    s.done = s.given := by
  obtain ⟨hbuffer, hstdout, hanswer, htaken, hstdin, hwriting⟩ := of_stuck hin hout (fun w hw => (h.room w hw).2) hstuck
  have hflow := h.flow
  have horder := h.order
  simp only [stream, unwritten, beingWritten, hstdout, hanswer, hstdin, hwriting, Option.elim_none, Option.toList_none, List.map_nil,
    List.append_nil] at hflow horder
  rcases htexts : s.child.texts with _ | ⟨text, texts⟩
  · rw [htexts, List.append_nil] at horder
    exact horder
  · rw [htexts] at hflow
    have hmem : newline ∈ s.buffer ++ s.taken := by
      rw [hflow]
      simp [writeLine]
    rcases List.mem_append.mp hmem with hmem | hmem
    · exact absurd hmem hbuffer
    · exact absurd hmem htaken

/-- Whatever the capacities of the two pipes, down to one byte, and however long the jobs are: in every run on jobs that can be answered the
jobs done are the first of those given; and from every state all of them come to be done, in whatever pieces the bytes move and whoever goes
first. -/
theorem full_pipes_do_not_block (inCap outCap : Nat) (hin : 0 < inCap) (hout : 0 < outCap) (s : Backpressure inCap outCap)
    (h : (system inCap outCap).Reach AnswerableJobs s) :
    s.done <+: s.given ∧ (system inCap outCap).ComesTo Productive s.remaining (fun t => t.done = s.given) s := by
  refine ⟨⟨s.child.texts ++ s.beingWritten, ?_⟩, ?_⟩
  · rw [← List.append_assoc]
    exact (flowing_of_reach h).order
  · have hlowers : (system inCap outCap).Lowers Productive
        (fun t => (system inCap outCap).Reach AnswerableJobs t ∧ t.given = s.given) remaining := by
      refine ⟨?_, fun t a u _ hok hs => remaining_lt hok hs⟩
      rintro t a u ⟨hreach, hsame⟩ hok hs
      exact ⟨hreach.step a hok.answerableJobs hs, (given_of_productive hok hs).trans hsame⟩
    refine hlowers.comesTo ⟨h, rfl⟩ ?_
    rintro t ⟨hreach, hsame⟩ hstuck
    exact ((flowing_of_reach hreach).done_of_stuck hin hout hstuck).trans hsame

/-- Two jobs of three bytes through pipes of one byte, when the first one is on its way back and the second one is being written. -/
theorem full_pipes_do_not_block_run :
    ∃ s : Backpressure 1 1, s.given = [[97, 97], [98, 98]] ∧ s.done = [] ∧ s.stdin.elems = [98] ∧ s.stdout.elems = [97] ∧
      (system 1 1).ComesTo Productive s.remaining (fun t => t.done = [[97, 97], [98, 98]]) s := by
  obtain ⟨s, hs, hp⟩ := System.reach_of_restrict_run (S := system 1 1) AnswerableJobs
    [.nextJob ⟨[97, 97], 0, 0⟩, .write 1, .read 1, .write 1, .read 1, .write 1, .nextJob ⟨[98, 98], 1, 0⟩, .read 1, .write 1, .respond,
      .put 1]
    (fun s => s.given == [[97, 97], [98, 98]] && s.done == [] && s.stdin.elems == [98] && s.stdout.elems == [97]) (by decide)
  simp only [Bool.and_eq_true, beq_iff_eq] at hp
  obtain ⟨⟨⟨hgiven, hdone⟩, hstdin⟩, hstdout⟩ := hp
  have hcomes := (full_pipes_do_not_block 1 1 (by decide) (by decide) s hs).2
  rw [hgiven] at hcomes
  exact ⟨s, hgiven, hdone, hstdin, hstdout, hcomes⟩

end Backpressure

end FostWright
