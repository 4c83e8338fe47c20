import FostWright.ChildStdin
import Mathlib.Data.List.Chain

/-!
# When writes to one child mix

In the pipe of a child two neighbouring bytes belong to one write, or the first is the newline that ends its line: that is what it
means for the lines to be whole, and it can be read off the bytes. It holds as long as no coroutine puts bytes into the pipe while
the other is in the middle of a line. A line that does not fit in the pipe leaves its writer there, and a resend or a dispatch
then breaks it for good.
-/

namespace FostWright

open Lib

namespace ChildStdin

/-! ## Neighbouring bytes -/

/-- Two neighbouring bytes belong to one write, or the first one ends a line. -/
def Joined (bytes : List (Nat × Byte)) : Prop := bytes.IsChain (fun x y => x.1 = y.1 ∨ x.2 = newline)

/-- The bytes of one write. -/
theorem joined_markedLine (id : Nat) (command : Line) : Joined (markedLine id command) := by
  refine List.Pairwise.isChain ?_
  unfold markedLine
  rw [List.pairwise_map]
  exact List.pairwise_of_forall (fun _ _ => Or.inl rfl)

/-- A line ends in a newline. -/
theorem getLast?_markedLine (id : Nat) (command : Line) : (markedLine id command).getLast? = some (id, newline) := by
  simp [markedLine, writeLine]

/-- Whole lines, and what begins a further one. -/
theorem joined_wholeLines (ws : List (Nat × Line)) {rest : List (Nat × Byte)} (hrest : Joined rest) :
    Joined (wholeLines ws ++ rest) := by
  induction ws with
  | nil => exact hrest
  | cons w ws ih =>
    unfold wholeLines at ih ⊢
    rw [List.flatMap_cons, List.append_assoc]
    refine (joined_markedLine w.1 w.2).append ih ?_
    intro x hx y _
    rw [getLast?_markedLine, Option.mem_some_iff] at hx
    exact Or.inr (hx ▸ rfl)

/-- In a pipe with whole lines all neighbours are joined. -/
theorem Whole.joined {s : ChildStdin} (h : s.Whole) : Joined s.pipe := by
  obtain ⟨ws, rest, hpipe, -, hrest⟩ := h
  rw [hpipe]
  refine joined_wholeLines ws ?_
  rcases hrest with rfl | ⟨id, command, -, t, ht⟩
  · exact List.isChain_nil
  · have hline := joined_markedLine id command
    rw [← ht] at hline
    exact hline.left_of_append

/-! ## What holds of the two writers in any run -/

/-- A job whose text has no newline and is one of those given to the child. -/
def Known (s : ChildStdin) (job : Job) : Prop := newline ∉ job.command ∧ job.command ∈ s.jobs

/-- A write in progress is not complete and is for a known job, the two writes in progress have different numbers, and the jobs in
the queue are known. -/
structure Sound (s : ChildStdin) : Prop where
  writing : ∀ who w, s.writing who = some w → w.written < w.line.length ∧ s.Known w.job ∧ w.id < s.writes
  numbers : ∀ who w w', s.writing who = some w → s.writing who.other = some w' → w.id ≠ w'.id
  queue : ∀ job ∈ s.child.commands.elems, s.Known job

theorem length_line (w : Write) : w.line.length = w.job.command.length + 1 := by
  simp [Write.line, markedLine, writeLine]

/-- A coroutine is in a new write, or further in its write. -/
theorem Sound.put {s s' : ChildStdin} (h : s.Sound) {who : Writer} {v : Write}
    (hwriting : s'.writing = Function.update s.writing who (some v)) (hchild : s'.child = s.child) (hjobs : s'.jobs = s.jobs)
    (hwrites : s.writes ≤ s'.writes) (hlen : v.written < v.line.length) (hknown : s.Known v.job) (hid : v.id < s'.writes)
    (hother : ∀ w, s.writing who.other = some w → v.id ≠ w.id) : s'.Sound := by
  have hkeep : ∀ job, s.Known job → s'.Known job := by
    intro job hjob
    unfold Known
    rw [hjobs]
    exact hjob
  refine ⟨?_, ?_, ?_⟩
  · intro who' w hw
    rw [hwriting] at hw
    by_cases hwho : who' = who
    · subst hwho
      rw [Function.update_self, Option.some.injEq] at hw
      subst hw
      exact ⟨hlen, hkeep _ hknown, hid⟩
    · rw [Function.update_of_ne hwho] at hw
      obtain ⟨hlen', hknown', hid'⟩ := h.writing who' w hw
      exact ⟨hlen', hkeep _ hknown', Nat.lt_of_lt_of_le hid' hwrites⟩
  · intro who' w w' hw hw'
    rw [hwriting] at hw hw'
    rcases Writer.eq_or_eq_other who who' with rfl | rfl
    · rw [Function.update_self, Option.some.injEq] at hw
      rw [Function.update_of_ne (Writer.other_ne who')] at hw'
      subst hw
      exact hother w' hw'
    · rw [Function.update_of_ne (Writer.other_ne who)] at hw
      rw [Writer.other_other, Function.update_self, Option.some.injEq] at hw'
      subst hw'
      exact Ne.symm (hother w hw)
  · intro job hjob
    rw [hchild] at hjob
    exact hkeep job (h.queue job hjob)

/-- The start of a write. -/
theorem Sound.start {s : ChildStdin} (h : s.Sound) (who : Writer) {job : Job} (hjob : s.Known job) : (s.start who job).Sound := by
  refine h.put rfl rfl rfl (Nat.le_succ _) ?_ hjob (Nat.lt_succ_self _) ?_
  · rw [length_line]
    exact Nat.succ_pos _
  · intro w hw
    exact Ne.symm (Nat.ne_of_lt (h.writing _ w hw).2.2)

/-- A coroutine leaves a write. -/
theorem Sound.stop {s : ChildStdin} (h : s.Sound) (who : Writer) : (s.stop who).Sound := by
  have hsub : ∀ who' w, (s.stop who).writing who' = some w → s.writing who' = some w := by
    intro who' w hw
    by_cases hwho : who' = who
    · subst hwho
      simp [ChildStdin.stop] at hw
    · simpa only [ChildStdin.stop, Function.update_of_ne hwho] using hw
  exact ⟨fun who' w hw => h.writing who' w (hsub _ _ hw),
    fun who' w w' hw hw' => h.numbers who' w w' (hsub _ _ hw) (hsub _ _ hw'), h.queue⟩

/-- A resend goes on to the next command of the queue. -/
theorem Sound.resendFrom {s : ChildStdin} (h : s.Sound) (i : Nat) : (s.resendFrom i).Sound := by
  unfold ChildStdin.resendFrom
  split
  · rename_i job hjob
    have hstart := h.start .childRequests (h.queue job (List.mem_of_getElem? hjob))
    exact ⟨hstart.writing, hstart.numbers, hstart.queue⟩
  · exact h.stop .childRequests

/-- A write is complete: the job is pushed on the queue, or the resend goes on. -/
theorem Sound.finish {s : ChildStdin} (h : s.Sound) {who : Writer} {w : Write} (hw : s.writing who = some w) :
    (s.finish who w).Sound := by
  cases who with
  | nextJob =>
    have hstop := h.stop .nextJob
    refine ⟨hstop.writing, hstop.numbers, ?_⟩
    intro job hjob
    have hmem : job ∈ s.child.commands.elems ++ [w.job] := List.mem_of_mem_drop hjob
    rcases List.mem_append.mp hmem with hmem | hmem
    · exact h.queue job hmem
    · rw [List.mem_singleton] at hmem
      exact hmem ▸ (h.writing _ w hw).2.1
  | childRequests => exact h.resendFrom _

/-- One action. -/
theorem Sound.step {s s' : ChildStdin} {a : Action} (h : s.Sound) (hs : s.step a = some s') : s'.Sound := by
  cases steps_of_step hs with
  | @dispatch text limiter time =>
    have hmore : ({ s with jobs := s.jobs ++ [text.text] } : ChildStdin).Sound := by
      refine ⟨?_, h.numbers, ?_⟩
      · intro who w hw
        obtain ⟨hlen, ⟨hplain, hjob⟩, hid⟩ := h.writing who w hw
        exact ⟨hlen, ⟨hplain, List.mem_append_left _ hjob⟩, hid⟩
      · intro job hjob
        exact ⟨(h.queue job hjob).1, List.mem_append_left _ (h.queue job hjob).2⟩
    have hknown : ({ s with jobs := s.jobs ++ [text.text] } : ChildStdin).Known ⟨text.text, limiter, time⟩ :=
      ⟨text.noNewline, List.mem_append_right _ (List.mem_singleton_self _)⟩
    exact hmore.start .nextJob hknown
  | request => exact h.resendFrom 0
  | @finishes who w k hw =>
    have hpipe : ({ s with pipe := s.pipe ++ (w.line.drop w.written).take k } : ChildStdin).Sound :=
      ⟨h.writing, h.numbers, h.queue⟩
    exact hpipe.finish hw
  | @advances who w k hw _ hpart =>
    obtain ⟨-, hknown, hid⟩ := h.writing who w hw
    exact h.put rfl rfl rfl le_rfl hpart hknown hid (fun w' hw' => h.numbers who w w' hw hw')
  | completed => exact ⟨h.writing, h.numbers, fun job hjob => h.queue job (List.mem_of_mem_tail hjob)⟩

/-! ## Whole lines and one beginning -/

/-- The bytes of the write of a coroutine that are in the pipe. -/
def begun (s : ChildStdin) (who : Writer) : List (Nat × Byte) :=
  match s.writing who with
  | some w => w.line.take w.written
  | none => []

/-- The pipe holds whole lines and what one coroutine has begun; the other has begun nothing. -/
def TidyFor (s : ChildStdin) (who : Writer) : Prop :=
  ∃ ws : List (Nat × Line), (∀ w ∈ ws, w.2 ∈ s.jobs) ∧ (∀ w ∈ s.writing who.other, w.written = 0) ∧
    s.pipe = wholeLines ws ++ s.begun who

theorem begun_eq_nil {s : ChildStdin} {who : Writer} (h : ∀ w ∈ s.writing who, w.written = 0) : s.begun who = [] := by
  unfold begun
  split
  · rename_i w hw
    rw [h w hw, List.take_zero]
  · rfl

/-- When the other coroutine has begun nothing, it does not matter which one is asked for. -/
theorem TidyFor.turn {s : ChildStdin} {who who' : Writer} (h : s.TidyFor who)
    (hzero : ∀ w ∈ s.writing who'.other, w.written = 0) : s.TidyFor who' := by
  rcases Writer.eq_or_eq_other who who' with rfl | rfl
  · exact h
  · obtain ⟨ws, hws, hother, hpipe⟩ := h
    rw [Writer.other_other] at hzero
    refine ⟨ws, hws, ?_, ?_⟩
    · rw [Writer.other_other]
      exact hzero
    · rw [hpipe, begun_eq_nil hzero, begun_eq_nil hother]

/-- A change that begins nothing and puts nothing into the pipe. -/
theorem TidyFor.keep {s s' : ChildStdin} {who : Writer} (h : s.TidyFor who) (hpipe : s'.pipe = s.pipe)
    (hjobs : ∀ text ∈ s.jobs, text ∈ s'.jobs)
    (hwriting : ∀ who, s'.writing who = s.writing who ∨ s.writing who = none ∧ ∀ w ∈ s'.writing who, w.written = 0) :
    s'.TidyFor who := by
  obtain ⟨ws, hws, hother, hbytes⟩ := h
  refine ⟨ws, fun w hw => hjobs _ (hws w hw), ?_, ?_⟩
  · rcases hwriting who.other with heq | ⟨-, hzero⟩
    · rw [heq]
      exact hother
    · exact hzero
  · rw [hpipe, hbytes]
    rcases hwriting who with heq | ⟨hnone, hzero⟩
    · unfold begun
      rw [heq]
    · have hnil : s.begun who = [] := by
        unfold begun
        rw [hnone]
      rw [begun_eq_nil hzero, hnil]

/-- Tidy bytes are whole lines and at most the beginning of one further line. -/
theorem TidyFor.whole {s : ChildStdin} {who : Writer} (h : s.TidyFor who) (hsound : s.Sound) : s.Whole := by
  obtain ⟨ws, hws, -, hpipe⟩ := h
  refine ⟨ws, s.begun who, hpipe, hws, ?_⟩
  cases hw : s.writing who with
  | none =>
    refine Or.inl ?_
    unfold begun
    rw [hw]
  | some w =>
    refine Or.inr ⟨w.id, w.job.command, (hsound.writing who w hw).2.1.2, ?_⟩
    unfold begun
    rw [hw]
    exact List.take_prefix _ _

/-- A coroutine that starts a write, or stops, has begun nothing. -/
theorem writing_resendFrom (s : ChildStdin) (i : Nat) :
    (∀ w ∈ (s.resendFrom i).writing .childRequests, w.written = 0) ∧
      (s.resendFrom i).writing .nextJob = s.writing .nextJob ∧ (s.resendFrom i).pipe = s.pipe ∧
      (s.resendFrom i).jobs = s.jobs := by
  unfold resendFrom
  split
  · refine ⟨?_, rfl, rfl, rfl⟩
    intro w hw
    simp only [start, Function.update_self, Option.mem_def, Option.some.injEq] at hw
    subst hw
    rfl
  · refine ⟨?_, rfl, rfl, rfl⟩
    intro w hw
    simp [stop] at hw

/-- A coroutine whose write is complete has begun nothing then, and the other one is where it was. -/
theorem writing_finish (s : ChildStdin) (who : Writer) (w : Write) :
    (∀ v ∈ (s.finish who w).writing who, v.written = 0) ∧ (s.finish who w).writing who.other = s.writing who.other ∧
      (s.finish who w).pipe = s.pipe ∧ (s.finish who w).jobs = s.jobs := by
  cases who with
  | nextJob =>
    refine ⟨?_, rfl, rfl, rfl⟩
    intro v hv
    simp [finish, stop] at hv
  | childRequests => exact s.writing_resendFrom _

/-- More bytes of the line that was begun, or the first ones of a line. -/
theorem TidyFor.write {s : ChildStdin} {who : Writer} (h : s.TidyFor who) (hsound : s.Sound) {w : Write}
    (hw : s.writing who = some w) (k : Nat) :
    (w.written + k = w.line.length →
      (({ s with pipe := s.pipe ++ (w.line.drop w.written).take k } : ChildStdin).finish who w).TidyFor who) ∧
    ({ s with
      pipe := s.pipe ++ (w.line.drop w.written).take k
      writing := Function.update s.writing who (some { w with written := w.written + k }) } : ChildStdin).TidyFor who := by
  obtain ⟨ws, hws, hother, hpipe⟩ := h
  have hbytes : s.pipe ++ (w.line.drop w.written).take k = wholeLines ws ++ w.line.take (w.written + k) := by
    rw [hpipe, List.take_add, List.append_assoc]
    unfold begun
    rw [hw]
  constructor
  · intro hall
    obtain ⟨hzero, hsame, hp, hj⟩ :=
      writing_finish ({ s with pipe := s.pipe ++ (w.line.drop w.written).take k } : ChildStdin) who w
    refine ⟨ws ++ [(w.id, w.job.command)], ?_, ?_, ?_⟩
    · intro v hv
      rw [hj]
      rcases List.mem_append.mp hv with hv | hv
      · exact hws v hv
      · rw [List.mem_singleton] at hv
        exact hv ▸ (hsound.writing who w hw).2.1.2
    · rw [hsame]
      exact hother
    · rw [hp, begun_eq_nil hzero, List.append_nil]
      change s.pipe ++ _ = _
      rw [hbytes, hall, List.take_length]
      unfold wholeLines
      rw [List.flatMap_append, List.flatMap_singleton]
      rfl
  · refine ⟨ws, hws, ?_, ?_⟩
    · simp only [Function.update_of_ne (Writer.other_ne who)]
      exact hother
    · change s.pipe ++ _ = _
      rw [hbytes]
      unfold begun
      simp only [Function.update_self]
      rfl

/-- An action in turn keeps the bytes tidy. -/
theorem tidy_step {s s' : ChildStdin} {a : Action} (h : ∃ who, s.TidyFor who) (hsound : s.Sound) (hturn : s.TakesTurns a)
    (hs : s.step a = some s') : ∃ who, s'.TidyFor who := by
  obtain ⟨who, h⟩ := h
  cases steps_of_step hs with
  | dispatch hfree =>
    refine ⟨who, h.keep rfl (fun t ht => List.mem_append_left _ ht) ?_⟩
    intro who'
    cases who' with
    | nextJob =>
      refine Or.inr ⟨hfree, ?_⟩
      intro w hw
      simp only [start, Function.update_self, Option.mem_def, Option.some.injEq] at hw
      subst hw
      rfl
    | childRequests => exact Or.inl rfl
  | request hfree =>
    obtain ⟨hzero, hsame, hp, hj⟩ := s.writing_resendFrom 0
    refine ⟨who, h.keep hp (fun t ht => hj ▸ ht) ?_⟩
    intro who'
    cases who' with
    | nextJob => exact Or.inl hsame
    | childRequests => exact Or.inr ⟨hfree, hzero⟩
  | @finishes who' w k hw _ hall => exact ⟨who', ((h.turn hturn).write hsound hw k).1 hall⟩
  | @advances who' w k hw => exact ⟨who', ((h.turn hturn).write hsound hw k).2⟩
  | completed => exact ⟨who, h.keep rfl (fun _ ht => ht) (fun _ => Or.inl rfl)⟩

/-! ## A line that is broken into -/

/-- A write puts the next bytes of its line into the pipe. -/
theorem pipe_write {s s' : ChildStdin} {who : Writer} {k : Nat} (hs : s.step (.write who k) = some s') :
    ∃ w, s.writing who = some w ∧ 0 < k ∧ w.written + k ≤ w.line.length ∧
      s'.pipe = s.pipe ++ (w.line.drop w.written).take k := by
  cases steps_of_step hs with
  | @finishes _ w _ hw hk hall => exact ⟨w, hw, hk, hall.le, (writing_finish _ who w).2.2.1⟩
  | @advances _ w _ hw hk hpart => exact ⟨w, hw, hk, hpart.le, rfl⟩

/-- Bytes are only ever added to the pipe. -/
theorem pipe_step {s s' : ChildStdin} {a : Action} (hs : s.step a = some s') : ∃ more, s'.pipe = s.pipe ++ more := by
  cases steps_of_step hs with
  | dispatch => exact ⟨[], (List.append_nil _).symm⟩
  | request => exact ⟨[], (s.writing_resendFrom 0).2.2.1.trans (List.append_nil _).symm⟩
  | @finishes who w => exact ⟨_, (writing_finish _ who w).2.2.1⟩
  | advances => exact ⟨_, rfl⟩
  | completed => exact ⟨[], (List.append_nil _).symm⟩

/-- The last byte of a line that is begun and not complete is not a newline. -/
theorem getLast?_take {w : Write} (hlen : w.written < w.line.length) (hplain : newline ∉ w.job.command)
    {x : Nat × Byte} (hx : x ∈ (w.line.take w.written).getLast?) : x.1 = w.id ∧ x.2 ≠ newline := by
  rw [length_line] at hlen
  have hmem := List.mem_of_getLast? hx
  have htake : w.line.take w.written = (w.job.command.take w.written).map (Prod.mk w.id) := by
    unfold Write.line markedLine writeLine
    rw [← List.map_take, List.take_append_of_le_length (by omega)]
  rw [htake] at hmem
  obtain ⟨b, hb, rfl⟩ := List.mem_map.mp hmem
  exact ⟨rfl, fun hnl => hplain (hnl ▸ List.mem_of_mem_take hb)⟩

/-- A byte put into the pipe out of turn stands right after a byte of another write that does not end its line. -/
theorem not_joined_of_not_takesTurns {s s' : ChildStdin} {a : Action} (h : ∃ who, s.TidyFor who) (hsound : s.Sound)
    (hturn : ¬ s.TakesTurns a) (hs : s.step a = some s') : ¬ Joined s'.pipe := by
  cases a with
  | dispatch => exact absurd trivial hturn
  | request => exact absurd trivial hturn
  | completed => exact absurd trivial hturn
  | write who k =>
    obtain ⟨w', hw', hne⟩ : ∃ w' ∈ s.writing who.other, w'.written ≠ 0 := by
      simpa [TakesTurns] using hturn
    obtain ⟨w, hw, hk, hle, hpipe'⟩ := pipe_write hs
    obtain ⟨who₀, ws, -, hother, hpipe⟩ := h
    have hwho : who₀ = who.other := by
      rcases Writer.eq_or_eq_other who who₀ with rfl | heq
      · exact absurd (hother w' hw') hne
      · exact heq
    subst hwho
    have hbegun : s.begun who.other = w'.line.take w'.written := by
      unfold begun
      rw [Option.mem_def.mp hw']
    obtain ⟨hlen, ⟨hplain, -⟩, -⟩ := hsound.writing _ w' hw'
    intro hjoined
    rw [hpipe', hpipe, hbegun] at hjoined
    obtain ⟨-, -, hnext⟩ := List.isChain_append.mp hjoined
    -- the last byte of the line begun, and the first one written out of turn
    obtain ⟨x, hx⟩ : ∃ x, (w'.line.take w'.written).getLast? = some x := by
      rw [← Option.ne_none_iff_exists', ne_eq, List.getLast?_eq_none_iff, ← List.length_eq_zero_iff, List.length_take]
      omega
    obtain ⟨y, hy⟩ : ∃ y, ((w.line.drop w.written).take k).head? = some y := by
      rw [← Option.ne_none_iff_exists', ne_eq, List.head?_eq_none_iff, ← List.length_eq_zero_iff, List.length_take,
        List.length_drop]
      omega
    have hxlast : x ∈ (wholeLines ws ++ w'.line.take w'.written).getLast? := by
      rw [List.getLast?_append, hx]
      rfl
    obtain ⟨hxid, hxnl⟩ := getLast?_take hlen hplain hx
    have hyid : y.1 = w.id := by
      have hmem := List.mem_of_mem_drop (List.mem_of_mem_take (List.mem_of_head? hy))
      obtain ⟨b, -, rfl⟩ := List.mem_map.mp hmem
      rfl
    rcases hnext x hxlast y hy with heq | hnl
    · exact hsound.numbers who w w' hw hw' (hyid.symm.trans (heq.symm.trans hxid))
    · exact hxnl hnl

/-! ## Runs -/

/-- What is broken stays broken. -/
theorem not_joined_of_run {s t : ChildStdin} {as : List Action} (h : ¬ Joined s.pipe) (hrun : system.run s as = some t) :
    ¬ Joined t.pipe := by
  induction as generalizing s with
  | nil =>
    cases hrun
    exact h
  | cons a as ih =>
    obtain ⟨u, hs, hrun⟩ := Option.bind_eq_some_iff.mp hrun
    obtain ⟨more, hmore⟩ := pipe_step hs
    refine ih (fun hjoined => h ?_) hrun
    rw [hmore] at hjoined
    exact hjoined.left_of_append

/-- From a tidy state: a run in turn ends in a tidy state, and any other run breaks a line. -/
theorem tidy_of_run {s t : ChildStdin} {as : List Action} (h : ∃ who, s.TidyFor who) (hsound : s.Sound)
    (hrun : system.run s as = some t) :
    (system.Meets TakesTurns s as → t.Whole) ∧ (¬ system.Meets TakesTurns s as → ¬ Joined t.pipe) := by
  induction as generalizing s with
  | nil =>
    cases hrun
    obtain ⟨who, htidy⟩ := h
    exact ⟨fun _ => htidy.whole hsound, fun hno => absurd trivial hno⟩
  | cons a as ih =>
    obtain ⟨u, hs, hrun⟩ := Option.bind_eq_some_iff.mp hrun
    rw [System.meets_cons hs]
    by_cases hturn : s.TakesTurns a
    · obtain ⟨hyes, hno⟩ := ih (tidy_step h hsound hturn hs) (hsound.step hs) hrun
      exact ⟨fun hmeets => hyes hmeets.2, fun hmeets => hno (fun hu => hmeets ⟨hturn, hu⟩)⟩
    · exact ⟨fun hmeets => absurd hmeets.1 hturn,
        fun _ => not_joined_of_run (not_joined_of_not_takesTurns h hsound hturn hs) hrun⟩

/-- In every run, the bytes in the pipe are whole lines of job texts and at most the beginning of one further line exactly when no
coroutine put bytes there while the other was in the middle of a line. -/
theorem whole_iff_takesTurns (as : List Action) (s : ChildStdin) (hrun : system.run system.init as = some s) :
    s.Whole ↔ system.Meets TakesTurns system.init as := by
  have htidy : ∃ who, system.init.TidyFor who :=
    ⟨.nextJob, [], fun w hw => absurd hw List.not_mem_nil, (fun w hw => nomatch hw), rfl⟩
  have hsound : system.init.Sound :=
    ⟨(fun who w hw => nomatch hw), (fun who w w' hw => nomatch hw), fun job hjob => absurd hjob List.not_mem_nil⟩
  obtain ⟨hyes, hno⟩ := tidy_of_run htidy hsound hrun
  refine ⟨?_, hyes⟩
  intro hwhole
  by_contra hmeets
  exact hno hmeets hwhole.joined

/-- A dispatch in two pieces and a resend after it. -/
theorem whole_iff_takesTurns_run :
    ∃ as s, system.run system.init as = some s ∧ s.pipe = [(0, 99), (0, 10), (1, 99), (1, 10)] ∧
      (s.Whole ↔ system.Meets TakesTurns system.init as) := by
  have hrun : (system.run system.init
      [.dispatch ⟨[99], of_decide_eq_true rfl⟩ 0 0, .write .nextJob 1, .write .nextJob 1, .request,
        .write .childRequests 2]).map ChildStdin.pipe = some [(0, 99), (0, 10), (1, 99), (1, 10)] := by decide
  obtain ⟨s, hs, hpipe⟩ := Option.map_eq_some_iff.mp hrun
  exact ⟨_, s, hs, hpipe, whole_iff_takesTurns _ s hs⟩

/-- The job `ab` is in the pipe with its first byte when the job `c` is sent again: the worker reads `ac` and `b`. -/
theorem lines_mixed :
    ¬ ∀ (as : List Action) (s : ChildStdin), system.run system.init as = some s → s.Whole := by
  intro h
  have hrun : (system.run system.init
      [.dispatch ⟨[99], of_decide_eq_true rfl⟩ 0 0, .write .nextJob 2,
        .dispatch ⟨[97, 98], of_decide_eq_true rfl⟩ 1 0, .write .nextJob 1, .request,
        .write .childRequests 2, .write .nextJob 2]).map ChildStdin.pipe =
      some [(0, 99), (0, 10), (1, 97), (2, 99), (2, 10), (1, 98), (1, 10)] := by decide
  obtain ⟨s, hs, hpipe⟩ := Option.map_eq_some_iff.mp hrun
  have hjoined := (h _ s hs).joined
  rw [hpipe] at hjoined
  exact absurd hjoined (by unfold Joined; decide)

end ChildStdin

end FostWright
