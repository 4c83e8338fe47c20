import FostWright.Lemmas.Roundtrip

/-!
# Which jobs are completed

The commands given to a child are those it has finished and those in its queue (`Books`), and their lines are those that have been
handled, those on the way back and those on the way there (`Streams`). A command in its turn is answered by one line, which matches it,
when it is answerable; the first that is not stays at the front of the queue, and with it all that follow.
-/

namespace FostWright

open Lib

namespace Roundtrip

/-! ## The lines of commands -/

/-- The lines of a list of commands. -/
def lines (commands : List Command) : List Line := commands.flatMap (fun command => linesIn command.1)

theorem lines_append (cs ds : List Command) : lines (cs ++ ds) = lines cs ++ lines ds := List.flatMap_append

/-- Commands that are answerable are as many lines. -/
theorem length_lines {cs : List Command} (h : ∀ c ∈ cs, Answerable c.1) : (lines cs).length = cs.length := by
  induction cs with
  | nil => rfl
  | cons c cs ih =>
    have htail := ih (fun d hd => h d (List.mem_cons_of_mem c hd))
    have hsplit : lines (c :: cs) = linesIn c.1 ++ lines cs := rfl
    rw [hsplit, linesIn_of_answerable (h c List.mem_cons_self), List.length_append, htail, List.length_singleton, List.length_cons,
      Nat.add_comm]

theorem not_mem_lines {cs : List Command} {w : Line} (h : w ∈ lines cs) : newline ∉ w := by
  obtain ⟨c, -, hw⟩ := List.mem_flatMap.mp h
  exact not_mem_linesIn hw

/-- What is written of commands are their lines. -/
theorem frames_lines (cs : List Command) : frames newline (lines cs) = cs.flatMap (fun c => writeLine c.1) := by
  induction cs with
  | nil => rfl
  | cons c cs ih =>
    have hsplit : lines (c :: cs) = linesIn c.1 ++ lines cs := rfl
    rw [hsplit, frames_append, ih, frames_linesIn]
    rfl

/-! ## The streams -/

/-- Where the lines are: `ws` have been handled, `vs` are answers that have not been, `us` is what the worker has not read. -/
structure Streams (s : Roundtrip) (ws vs us : List Line) : Prop where
  split : lines s.given = ws ++ vs ++ us
  framed : s.output.Framed newline ws
  arrived : s.output.arrived = frames newline (ws ++ vs)
  stdin : s.stdin = frames newline us
  handled : s.handled = ws.map readLine

section Streams

variable {s : Roundtrip} {ws vs us : List Line}

/-- Commands are written and pushed. -/
theorem Streams.give (h : s.Streams ws vs us) {t : Roundtrip} (cs : List Command) (hgiven : t.given = s.given ++ cs)
    (hstdin : t.stdin = s.stdin ++ cs.flatMap (fun c => writeLine c.1)) (houtput : t.output = s.output)
    (hhandled : t.handled = s.handled) : t.Streams ws vs (us ++ lines cs) := by
  refine ⟨?_, ?_, ?_, ?_, ?_⟩
  · rw [hgiven, lines_append, h.split, List.append_assoc (ws ++ vs)]
  · rw [houtput]
    exact h.framed
  · rw [houtput]
    exact h.arrived
  · rw [hstdin, h.stdin, frames_append, frames_lines]
  · rw [hhandled]
    exact h.handled

/-- The worker answers a line. -/
theorem Streams.answer (h : s.Streams ws vs us) {p : Line × List Byte} (hcut : cut newline s.stdin = some p) {output : Reader Byte}
    (hfeed : s.output.feed newline (.arrive (writeLine p.1)) = some output) :
    ∃ vs' us', ({ s with stdin := p.2, output := output } : Roundtrip).Streams ws vs' us' := by
  cases us with
  | nil =>
    rw [h.stdin] at hcut
    cases hcut
  | cons u us =>
    have hu : u ∈ lines s.given := by
      rw [h.split]
      simp
    rw [h.stdin, frames_cons, cut_frame (not_mem_lines hu)] at hcut
    cases hcut
    have harrived : output.arrived = s.output.arrived ++ writeLine u := by
      obtain ⟨-, rfl⟩ := (Option.ite_none_left_eq_some.mp hfeed).imp_right Option.some.inj
      rfl
    refine ⟨vs ++ [u], us, ?_, h.framed.feed hfeed, ?_, rfl, h.handled⟩
    · rw [h.split]
      simp
    · change output.arrived = _
      rw [harrived, h.arrived]
      simp [frames, writeLine]

/-- The manager reads a piece of the answers. -/
theorem Streams.readSome (h : s.Streams ws vs us) {j : Nat} {output : Reader Byte}
    (hfeed : s.output.feed newline (.readSome j) = some output) : ({ s with output := output } : Roundtrip).Streams ws vs us := by
  refine ⟨h.split, h.framed.feed hfeed, ?_, h.stdin, h.handled⟩
  obtain ⟨-, rfl⟩ := (Option.ite_none_right_eq_some.mp hfeed).imp_right Option.some.inj
  exact h.arrived

/-- The line that is read from the stdout is the next answer. -/
theorem Streams.next (h : s.Streams ws vs us) {w rest : List Byte} (hbuffer : s.output.buffer = w ++ newline :: rest)
    (hw : newline ∉ w) : ∃ vs', vs = w :: vs' := by
  have hframed := (h.framed.take hbuffer hw).unframe_arrived
  have hall : unframe newline s.output.arrived = (ws ++ vs, []) := by
    rw [h.arrived]
    refine unframe_frames_nil ?_
    intro v hv
    have hgiven : v ∈ lines s.given := by
      rw [h.split]
      exact List.mem_append_left us hv
    exact not_mem_lines hgiven
  rw [hall, List.append_assoc, Prod.mk.injEq, List.append_cancel_left_eq] at hframed
  exact ⟨_, hframed.1⟩

/-- It is handled. -/
theorem Streams.take {w : Line} (h : s.Streams ws (w :: vs) us) {rest : List Byte} (hbuffer : s.output.buffer = w ++ newline :: rest)
    (hw : newline ∉ w) {t : Roundtrip} (hgiven : t.given = s.given) (hstdin : t.stdin = s.stdin)
    (houtput : t.output = { s.output with buffer := rest }) (hhandled : t.handled = s.handled ++ [readLine w]) :
    t.Streams (ws ++ [w]) vs us := by
  refine ⟨?_, ?_, ?_, ?_, ?_⟩
  · rw [hgiven, h.split]
    simp
  · rw [houtput]
    exact h.framed.take hbuffer hw
  · rw [houtput, h.arrived]
    simp
  · rw [hstdin]
    exact h.stdin
  · rw [hhandled, h.handled]
    simp

end Streams

/-! ## The books -/

/-- The commands given to the child `k` are those that are finished and those in its queue. Those that are finished are answerable, were
printed, and their tokens are gone. -/
structure Books (k : Nat) (s : Roundtrip) (child : Childproc) : Prop where
  member : s.helper.control.cap.pool.children[k]? = some child
  given : s.given = s.finished ++ child.queue
  answerable : ∀ command ∈ s.finished, Answerable command.1
  printed : ∀ command ∈ s.finished, command.1 ∈ s.helper.control.cap.stdout
  released : ∀ command ∈ s.finished,
    command.2 < s.helper.control.cap.limiter.issued ∧ command.2 ∉ s.helper.control.cap.limiter.live

section Books

variable {n k : Nat} {s : Roundtrip} {child : Childproc}

/-- Nothing happens to what the books are about. -/
theorem Books.congr (h : s.Books k child) {t : Roundtrip} (hcap : t.helper.control.cap = s.helper.control.cap)
    (hgiven : t.given = s.given) (hfinished : t.finished = s.finished) : t.Books k child := by
  obtain ⟨hmember, hsplit, hanswerable, hprinted, hreleased⟩ := h
  refine ⟨?_, ?_, ?_, ?_, ?_⟩
  · rw [hcap]
    exact hmember
  · rw [hgiven, hfinished]
    exact hsplit
  · rw [hfinished]
    exact hanswerable
  · rw [hcap, hfinished]
    exact hprinted
  · rw [hcap, hfinished]
    exact hreleased

/-- A step of the manager that is not at the stdout of the child: what it pushes is at the end of the queue. -/
theorem Books.helper (h : s.Books k child) (haccounted : s.helper.control.Accounted n) {a : ExecHelper.Action}
    (ha : ∀ ret, a ≠ .internal (.stdout k ret)) {t : Roundtrip} (hs : s.helper.step a = some t.helper)
    (hgiven : t.given = s.given ++ s.helper.pushes k a) (hfinished : t.finished = s.finished) :
    ∃ child', t.Books k child' ∧ child'.queue = child.queue ++ s.helper.pushes k a := by
  rcases ExecHelper.control_step hs with ⟨hsame, hpushes⟩ | ⟨e, he, hinternal, hpushed⟩
  · rw [hpushes k, List.append_nil] at hgiven
    refine ⟨child, h.congr (congrArg Control.cap hsame) hgiven hfinished, ?_⟩
    rw [hpushes k, List.append_nil]
  · have hne : ∀ ret, e ≠ .stdout k ret := by
      rintro ret rfl
      exact ha ret (hinternal rfl)
    obtain ⟨child', hchild, hqueue⟩ := Control.queue_step haccounted he hne h.member
    rw [hpushed k] at hqueue
    refine ⟨child', ⟨hchild, ?_, ?_, ?_, ?_⟩, hqueue⟩
    · rw [hgiven, hfinished, hqueue, h.given, List.append_assoc]
    · rw [hfinished]
      exact h.answerable
    · rw [hfinished]
      exact fun command hc => Control.stdout_step he (h.printed command hc)
    · rw [hfinished]
      exact fun command hc => Control.not_mem_live_step he (h.released command hc).1 (h.released command hc).2

/-- What the manager is after a line of the child's stdout. -/
theorem step_stdout {s helper : ExecHelper} {ret : Line} (hs : s.step (.internal (.stdout k ret)) = some helper) :
    helper.control.cap = s.control.cap.handleStdout .serverSide k ret ∧
      s.control.step .serverSide (.stdout k ret) = some helper.control := by
  cases hs
  exact ⟨rfl, rfl⟩

/-- A line is handled that does not match the front of the queue. -/
theorem Books.ignored (h : s.Books k child) {ret : Line} (hmatch : child.handleStdout s.helper.control.cap.now ret = none) {t : Roundtrip}
    (hs : s.helper.step (.internal (.stdout k ret)) = some t.helper) (hgiven : t.given = s.given)
    (hfinished : t.finished = s.finished ++ s.helper.matched k ret) : t.Books k child := by
  have hcap : t.helper.control.cap = s.helper.control.cap := by
    rw [(step_stdout hs).1]
    simp only [Capacity.handleStdout, h.member, hmatch]
  have hmatched : s.helper.matched k ret = [] := by
    simp only [ExecHelper.matched, h.member, hmatch]
  rw [hmatched, List.append_nil] at hfinished
  exact h.congr hcap hgiven hfinished

/-- A line is handled that matches the front of the queue: the job is printed and gives its token back. -/
theorem Books.matched (h : s.Books k child) (haccounted : s.helper.control.Accounted n) (htokens : s.helper.control.Tokens) {ret : Line}
    (hret : newline ∉ ret ∧ nul ∉ ret) {job : Job} {child' : Childproc}
    (hmatch : child.handleStdout s.helper.control.cap.now ret = some (job, child')) {t : Roundtrip}
    (hs : s.helper.step (.internal (.stdout k ret)) = some t.helper) (hgiven : t.given = s.given)
    (hfinished : t.finished = s.finished ++ s.helper.matched k ret) :
    Answerable job.command ∧ child.queue = (job.command, job.limiter) :: child'.queue ∧ t.finished.length = s.finished.length + 1 ∧
      t.Books k child' := by
  obtain ⟨hcap, hevent⟩ := step_stdout hs
  obtain ⟨hne, rfl, helems, helems'⟩ := Childproc.handleStdout_eq_some hmatch
  have hmatched : s.helper.matched k job.command = [(job.command, job.limiter)] := by
    simp only [ExecHelper.matched, h.member, hmatch]
  have hqueue : child.queue = (job.command, job.limiter) :: child'.queue := by
    unfold Childproc.queue
    rw [helems', map_modifyHead_time _ (fun _ _ => rfl), helems]
    rfl
  have hlive : job.limiter ∈ s.helper.control.cap.limiter.live := by
    have hweigh := Capacity.weigh_handleStdout .serverSide h.member hmatch tokenOf
    rw [haccounted.books.tokens, ← hweigh]
    simp [tokenOf]
  simp only [Capacity.handleStdout, h.member, hmatch] at hcap
  rw [hmatched] at hfinished
  have hall : ∀ {P : Command → Prop}, (∀ c ∈ s.finished, P c) → P (job.command, job.limiter) → ∀ c ∈ t.finished, P c := by
    intro P hold hnew c hc
    rw [hfinished] at hc
    rcases List.mem_append.mp hc with hc | hc
    · exact hold c hc
    · rw [List.mem_singleton] at hc
      exact hc ▸ hnew
  refine ⟨⟨hne, hret⟩, hqueue, ?_, ?_, ?_, hall h.answerable ⟨hne, hret⟩, ?_, ?_⟩
  · rw [hfinished, List.length_append, List.length_singleton]
  · rw [hcap]
    exact List.getElem?_set_self (List.getElem?_eq_some_iff.mp h.member).1
  · rw [hgiven, hfinished, h.given, hqueue, List.append_assoc]
    rfl
  · refine hall (fun c hc => Control.stdout_step hevent (h.printed c hc)) ?_
    rw [hcap]
    exact List.mem_append_right _ (List.mem_singleton_self _)
  · refine hall (fun c hc => Control.not_mem_live_step hevent (h.released c hc).1 (h.released c hc).2) ?_
    rw [hcap]
    refine ⟨htokens.issued _ hlive, ?_⟩
    exact Multiset.Nodup.notMem_erase htokens.nodup

end Books

/-! ## One action -/

/-- The books and the streams; as many lines have been handled as commands are finished, or the front of the queue is not answerable. -/
structure Tracks (k : Nat) (s : Roundtrip) (child : Childproc) (ws vs us : List Line) : Prop where
  books : s.Books k child
  streams : s.Streams ws vs us
  turn : ws.length = s.finished.length ∨ ∃ command, child.queue.head? = some command ∧ ¬ Answerable command.1

theorem tracks_init {n k : Nat} (hk : k < n) :
    (system n k).init.Tracks k { commands := CircularBuffer.empty } [] [] [] where
  books := by
    refine ⟨?_, rfl, (fun _ h => nomatch h), (fun _ h => nomatch h), (fun _ h => nomatch h)⟩
    change (List.replicate n _)[k]? = _
    rw [List.getElem?_replicate, if_pos hk]
  streams := ⟨rfl, Reader.framed_start newline, rfl, rfl, rfl⟩
  turn := Or.inl rfl

section Tracks

variable {n k : Nat} {s : Roundtrip} {child : Childproc} {ws vs us : List Line}

/-- A step of the manager that is not at the stdout of the child. -/
theorem Tracks.helper (h : s.Tracks k child ws vs us) (haccounted : s.helper.control.Accounted n) {a : ExecHelper.Action}
    (ha : ∀ ret, a ≠ .internal (.stdout k ret)) {t : Roundtrip} (hs : s.helper.step a = some t.helper)
    (hstdin : t.stdin = s.stdin ++ (s.helper.pushes k a).flatMap (fun command => writeLine command.1))
    (hgiven : t.given = s.given ++ s.helper.pushes k a) (houtput : t.output = s.output) (hhandled : t.handled = s.handled)
    (hfinished : t.finished = s.finished) :
    ∃ child', t.Tracks k child' ws vs (us ++ lines (s.helper.pushes k a)) := by
  obtain ⟨child', hbooks, hqueue⟩ := h.books.helper haccounted ha hs hgiven hfinished
  refine ⟨child', hbooks, h.streams.give _ hgiven hstdin houtput hhandled, ?_⟩
  rw [hfinished, hqueue]
  refine h.turn.imp_right ?_
  rintro ⟨command, hhead, hcommand⟩
  exact ⟨command, by simp [hhead], hcommand⟩

/-- The next answer, where the commands before it are finished: it is the front of the queue, or this is not answerable. -/
theorem Tracks.front {w : Line} (h : s.Tracks k child ws (w :: vs) us) (hturn : ws.length = s.finished.length) :
    ∃ front, child.commands.front? = some front ∧ (Answerable front.command → w = front.command) := by
  have hsplit := h.streams.split
  rw [h.books.given, lines_append, List.append_assoc] at hsplit
  have hqueue := (List.append_inj hsplit ((length_lines h.books.answerable).trans hturn.symm)).2
  unfold Childproc.queue at hqueue
  unfold CircularBuffer.front?
  cases helems : child.commands.elems with
  | nil =>
    rw [helems] at hqueue
    cases hqueue
  | cons front jobs =>
    refine ⟨front, rfl, ?_⟩
    intro hfront
    rw [helems, List.map_cons] at hqueue
    change linesIn front.command ++ _ = _ at hqueue
    rw [linesIn_of_answerable hfront] at hqueue
    exact (List.cons.inj hqueue).1.symm

/-- A front that is answerable and is answered in its turn is matched. -/
theorem Tracks.blocked {w : Line} (h : s.Tracks k child ws (w :: vs) us)
    (hmatch : child.handleStdout s.helper.control.cap.now (readLine w) = none) :
    ∃ command, child.queue.head? = some command ∧ ¬ Answerable command.1 := by
  rcases h.turn with hturn | hblocked
  · obtain ⟨front, hfront, hanswer⟩ := h.front hturn
    refine ⟨(front.command, front.limiter), ?_, ?_⟩
    · rw [ChildStdout.queue_cons hfront]
      rfl
    · intro hfree
      have heq : readLine w = front.command := by
        rw [hanswer hfree]
        exact readLine_eq_self hfree.2.2 hfree.2.1
      unfold Childproc.handleStdout at hmatch
      simp [hfront, heq, hfree.1] at hmatch
  · exact hblocked

/-- The manager handles a line of the child's stdout. -/
theorem Tracks.stdout (h : s.Tracks k child ws vs us) (haccounted : s.helper.control.Accounted n) (htokens : s.helper.control.Tokens)
    {w rest : List Byte} (hbuffer : s.output.buffer = w ++ newline :: rest) (hw : newline ∉ w) {t : Roundtrip}
    (hs : s.helper.step (.internal (.stdout k (readLine w))) = some t.helper) (hgiven : t.given = s.given) (hstdin : t.stdin = s.stdin)
    (houtput : t.output = { s.output with buffer := rest }) (hhandled : t.handled = s.handled ++ [readLine w])
    (hfinished : t.finished = s.finished ++ s.helper.matched k (readLine w)) :
    ∃ child' ws' vs', t.Tracks k child' ws' vs' us := by
  obtain ⟨vs, rfl⟩ := h.streams.next hbuffer hw
  have hstreams := h.streams.take hbuffer hw hgiven hstdin houtput hhandled
  cases hmatch : child.handleStdout s.helper.control.cap.now (readLine w) with
  | none =>
    have hbooks := h.books.ignored hmatch hs hgiven hfinished
    exact ⟨child, ws ++ [w], vs, hbooks, hstreams, Or.inr (h.blocked hmatch)⟩
  | some p =>
    obtain ⟨job, child'⟩ := p
    obtain ⟨hfree, hqueue, hlength, hbooks⟩ := h.books.matched haccounted htokens (not_mem_readLine w) hmatch hs hgiven hfinished
    have hturn : ws.length = s.finished.length := by
      refine h.turn.resolve_right ?_
      rintro ⟨command, hhead, hcommand⟩
      rw [hqueue] at hhead
      cases hhead
      exact hcommand hfree
    refine ⟨child', ws ++ [w], vs, hbooks, hstreams, Or.inl ?_⟩
    rw [hlength, List.length_append, hturn, List.length_singleton]

end Tracks

/-! ## Runs -/

/-- What is known of every state reached: the manager's books, its tokens, the lines that it read, and where the commands of the child
are. -/
structure Sound (n k : Nat) (s : Roundtrip) : Prop where
  accounted : s.helper.control.Accounted n
  tokens : s.helper.control.Tokens
  read : ∀ line ∈ s.helper.read, newline ∉ line ∧ nul ∉ line
  tracks : ∃ child ws vs us, s.Tracks k child ws vs us

theorem sound_init {n k : Nat} (hk : k < n) : (system n k).init.Sound n k where
  accounted := Control.accounted_of_reachable .serverSide System.ReachFrom.refl
  tokens := ⟨Multiset.nodup_zero, fun _ h => nomatch h⟩
  read := fun _ h => nomatch h
  tracks := ⟨_, _, _, _, tracks_init hk⟩

section Sound

variable {n k : Nat} {s t : Roundtrip}

/-- What a step of the manager keeps. -/
theorem Sound.helper (h : s.Sound n k) {a : ExecHelper.Action} (hs : s.helper.step a = some t.helper)
    (hline : ∀ line, a = .line line → newline ∉ line ∧ nul ∉ line) (htracks : ∃ child ws vs us, t.Tracks k child ws vs us) :
    t.Sound n k := by
  have hread : ∀ line ∈ t.helper.read, newline ∉ line ∧ nul ∉ line := by
    intro line hmem
    rcases ExecHelper.read_step hs hmem with hmem | heq
    · exact h.read line hmem
    · exact hline line heq
  rcases ExecHelper.control_step hs with ⟨hsame, -⟩ | ⟨e, he, -⟩
  · refine ⟨?_, ?_, hread, htracks⟩
    · rw [hsame]
      exact h.accounted
    · rw [hsame]
      exact h.tokens
  · exact ⟨h.accounted.step he, h.tokens.step he, hread, htracks⟩

/-- A step of the manager that is not at the stdout of the child. -/
theorem Sound.away (h : s.Sound n k) {a : ExecHelper.Action} (ha : ∀ ret, a ≠ .internal (.stdout k ret))
    (hs : s.helper.step a = some t.helper) (hline : ∀ line, a = .line line → newline ∉ line ∧ nul ∉ line)
    (hstdin : t.stdin = s.stdin ++ (s.helper.pushes k a).flatMap (fun command => writeLine command.1))
    (hgiven : t.given = s.given ++ s.helper.pushes k a) (houtput : t.output = s.output) (hhandled : t.handled = s.handled)
    (hfinished : t.finished = s.finished) : t.Sound n k := by
  refine h.helper hs hline ?_
  obtain ⟨child, ws, vs, us, htracks⟩ := h.tracks
  obtain ⟨child', htracks'⟩ := htracks.helper h.accounted ha hs hstdin hgiven houtput hhandled hfinished
  exact ⟨child', ws, vs, _, htracks'⟩

/-- One action. -/
theorem Sound.step (h : s.Sound n k) {a : Action} (hs : s.step k a = some t) : t.Sound n k := by
  cases a with
  | feed f =>
    obtain ⟨input, -, rfl⟩ := Option.map_eq_some_iff.mp hs
    obtain ⟨child, ws, vs, us, htracks⟩ := h.tracks
    have hstreams := htracks.streams
    refine ⟨h.accounted, h.tokens, h.read, child, ws, vs, us, htracks.books.congr rfl rfl rfl, ?_, htracks.turn⟩
    exact ⟨hstreams.split, hstreams.framed, hstreams.arrived, hstreams.stdin, hstreams.handled⟩
  | line =>
    obtain ⟨bytes, hread, hs⟩ := Option.bind_eq_some_iff.mp hs
    obtain ⟨helper, hhelper, rfl⟩ := Option.map_eq_some_iff.mp hs
    obtain ⟨w, rest, hbuffer, -, rfl⟩ := Reader.readUntil_eq_some hread
    rw [hbuffer, bump_append_newline] at hhelper
    refine h.away ?_ hhelper ?_ (List.append_nil _).symm (List.append_nil _).symm rfl rfl rfl
    · intro ret heq
      cases heq
    · intro line heq
      cases heq
      exact not_mem_readLine w
  | inputError =>
    obtain ⟨-, hs⟩ := Option.ite_none_right_eq_some.mp hs
    obtain ⟨helper, hhelper, rfl⟩ := Option.map_eq_some_iff.mp hs
    refine h.away ?_ hhelper ?_ (List.append_nil _).symm (List.append_nil _).symm rfl rfl rfl
    · intro ret heq
      cases heq
    · intro line heq
      cases heq
  | answer =>
    obtain ⟨p, hcut, hs⟩ := Option.bind_eq_some_iff.mp hs
    obtain ⟨output, hfeed, rfl⟩ := Option.map_eq_some_iff.mp hs
    obtain ⟨child, ws, vs, us, htracks⟩ := h.tracks
    obtain ⟨vs', us', hstreams⟩ := htracks.streams.answer hcut hfeed
    exact ⟨h.accounted, h.tokens, h.read, child, ws, vs', us', htracks.books.congr rfl rfl rfl, hstreams, htracks.turn⟩
  | readSome j =>
    obtain ⟨output, hfeed, rfl⟩ := Option.map_eq_some_iff.mp hs
    obtain ⟨child, ws, vs, us, htracks⟩ := h.tracks
    have hstreams := htracks.streams.readSome hfeed
    exact ⟨h.accounted, h.tokens, h.read, child, ws, vs, us, htracks.books.congr rfl rfl rfl, hstreams, htracks.turn⟩
  | stdout =>
    obtain ⟨bytes, hread, hs⟩ := Option.bind_eq_some_iff.mp hs
    obtain ⟨helper, hhelper, rfl⟩ := Option.map_eq_some_iff.mp hs
    obtain ⟨w, rest, hbuffer, hw, rfl⟩ := Reader.readUntil_eq_some hread
    simp only [hbuffer, bump_append_newline] at hhelper ⊢
    obtain ⟨child, ws, vs, us, htracks⟩ := h.tracks
    refine h.helper hhelper ?_ ?_
    · intro line heq
      cases heq
    · obtain ⟨child', ws', vs', htracks'⟩ := htracks.stdout h.accounted h.tokens hbuffer hw (t := { s with
        helper := helper
        output := { s.output with buffer := rest }
        handled := s.handled ++ [readLine w]
        finished := s.finished ++ s.helper.matched k (readLine w) }) hhelper rfl rfl rfl rfl rfl
      exact ⟨child', ws', vs', us, htracks'⟩
  | other a =>
    obtain ⟨hat, hs⟩ := Option.ite_none_left_eq_some.mp hs
    obtain ⟨helper, hhelper, rfl⟩ := Option.map_eq_some_iff.mp hs
    refine h.away ?_ hhelper ?_ rfl rfl rfl rfl rfl
    · rintro ret rfl
      simp [ExecHelper.Action.isAt] at hat
    · rintro line rfl
      simp [ExecHelper.Action.isAt] at hat

end Sound

theorem sound_of_reachable {n k : Nat} (hk : k < n) {s : Roundtrip} (h : (system n k).Reachable s) : s.Sound n k :=
  h.invariant (sound_init hk) (fun _ _ _ hsound _ hs => hsound.step hs)

/-! ## Which jobs are completed -/

/-- A job that is completed is answerable, and so are all that were given before it. -/
theorem answerable_of_completed {n k : Nat} (hk : k < n) {s : Roundtrip} (h : (system n k).Reachable s) {i : Nat} {command : Command}
    (hcompleted : s.Completed i command) : ∀ earlier ∈ s.given.take (i + 1), Answerable earlier.1 := by
  obtain ⟨child, ws, vs, us, htracks⟩ := (sound_of_reachable hk h).tracks
  have hlt : i < s.finished.length := (List.getElem?_eq_some_iff.mp hcompleted.1).1
  intro earlier hmem
  rw [htracks.books.given, List.take_append_of_le_length hlt] at hmem
  exact htracks.books.answerable earlier (List.mem_of_mem_take hmem)

/-- A job whose answer has been read, all jobs up to it being answerable, is completed. -/
theorem completed_of_answerable {n k : Nat} (hk : k < n) {s : Roundtrip} (h : (system n k).Reachable s) {i : Nat} {command : Command}
    (hgiven : s.given[i]? = some command) (hanswered : s.Answered i)
    (hanswerable : ∀ earlier ∈ s.given.take (i + 1), Answerable earlier.1) : s.Completed i command := by
  obtain ⟨child, ws, vs, us, htracks⟩ := (sound_of_reachable hk h).tracks
  have hi : i < s.given.length := (List.getElem?_eq_some_iff.mp hgiven).1
  have hhandled : i + 1 ≤ ws.length := by
    unfold Answered at hanswered
    change (lines (s.given.take (i + 1))).length ≤ _ at hanswered
    rw [length_lines hanswerable, htracks.streams.handled, List.length_map, List.length_take] at hanswered
    omega
  have hlt : i < s.finished.length := by
    rcases htracks.turn with hturn | ⟨front, hfront, hfree⟩
    · omega
    · by_contra hge
      rw [htracks.books.given] at hanswerable
      refine hfree (hanswerable front ?_)
      rw [List.take_append]
      refine List.mem_append_right _ ?_
      cases hqueue : child.queue with
      | nil =>
        rw [hqueue] at hfront
        cases hfront
      | cons x xs =>
        rw [hqueue] at hfront
        cases hfront
        have hpos : i + 1 - s.finished.length = i - s.finished.length + 1 := by omega
        rw [hpos, List.take_succ_cons]
        exact List.mem_cons_self
  have hfinished : s.finished[i]? = some command := by
    rw [htracks.books.given, List.getElem?_append_left hlt] at hgiven
    exact hgiven
  have hmem := List.mem_of_getElem? hfinished
  exact ⟨hfinished, htracks.books.printed command hmem, (htracks.books.released command hmem).2⟩

/-- In every run, whatever is on stdin: the lines of stdin have no newline and no NUL; and a job given to the child whose answer has been
read, with those of all jobs before it, is completed exactly when it and all jobs before it are answerable. -/
theorem completed_iff {n k : Nat} (hk : k < n) {s : Roundtrip} (h : (system n k).Reachable s) :
    (∀ line ∈ s.helper.read, newline ∉ line ∧ nul ∉ line) ∧
      ∀ i command, s.given[i]? = some command → s.Answered i →
        (s.Completed i command ↔ ∀ earlier ∈ s.given.take (i + 1), Answerable earlier.1) := by
  refine ⟨(sound_of_reachable hk h).read, ?_⟩
  intro i command hgiven hanswered
  constructor
  · exact answerable_of_completed hk h
  · exact completed_of_answerable hk h hgiven hanswered

/-- The job `a`, from stdin to its answer. -/
theorem completed_run :
    ∃ s, (system 1 0).Reachable s ∧ s.helper.read = [[97]] ∧ s.given = [([97], 0)] ∧ s.Completed 0 ([97], 0) := by
  obtain ⟨s, hs, hp⟩ := System.reachable_of_run (S := system 1 0)
    [.other .drained, .feed (.arrive [97, 10]), .feed (.readSome 2), .line, .other (.internal .token), .other (.internal .written),
      .answer, .readSome 2, .stdout]
    (fun s => s.helper.read == [[97]] && s.given == [([97], 0)] && s.handled == [[97]]) (by decide)
  simp only [Bool.and_eq_true, beq_iff_eq] at hp
  obtain ⟨⟨hread, hgiven⟩, hhandled⟩ := hp
  have hanswered : s.Answered 0 := by
    unfold Answered
    rw [hgiven, hhandled]
    decide
  refine ⟨s, hs, hread, hgiven, ((completed_iff Nat.one_pos hs).2 0 ([97], 0) (by rw [hgiven]; rfl) hanswered).mpr ?_⟩
  rw [hgiven]
  decide

/-- A blank line on stdin is never completed. -/
theorem blank_line_not_completed : ¬ ∀ (n k : Nat) (s : Roundtrip), k < n → (system n k).Reachable s →
    ∀ i command, s.given[i]? = some command → s.Answered i → s.Completed i command := by
  intro h
  obtain ⟨s, hs, hp⟩ := System.reachable_of_run (S := system 1 0)
    [.other .drained, .feed (.arrive [10]), .feed (.readSome 1), .line, .other (.internal .token), .other (.internal .written),
      .answer, .readSome 1, .stdout]
    (fun s => s.given == [([], 0)] && s.handled == [[]] && s.finished == []) (by decide)
  simp only [Bool.and_eq_true, beq_iff_eq] at hp
  obtain ⟨⟨hgiven, hhandled⟩, hfinished⟩ := hp
  have hanswered : s.Answered 0 := by
    unfold Answered
    rw [hgiven, hhandled]
    decide
  have hcompleted := h 1 0 s Nat.one_pos hs 0 ([], 0) (by rw [hgiven]; rfl) hanswered
  have hmatched := hcompleted.1
  rw [hfinished] at hmatched
  cases hmatched

end Roundtrip

end FostWright
