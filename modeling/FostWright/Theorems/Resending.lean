import FostWright.Resending
import FostWright.Theorems.Recovery

/-!
# A resend loses no job that is dispatched meanwhile

The queue of the child is a subsequence of the lines that are on their way back and of those that the resend still has to write. A job that
is written during the resend is on its way before it is in the queue; when it gets there, either the resend still comes to it, or nothing has
been written behind it: that is what the order of the ends of the writes is for.
-/

namespace FostWright

open Lib

namespace Resending

/-! ## The two writers -/

/-- The coroutines that are in a write, with the lines that the resend has written behind the open line. Their writes end in the order in
which they were made. -/
inductive Turns : Option (Line × Token) → Option Nat → List Line → List Writer → Prop where
  | idle : Turns none none [] []
  | writes {command : Line × Token} : Turns (some command) none [] [.nextJob]
  | resends {i : Nat} : Turns none (some i) [] [.childRequests]
  | resendsFirst {command : Line × Token} {i : Nat} : Turns (some command) (some i) [] [.childRequests, .nextJob]
  | writesFirst {command : Line × Token} {i : Nat} {behind : List Line} :
      Turns (some command) (some i) behind [.nextJob, .childRequests]

/-- A write begins. -/
theorem Turns.write {loop : Option Nat} {behind : List Line} {ready : List Writer} (h : Turns none loop behind ready)
    (command : Line × Token) : Turns (some command) loop behind (ready ++ [.nextJob]) := by
  cases h with
  | idle => exact .writes
  | resends => exact .resendsFirst

/-- A write ends. The resend goes on, or has written nothing behind the line. -/
theorem Turns.push {writing : Option (Line × Token)} {loop : Option Nat} {behind : List Line} {rest : List Writer}
    (h : Turns writing loop behind (.nextJob :: rest)) : Turns none loop [] rest ∧ (loop = none → behind = []) := by
  cases h with
  | writes => exact ⟨.idle, fun _ => rfl⟩
  | writesFirst => exact ⟨.resends, fun hloop => by cases hloop⟩

/-- The coroutines where the resend is not in a write. -/
def RestsAt (s : Resending) (ready : List Writer) : Prop :=
  (s.writing = none ∧ s.behind = [] ∧ ready = []) ∨ (s.writing.isSome = true ∧ s.behind = [] ∧ ready = [.nextJob])

/-- The coroutines where the resend goes on or begins. -/
theorem turns_resendFrom {s : Resending} (h : s.RestsAt s.ready) (i : Nat) :
    Turns (s.resendFrom i).writing (s.resendFrom i).loop (s.resendFrom i).behind (s.resendFrom i).ready := by
  unfold resendFrom append
  rcases h with ⟨hfree, hbehind, hready⟩ | ⟨hopen, hbehind, hready⟩
  · split
    · simp only [hfree, hbehind, hready]
      exact .resends
    · simp only [hfree, hbehind, hready]
      exact .idle
  · obtain ⟨command, hcommand⟩ := Option.isSome_iff_exists.mp hopen
    split
    · simp only [hcommand, hbehind, hready]
      exact .writesFirst
    · simp only [hcommand, hbehind, hready]
      exact .writes

/-! ## The invariant -/

/-- The lines on their way back to the manager, without that of an open write. -/
def inFlight (s : Resending) : List Line := s.stdout ++ s.worker ++ s.stdin ++ s.behind

/-- The lines that the resend has still to write. -/
def promised (s : Resending) : List Line :=
  match s.loop with
  | some i => s.child.texts.drop (i + 1)
  | none => []

/-- What holds of a child: its queue is on its way back, or the resend comes to it, or another one is asked for; its jobs are done in the
order in which they were dispatched, and each of them can be answered. -/
structure Sound (s : Resending) : Prop where
  turns : Turns s.writing s.loop s.behind s.ready
  within : ∀ i, s.loop = some i → i < s.child.texts.length
  room : s.writing.isSome = true → s.child.commands.full = false
  covered : 0 < s.requests ∨ s.child.texts.Sublist (s.inFlight ++ s.promised)
  order : s.done ++ s.child.texts ++ (s.writing.map Prod.fst).toList = s.dispatched
  answerable : ∀ text ∈ s.dispatched, Answerable text

theorem sound_init : init.Sound :=
  ⟨.idle, nofun, nofun, Or.inr (List.Sublist.refl []), rfl, nofun⟩

theorem Sound.answerable_texts {s : Resending} (h : s.Sound) : ∀ text ∈ s.child.texts, Answerable text := by
  intro text hmem
  refine h.answerable text ?_
  rw [← h.order]
  exact List.mem_append_left _ (List.mem_append_right _ hmem)

theorem Sound.answerable_writing {s : Resending} (h : s.Sound) {text : Line} {task : Token} (hopen : s.writing = some (text, task)) :
    Answerable text := by
  refine h.answerable text ?_
  rw [← h.order, hopen]
  exact List.mem_append_right _ (List.mem_singleton_self text)

/-- Where only the lines on their way change. -/
theorem Sound.moved {s t : Resending} (h : s.Sound) (hchild : t.child = s.child) (hwriting : t.writing = s.writing) (hloop : t.loop = s.loop)
    (hready : t.ready = s.ready) (hbehind : t.behind = s.behind) (hdispatched : t.dispatched = s.dispatched) (hdone : t.done = s.done)
    (hcovered : (0 < s.requests ∨ s.child.texts.Sublist (s.inFlight ++ s.promised)) →
      0 < t.requests ∨ s.child.texts.Sublist (t.inFlight ++ s.promised)) : t.Sound := by
  have hpromised : t.promised = s.promised := by
    unfold promised
    rw [hloop, hchild]
  refine ⟨?_, ?_, ?_, ?_, ?_, ?_⟩
  · rw [hwriting, hloop, hbehind, hready]
    exact h.turns
  · rw [hloop, hchild]
    exact h.within
  · rw [hwriting, hchild]
    exact h.room
  · rw [hchild, hpromised]
    exact hcovered h.covered
  · rw [hdone, hchild, hwriting, hdispatched]
    exact h.order
  · rw [hdispatched]
    exact h.answerable

/-- The resend writes the next command, which it had still to write, or is over. -/
theorem Sound.resendFrom {s : Resending} (hrests : s.RestsAt s.ready) (hroom : s.writing.isSome = true → s.child.commands.full = false)
    (horder : s.done ++ s.child.texts ++ (s.writing.map Prod.fst).toList = s.dispatched)
    (hanswerable : ∀ text ∈ s.dispatched, Answerable text) (i : Nat)
    (hcovered : 0 < s.requests ∨ s.child.texts.Sublist (s.inFlight ++ s.child.texts.drop i)) : (s.resendFrom i).Sound := by
  have hturns := turns_resendFrom hrests i
  unfold Resending.resendFrom at hturns ⊢
  split
  · rename_i line hline
    obtain ⟨hlt, hget⟩ := List.getElem?_eq_some_iff.mp hline
    have hdrop : s.child.texts.drop i = line :: s.child.texts.drop (i + 1) := by
      rw [List.drop_eq_getElem_cons hlt, hget]
    simp only [hline] at hturns
    have hanswers : Answerable line := by
      refine hanswerable line ?_
      rw [← horder]
      exact List.mem_append_left _ (List.mem_append_right _ (List.mem_of_getElem? hline))
    have hinFlight : (s.append line).inFlight = s.inFlight ++ [line] := by
      unfold inFlight append
      rw [linesIn_of_answerable hanswers]
      rcases hrests with ⟨hfree, hbehind, -⟩ | ⟨hopen, -, -⟩
      · simp only [hfree, hbehind, List.append_nil, List.append_assoc]
      · obtain ⟨command, hcommand⟩ := Option.isSome_iff_exists.mp hopen
        simp only [hcommand, List.append_assoc]
    have hsame : (s.append line).child = s.child ∧ (s.append line).writing = s.writing ∧ (s.append line).requests = s.requests ∧
        (s.append line).done = s.done ∧ (s.append line).dispatched = s.dispatched := by
      unfold append
      split <;> exact ⟨rfl, rfl, rfl, rfl, rfl⟩
    obtain ⟨hchild, hwriting, hrequests, hdone, hdispatched⟩ := hsame
    refine ⟨hturns, ?_, ?_, ?_, ?_, ?_⟩
    · intro j hj
      obtain rfl := Option.some.inj hj
      simp only [hchild]
      exact hlt
    · simp only [hchild, hwriting]
      exact hroom
    · rw [hdrop] at hcovered
      simp only [hrequests, hchild, promised]
      refine hcovered.imp_right ?_
      intro hsub
      have hlines : ({ s.append line with loop := some i, ready := (s.append line).ready ++ [.childRequests] } : Resending).inFlight =
          (s.append line).inFlight := rfl
      rw [← List.singleton_append, ← List.append_assoc, ← hinFlight] at hsub
      exact hsub
    · simp only [hdone, hchild, hwriting, hdispatched]
      exact horder
    · simp only [hdispatched]
      exact hanswerable
  · rename_i hline
    have hdrop : s.child.texts.drop i = [] := List.drop_eq_nil_iff.mpr (List.getElem?_eq_none_iff.mp hline)
    rw [hdrop] at hcovered
    simp only [hline] at hturns
    exact ⟨hturns, nofun, hroom, hcovered, horder, hanswerable⟩

/-- The line that the manager reads is taken off the stream, and off the queue if it is the front. -/
theorem Sound.handleStdout {s : Resending} (h : s.Sound) (now : Nat) {ret : Line} {rest : List Line} (hout : s.stdout = ret :: rest)
    (hpop : s.loop = some 0 → s.stdout.head?.map readLine ≠ s.child.texts.head?) :
    (∀ job child, s.child.handleStdout now (readLine ret) = some (job, child) →
      ({ s with stdout := rest, child := child, loop := s.loop.map Nat.pred, done := s.done ++ [readLine ret] } : Resending).Sound) ∧
    (s.child.handleStdout now (readLine ret) = none → ({ s with stdout := rest } : Resending).Sound) := by
  have hnonempty : [] ∉ s.child.texts := fun hmem => (h.answerable_texts [] hmem).1 rfl
  have hstrike := Childproc.strike_texts hnonempty now (readLine ret)
  have hcovered : 0 < s.requests ∨
      (strike s.child.texts (readLine ret)).Sublist (rest ++ s.worker ++ s.stdin ++ s.behind ++ s.promised) := by
    refine h.covered.imp_right ?_
    intro hsub
    unfold inFlight at hsub
    rw [hout] at hsub
    exact sublist_strike_readLine h.answerable_texts hsub
  constructor
  · intro job child hc
    have htexts := Childproc.texts_handleStdout hc
    have hlength : s.child.texts.length = child.texts.length + 1 := by rw [htexts, List.length_cons]
    have hbehind : ∀ i, s.loop = some i → 0 < i := by
      intro i hi
      refine Nat.pos_of_ne_zero ?_
      rintro rfl
      refine hpop hi ?_
      rw [hout, htexts]
      rfl
    have hroom := h.room
    rw [hc, Option.map_some, Option.getD_some] at hstrike
    rw [hstrike] at hcovered
    refine ⟨?_, ?_, ?_, ?_, ?_, h.answerable⟩
    · have hturns := h.turns
      cases hloop : s.loop with
      | none => rwa [hloop] at hturns
      | some i =>
        rw [hloop] at hturns
        revert hturns
        generalize s.writing = writing, s.behind = behind, s.ready = ready
        rintro (_ | _ | _ | _ | _)
        · exact .resends
        · exact .resendsFirst
        · exact .writesFirst
    · intro j hj
      obtain ⟨i, hi, rfl⟩ := Option.map_eq_some_iff.mp hj
      have hlt := h.within i hi
      have hpos := hbehind i hi
      change i - 1 < child.texts.length
      omega
    · intro hopen
      have hfull := (CircularBuffer.full_eq_false_iff _).mp (h.room hopen)
      change child.commands.full = false
      rw [CircularBuffer.full_eq_false_iff]
      have hsize : ∀ child : Childproc, child.texts.length = child.commands.elems.length := fun child => List.length_map _
      rw [hsize, hsize] at hlength
      omega
    · refine hcovered.imp_right ?_
      intro hsub
      have hpromised :
          ({ s with stdout := rest, child := child, loop := s.loop.map Nat.pred, done := s.done ++ [readLine ret] } : Resending).promised =
            s.promised := by
        unfold promised
        cases hloop : s.loop with
        | none => rfl
        | some i =>
          have hpos := hbehind i hloop
          simp only [Option.map_some]
          rw [htexts, List.drop_succ_cons, Nat.pred_eq_sub_one, Nat.sub_add_cancel hpos]
      rw [hpromised]
      exact hsub
    · have horder := h.order
      rw [htexts] at horder
      rw [← horder, List.append_assoc s.done, List.singleton_append]
  · intro hc
    rw [hc, Option.map_none, Option.getD_none] at hstrike
    rw [hstrike] at hcovered
    exact ⟨h.turns, h.within, h.room, hcovered, h.order, h.answerable⟩

/-- A job that was written is pushed on the queue: it is on its way, or the resend comes to it. -/
theorem Sound.push {s : Resending} (h : s.Sound) {now : Nat} {text : Line} {task : Token} {rest : List Writer}
    (hopen : s.writing = some (text, task)) (hturn : s.ready = .nextJob :: rest) :
    ({ s with
      child := { commands := s.child.commands.pushBack { command := text, limiter := task, time := now } }
      writing := none
      ready := rest
      stdin := s.stdin ++ linesIn text ++ s.behind
      behind := [] } : Resending).Sound := by
  rw [linesIn_of_answerable (h.answerable_writing hopen), List.append_assoc, List.singleton_append]
  have hturns := h.turns
  rw [hturn] at hturns
  obtain ⟨hturns, hover⟩ := hturns.push
  have htexts := Childproc.texts_pushBack (h.room (hopen ▸ rfl)) { command := text, limiter := task, time := now }
  refine ⟨hturns, ?_, nofun, ?_, ?_, h.answerable⟩
  · intro i hi
    have hlt := h.within i hi
    simp only [htexts, List.length_append, List.length_singleton]
    exact Nat.lt_succ_of_lt hlt
  · refine h.covered.imp_right ?_
    intro hsub
    simp only [htexts]
    have hline : (s.inFlight).Sublist (s.stdout ++ s.worker ++ (s.stdin ++ text :: s.behind)) := by
      unfold inFlight
      simp only [List.append_assoc]
      exact (((List.sublist_cons_self text s.behind).append_left _).append_left _).append_left _
    unfold promised at hsub ⊢
    cases hloop : s.loop with
    | none =>
      -- nothing has been written behind the line
      have hnone := hover hloop
      rw [hloop, List.append_nil] at hsub
      simp only [inFlight, hnone, List.append_nil] at hsub ⊢
      rw [← List.append_assoc]
      exact hsub.append (List.Sublist.refl _)
    | some i =>
      -- the resend comes to the job
      have hlt := h.within i hloop
      rw [hloop] at hsub
      have hdrop : (s.child.texts ++ [text]).drop (i + 1) = s.child.texts.drop (i + 1) ++ [text] :=
        List.drop_append_of_le_length hlt
      simp only [inFlight, List.append_nil, htexts, hdrop]
      rw [← List.append_assoc]
      exact (hsub.trans (hline.append (List.Sublist.refl _))).append (List.Sublist.refl _)
  · have horder := h.order
    rw [hopen] at horder
    simp only [htexts, Option.map_none, Option.toList_none, List.append_nil]
    rw [← List.append_assoc]
    exact horder

/-- One action keeps the invariant. -/
theorem Sound.step {s s' : Resending} {a : Action} (h : s.Sound) (hok : s.Careful a) (hs : s.step a = some s') : s'.Sound := by
  cases steps_of_step hs with
  | @write text task hfree hroom =>
    have hturns := h.turns
    rw [hfree] at hturns
    refine ⟨hturns.write (text, task), h.within, fun _ => hroom, h.covered, ?_, ?_⟩
    · have horder := h.order
      rw [hfree, Option.map_none, Option.toList_none, List.append_nil] at horder
      rw [← horder]
      rfl
    · intro line hmem
      rw [List.mem_append, List.mem_singleton] at hmem
      rcases hmem with hmem | rfl
      · exact h.answerable line hmem
      · exact hok
  | push hopen hturn => exact h.push hopen hturn
  | @read line rest hpiped =>
    refine h.moved rfl rfl rfl rfl rfl rfl rfl (Or.imp_right ?_)
    intro hsub
    have hsame : ({ s with stdin := rest, worker := s.worker ++ [line] } : Resending).inFlight = s.inFlight := by
      unfold inFlight
      simp only [hpiped, List.append_assoc, List.cons_append, List.nil_append]
    rw [hsame]
    exact hsub
  | @answer line rest hheld =>
    refine h.moved rfl rfl rfl rfl rfl rfl rfl (Or.imp_right ?_)
    intro hsub
    have hsame : ({ s with worker := rest, stdout := s.stdout ++ [line] } : Resending).inFlight = s.inFlight := by
      unfold inFlight
      simp only [hheld, List.append_assoc, List.cons_append, List.nil_append]
    rw [hsame]
    exact hsub
  | print =>
    refine h.moved rfl rfl rfl rfl rfl rfl rfl (Or.imp_right ?_)
    intro hsub
    refine hsub.trans ?_
    unfold inFlight
    simp only [List.append_assoc]
    exact (List.Sublist.refl _).append (List.sublist_append_right _ _)
  | crash => exact h.moved rfl rfl rfl rfl rfl rfl rfl (fun _ => Or.inl (Nat.succ_pos _))
  | @matched now _ _ job child hwritten hanswers => exact (h.handleStdout now hwritten hok).1 job child hanswers
  | @ignored now _ _ hwritten hanswers => exact (h.handleStdout now hwritten hok).2 hanswers
  | @handleRequest pending hidle hrequested =>
    refine Sound.resendFrom (s := { s with requests := pending, crashed := s.crashed + 1 }) ?_ h.room h.order h.answerable 0
      (Or.inr (List.sublist_append_right _ _))
    have hturns := h.turns
    rw [hidle] at hturns
    revert hturns
    unfold RestsAt
    generalize s.writing = writing, s.behind = behind, s.ready = ready
    rintro (_ | _)
    · exact Or.inl ⟨rfl, rfl, rfl⟩
    · exact Or.inr ⟨rfl, rfl, rfl⟩
  | @resend i rest hat hturn =>
    refine Sound.resendFrom (s := { s with ready := rest, resent := s.resent + 1 }) ?_ h.room h.order h.answerable (i + 1) ?_
    · have hturns := h.turns
      rw [hat, hturn] at hturns
      revert hturns
      unfold RestsAt
      generalize s.writing = writing, s.behind = behind
      rintro (_ | _)
      · exact Or.inl ⟨rfl, rfl, rfl⟩
      · exact Or.inr ⟨rfl, rfl, rfl⟩
    · have hcovered := h.covered
      unfold promised at hcovered
      rw [hat] at hcovered
      exact hcovered
  | inputComplete => exact ⟨h.turns, h.within, h.room, h.covered, h.order, h.answerable⟩

theorem sound_of_reach {s : Resending} (h : system.Reach Careful s) : s.Sound :=
  h.invariant sound_init (fun _ _ _ hi hok hs => hi.step hok hs)

/-! ## A resend without interruption -/

/-- The child of `Recovery`, where both coroutines wait. -/
def ofRecovery (r : Recovery) (crashed resent : Nat) : Resending where
  child := r.child
  inputComplete := r.inputComplete
  writing := none
  loop := none
  ready := []
  stdin := r.stdin
  behind := []
  worker := r.worker
  stdout := r.stdout
  requests := r.requests
  crashed := crashed
  resent := resent
  dispatched := r.dispatched
  done := r.done

/-- The loop goes on from the place that it is given. -/
theorem resendFrom_loop (s : Resending) (loop : Option Nat) (i : Nat) :
    ({ s with loop := loop } : Resending).resendFrom i = s.resendFrom i := by
  unfold Resending.resendFrom append
  cases s.child.texts[i]? with
  | none => rfl
  | some line => cases s.writing <;> rfl

/-- A resend that nothing comes between writes what is left of the queue. -/
theorem reachFrom_resend (r : Recovery) (crashed resent i : Nat) :
    ∃ resent', system.ReachFrom Careful ((ofRecovery r crashed resent).resendFrom i)
      (ofRecovery { r with stdin := r.stdin ++ (r.child.texts.drop i).flatMap linesIn } crashed resent') := by
  induction hn : r.child.texts.length - i generalizing r resent i with
  | zero =>
    have hle : r.child.texts.length ≤ i := Nat.le_of_sub_eq_zero hn
    have hover : (ofRecovery r crashed resent).resendFrom i = ofRecovery r crashed resent := by
      unfold Resending.resendFrom
      simp only [ofRecovery, List.getElem?_eq_none hle]
    rw [hover, List.drop_eq_nil_of_le hle, List.flatMap_nil, List.append_nil]
    exact ⟨resent, .refl⟩
  | succ n ih =>
    have hlt : i < r.child.texts.length := by omega
    have hstep : ((ofRecovery r crashed resent).resendFrom i).step .resend =
        some ((ofRecovery { r with stdin := r.stdin ++ linesIn r.child.texts[i] } crashed (resent + 1)).resendFrom (i + 1)) := by
      conv_lhs => rw [Resending.resendFrom]
      simp only [ofRecovery, List.getElem?_eq_getElem hlt, append, List.nil_append, Resending.step]
      exact congrArg some (resendFrom_loop _ none _).symm
    obtain ⟨resent', hrest⟩ := ih { r with stdin := r.stdin ++ linesIn r.child.texts[i] } (resent + 1) (i + 1) (by simp only; omega)
    simp only [List.append_assoc, ← List.flatMap_cons, ← List.drop_eq_getElem_cons hlt] at hrest
    exact ⟨resent', (System.ReachFrom.single .resend trivial hstep).trans hrest⟩

/-- A child whose writes are one step with what follows them is a case of this one. -/
theorem reach_ofRecovery {r : Recovery} (h : Recovery.system.Reach Recovery.AnswerableJobs r) :
    ∃ crashed resent, system.Reach Careful (ofRecovery r crashed resent) := by
  refine h.invariant (I := fun r => ∃ crashed resent, system.Reach Careful (ofRecovery r crashed resent)) ⟨0, 0, .refl⟩ ?_
  rintro r a r' ⟨crashed, resent, hreach⟩ hok hs
  have hsingle : ∀ b, (ofRecovery r crashed resent).Careful b →
      (ofRecovery r crashed resent).step b = some (ofRecovery r' crashed resent) →
      ∃ crashed resent, system.Reach Careful (ofRecovery r' crashed resent) :=
    fun b hcareful hstep => ⟨crashed, resent, .step b hreach hcareful hstep⟩
  cases Recovery.steps_of_step hs with
  | @dispatch job hroom =>
    have hwrite : system.ReachFrom Careful (ofRecovery r crashed resent) _ :=
      .single (.write job.command job.limiter) hok (if_pos ⟨rfl, hroom⟩)
    refine ⟨crashed, resent, hreach.trans (hwrite.trans ?_)⟩
    refine .single (.push job.time) trivial ?_
    simp only [system, Resending.step, ofRecovery, List.nil_append, List.append_nil]
  | read hpiped => exact hsingle .read trivial (by simp only [Resending.step, ofRecovery, hpiped])
  | answer hheld => exact hsingle .answer trivial (by simp only [Resending.step, ofRecovery, hheld])
  | @print text => exact hsingle (.print text) trivial rfl
  | crash => exact hsingle .crash trivial rfl
  | @matched now ret rest job child hwritten hanswers =>
    refine hsingle (.handleStdout now) (fun hzero => by cases hzero) ?_
    simp only [Resending.step, ofRecovery, hwritten, hanswers, Option.map_none]
  | @ignored now ret rest hwritten hanswers =>
    refine hsingle (.handleStdout now) (fun hzero => by cases hzero) ?_
    simp only [Resending.step, ofRecovery, hwritten, hanswers]
  | @handleRequest pending hrequested =>
    obtain ⟨resent', hall⟩ := reachFrom_resend { r with requests := pending } (crashed + 1) resent 0
    rw [List.drop_zero] at hall
    rw [Childproc.resend_eq_texts]
    refine ⟨crashed + 1, resent', hreach.trans (System.ReachFrom.trans (.single .handleRequest trivial ?_) hall)⟩
    simp only [system, Resending.step, ofRecovery, hrequested]
    split
    · rename_i hdone
      rw [resendFrom_of_empty rfl hdone.2]
    · rfl
  | inputComplete => exact hsingle .inputComplete trivial rfl

/-! ## Progress -/

/-- A queue is no longer than its buffer. -/
theorem length_texts_le (child : Childproc) : child.texts.length ≤ bufferSize := by
  unfold Childproc.texts
  rw [List.length_map]
  exact child.commands.bounded

/-- The loop costs a write for each command that is left. -/
theorem remaining_resendFrom {s : Resending} (hqueue : ∀ text ∈ s.child.texts, Answerable text) (i : Nat) :
    (s.resendFrom i).remaining + loopRemaining s.child.texts.length s.loop ≤ s.remaining + 4 * (s.child.texts.length - i) := by
  unfold Resending.resendFrom
  split
  · rename_i line hline
    obtain ⟨hlt, -⟩ := List.getElem?_eq_some_iff.mp hline
    unfold append
    rw [linesIn_of_answerable (hqueue line (List.mem_of_getElem? hline))]
    split
    · simp only [remaining, loopRemaining, List.length_append, List.length_singleton]
      omega
    · simp only [remaining, loopRemaining, List.length_append, List.length_singleton]
      omega
  · simp only [remaining, loopRemaining]
    omega

/-- A productive action leaves less to do. -/
theorem remaining_lt {s s' : Resending} {a : Action} (h : s.Sound) (hok : s.Productive a) (hs : s.step a = some s') :
    s'.remaining < s.remaining := by
  cases steps_of_step hs with
  | write => exact hok.elim
  | @push now text task rest hopen _ =>
    have htexts := Childproc.texts_pushBack (h.room (hopen ▸ rfl)) { command := text, limiter := task, time := now }
    have hloop : loopRemaining (s.child.texts.length + 1) s.loop ≤ loopRemaining s.child.texts.length s.loop + 4 := by
      cases s.loop with
      | none => exact Nat.zero_le _
      | some i =>
        simp only [loopRemaining]
        omega
    simp only [remaining, htexts, hopen, linesIn_of_answerable (h.answerable_writing hopen), List.length_append, List.length_cons,
      List.length_nil, Option.toList_none, Option.toList_some, Nat.zero_add]
    omega
  | read hpiped =>
    simp only [remaining, hpiped, List.length_append, List.length_cons, List.length_nil]
    omega
  | answer hheld =>
    simp only [remaining, hheld, List.length_append, List.length_cons, List.length_nil]
    omega
  | print => exact hok.elim
  | crash => exact hok.elim
  | @matched now ret rest job child hwritten hanswers =>
    have htexts := Childproc.texts_handleStdout hanswers
    have hloop : loopRemaining child.texts.length (s.loop.map Nat.pred) = loopRemaining s.child.texts.length s.loop := by
      cases hloop : s.loop with
      | none => rfl
      | some i =>
        have hpos : i ≠ 0 := by
          rintro rfl
          refine hok hloop ?_
          rw [hwritten, htexts]
          rfl
        rw [htexts]
        simp only [loopRemaining, Option.map_some, List.length_cons, Nat.pred_eq_sub_one]
        omega
    simp only [remaining, hloop, hwritten, List.length_cons]
    omega
  | ignored hwritten =>
    simp only [remaining, hwritten, List.length_cons]
    omega
  | @handleRequest pending hidle hrequested =>
    have hle := remaining_resendFrom (s := { s with requests := pending, crashed := s.crashed + 1 }) h.answerable_texts 0
    have hsize := length_texts_le s.child
    simp only [remaining, hidle, hrequested, loopRemaining, bufferSize] at hle hsize ⊢
    omega
  | @resend i rest hat _ =>
    have hle := remaining_resendFrom (s := { s with ready := rest, resent := s.resent + 1 }) h.answerable_texts (i + 1)
    have hcost : loopRemaining s.child.texts.length s.loop = 4 * (s.child.texts.length - (i + 1)) + 1 := by rw [hat, loopRemaining]
    have hsame : ({ s with ready := rest, resent := s.resent + 1 } : Resending).remaining = s.remaining := rfl
    simp only [hsame, hcost] at hle
    omega
  | inputComplete => exact hok.elim

theorem Productive.careful {s : Resending} {a : Action} (h : s.Productive a) : s.Careful a := by
  cases a with
  | write => exact h.elim
  | handleStdout now => exact h
  | _ => trivial

/-- When nothing productive can happen, neither coroutine is in a write and nothing is on its way. -/
theorem Sound.of_stuck {s : Resending} (h : s.Sound) (now : Nat)
    (hstuck : ∀ a : Action, a.isAt now = true → s.Productive a → s.step a = none) :
    s.writing = none ∧ s.loop = none ∧ s.requests = 0 ∧ s.inFlight = [] := by
  have hpush : s.step (.push now) = none := hstuck (.push now) (beq_self_eq_true now) trivial
  have hresend : s.step .resend = none := hstuck .resend rfl trivial
  have hrequest : s.step .handleRequest = none := hstuck .handleRequest rfl trivial
  have hread : s.step .read = none := hstuck .read rfl trivial
  have hanswer : s.step .answer = none := hstuck .answer rfl trivial
  have hidle : s.writing = none ∧ s.loop = none ∧ s.behind = [] := by
    have hturns := h.turns
    revert hturns hpush hresend
    simp only [Resending.step]
    generalize s.writing = writing, s.loop = loop, s.behind = behind, s.ready = ready
    rintro hpush hresend (_ | _ | _ | _ | _)
    · exact ⟨rfl, rfl, rfl⟩
    · cases hpush
    · cases hresend
    · cases hresend
    · cases hpush
  obtain ⟨hwriting, hloop, hbehind⟩ := hidle
  have hstdin : s.stdin = [] := by
    cases hlines : s.stdin with
    | nil => rfl
    | cons line rest => simp [Resending.step, hlines] at hread
  have hworker : s.worker = [] := by
    cases hlines : s.worker with
    | nil => rfl
    | cons line rest => simp [Resending.step, hlines] at hanswer
  have hstdout : s.stdout = [] := by
    have hhandle : s.step (.handleStdout now) = none :=
      hstuck (.handleStdout now) (beq_self_eq_true now) (fun hzero => by rw [hloop] at hzero; cases hzero)
    cases hlines : s.stdout with
    | nil => rfl
    | cons line rest =>
      simp only [Resending.step, hlines] at hhandle
      split at hhandle <;> cases hhandle
  have hrequests : s.requests = 0 := by
    cases hpending : s.requests with
    | zero => rfl
    | succ pending =>
      simp only [Resending.step, hloop, hpending] at hrequest
      split at hrequest <;> cases hrequest
  refine ⟨hwriting, hloop, hrequests, ?_⟩
  unfold inFlight
  rw [hstdout, hworker, hstdin, hbehind]
  rfl

/-- Then the queue is empty, and its jobs are done. -/
theorem Sound.done_of_idle {s : Resending} (h : s.Sound)
    (hidle : s.writing = none ∧ s.loop = none ∧ s.requests = 0 ∧ s.inFlight = []) : s.child.texts = [] ∧ s.done = s.dispatched := by
  obtain ⟨hwriting, hloop, hrequests, hempty⟩ := hidle
  have hcovered := h.covered
  unfold promised at hcovered
  rw [hloop, hempty, hrequests] at hcovered
  have hnil := List.sublist_nil.mp (hcovered.resolve_left (Nat.lt_irrefl 0))
  have horder := h.order
  rw [hnil, hwriting, Option.map_none, Option.toList_none, List.append_nil, List.append_nil] at horder
  exact ⟨hnil, horder⟩

end Resending

end FostWright
