import FostWright.BackChannel
import Mathlib.Data.List.Basic

/-!
# When the back channel is decoded completely

The bytes not handled yet are always a suffix of the messages: those not started, after the rest of the JSON text that is being
read. What may go wrong is only that `handle_child_requests` waits for a byte while a whole message is in its buffer. Once the
last byte has been taken from the pipe no further message is started, so everything depends on how many messages were started
then: all of them, if only bytes of the last one were left.
-/

namespace FostWright

open Lib

namespace BackChannel

/-! ## The bytes that are left -/

/-- The bytes of the messages that have not been handled, as they stand between buffer, pipe and supervisor. -/
def left (s : BackChannel) : List Byte := s.buffer ++ s.pipe ++ s.unsent

/-- What is left are the messages not acted upon, the first of them without its brace while its text is read. -/
inductive Decoding (messages : List Message) (s : BackChannel) : Prop where
  | request (done rest : List Message) (split : messages = done ++ rest) (reading : s.reading = .request)
      (acted : s.acted = done.map Message.request) (left : s.left = rest.flatMap Message.bytes)
  | json (done rest : List Message) (text : JsonBody) (split : messages = done ++ .log text :: rest) (reading : s.reading = .json)
      (acted : s.acted = done.map Message.request) (left : s.left = text.body ++ nul :: rest.flatMap Message.bytes)

theorem decoding_init (messages : List Message) : Decoding messages (system messages).init :=
  .request [] messages rfl rfl rfl rfl

/-- An action that moves bytes towards the buffer leaves what is left. -/
theorem Decoding.move {messages : List Message} {s s' : BackChannel} (h : Decoding messages s) (hreading : s'.reading = s.reading)
    (hacted : s'.acted = s.acted) (hleft : s'.left = s.left) : Decoding messages s' := by
  cases h with
  | request done rest split reading acted left =>
    exact .request done rest split (hreading.trans reading) (hacted.trans acted) (hleft.trans left)
  | json done rest text split reading acted left =>
    exact .json done rest text split (hreading.trans reading) (hacted.trans acted) (hleft.trans left)

/-- The first byte of a message starts it: a resend is acted upon, a JSON text is read on. -/
theorem Decoding.handle {messages : List Message} {s : BackChannel} (h : Decoding messages s) (hreading : s.reading = .request)
    {byte : Byte} {rest pipe : List Byte} (hleft : s.left = byte :: rest ++ pipe ++ s.unsent) :
    Decoding messages (handle { s with pipe := pipe } byte rest) := by
  cases h with
  | json done more text split reading =>
    rw [hreading] at reading
    cases reading
  | request done more split reading acted left =>
    rw [hleft] at left
    cases more with
    | nil => cases left
    | cons m more =>
      cases m with
      | resend =>
        rw [List.flatMap_cons, Message.bytes, List.cons_append, List.cons_append, List.singleton_append, List.cons.injEq] at left
        obtain ⟨rfl, hrest⟩ := left
        refine .request (done ++ [.resend]) more ?_ reading ?_ ?_
        · rw [split, List.append_assoc, List.singleton_append]
        · rw [List.map_append, ← acted]
          rfl
        · exact hrest
      | log text =>
        rw [List.flatMap_cons, Message.bytes, List.cons_append, List.cons_append, List.cons_append, List.cons.injEq] at left
        obtain ⟨rfl, hrest⟩ := left
        refine .json done more text split rfl acted ?_
        change rest ++ pipe ++ s.unsent = _
        rw [hrest, List.append_assoc, List.singleton_append]

/-- The NUL that ends a JSON text in the buffer is the one that was sent. -/
theorem Decoding.readUntil {messages : List Message} {s : BackChannel} (h : Decoding messages s) (hreading : s.reading = .json)
    {text rest : List Byte} (hcut : cut nul s.buffer = some (text, rest)) :
    Decoding messages
      { s with buffer := rest, reading := .request, acted := s.acted ++ [.log (jsonByte :: text.filter (· ≠ nul))] } := by
  cases h with
  | request done more split reading =>
    rw [hreading] at reading
    cases reading
  | json done more body split reading acted left =>
    have hsent : cut nul s.left = some (body.body, more.flatMap Message.bytes) := by
      rw [left]
      exact cut_frame body.noNul _
    have hread : cut nul s.left = some (text, rest ++ (s.pipe ++ s.unsent)) := by
      unfold BackChannel.left
      rw [List.append_assoc]
      exact cut_append hcut _
    rw [hsent, Option.some.injEq, Prod.mk.injEq] at hread
    obtain ⟨rfl, hrest⟩ := hread
    have hfilter : body.body.filter (· ≠ nul) = body.body := by
      rw [List.filter_eq_self]
      intro x hx
      have hne : x ≠ nul := fun h0 => body.noNul (h0 ▸ hx)
      simpa using hne
    refine .request (done ++ [.log body]) more ?_ rfl ?_ ?_
    · rw [split, List.append_assoc, List.singleton_append]
    · rw [List.map_append, hfilter, ← acted]
      rfl
    · rw [hrest]
      unfold BackChannel.left
      rw [List.append_assoc]

/-- One action keeps the bytes that are left in step with the messages. -/
theorem Decoding.step {messages : List Message} {s s' : BackChannel} {a : Action} (h : Decoding messages s)
    (hs : s.step a = some s') : Decoding messages s' := by
  cases steps_of_step hs with
  | deliver =>
    refine h.move rfl rfl ?_
    simp only [BackChannel.left, List.append_assoc, List.take_append_drop]
  | readByte hreading htaken hfront =>
    refine h.handle hreading ?_
    rw [← hfront]
    simp only [BackChannel.left, htaken, List.append_assoc, List.cons_append, List.nil_append]
  | @readSome k =>
    refine h.move rfl rfl ?_
    simp only [BackChannel.left, List.append_assoc]
    rw [← List.append_assoc (s.pipe.take k), List.take_append_drop]
  | readUntil hreading hfound => exact h.readUntil hreading hfound

/-! ## The messages that were started -/

/-- No byte is left outside the buffer. -/
def Exhausted (s : BackChannel) : Prop := s.pipe = [] ∧ s.unsent = []

/-- The messages acted upon, and the one that is being read. -/
def started (s : BackChannel) : Nat := s.acted.length + if s.reading = .json then 1 else 0

/-- Starting a message makes one more. -/
theorem started_handle (s : BackChannel) (byte : Byte) (rest : List Byte) (hreading : s.reading = .request) :
    (handle s byte rest).started = s.acted.length + 1 := by
  unfold handle
  split
  · simp [started, hreading]
  · split
    · simp [started]
    · split
      · simp [started]
      · simp [started, hreading]

theorem handle_pipe (s : BackChannel) (byte : Byte) (rest : List Byte) :
    (handle s byte rest).pipe = s.pipe ∧ (handle s byte rest).unsent = s.unsent := by
  unfold handle
  split
  · exact ⟨rfl, rfl⟩
  · split
    · exact ⟨rfl, rfl⟩
    · split <;> exact ⟨rfl, rfl⟩

/-- Once every byte has been taken from the pipe, no further message is started. -/
theorem started_of_exhausted {s s' : BackChannel} {a : Action} (h : s.Exhausted) (hs : s.step a = some s') :
    ¬ s.TakesLast a ∧ s'.Exhausted ∧ s'.started = s.started := by
  obtain ⟨hpipe, hunsent⟩ := h
  cases steps_of_step hs with
  | deliver =>
    refine ⟨id, ⟨?_, ?_⟩, rfl⟩
    · simp [hpipe, hunsent]
    · simp [hunsent]
  | readByte _ htaken =>
    rw [hpipe] at htaken
    cases htaken
  | readSome _ hsome hhas =>
    rw [hpipe, List.length_nil] at hhas
    omega
  | readUntil hreading =>
    refine ⟨id, ⟨hpipe, hunsent⟩, ?_⟩
    simp [started, hreading]

/-- The read of the last byte leaves no byte outside the buffer, and the message it is made for is the last one started. -/
theorem started_of_takesLast {s s' : BackChannel} {a : Action} (h : s.TakesLast a) (hs : s.step a = some s') :
    s'.Exhausted ∧ s'.started = s.acted.length + 1 := by
  cases steps_of_step hs with
  | deliver => exact h.elim
  | readUntil => exact h.elim
  | @readByte _ byte pipe rest hreading htaken =>
    obtain ⟨hunsent, hone⟩ := h
    have hnil : pipe = [] := by
      rw [htaken, List.length_cons] at hone
      exact List.length_eq_zero_iff.mp (by omega)
    obtain ⟨hp, hu⟩ := handle_pipe { s with pipe := pipe } byte rest
    exact ⟨⟨hp.trans hnil, hu.trans hunsent⟩, started_handle { s with pipe := pipe } byte rest hreading⟩
  | readSome hreading =>
    obtain ⟨hunsent, hall⟩ := h
    refine ⟨⟨?_, hunsent⟩, ?_⟩
    · exact List.drop_eq_nil_of_le (le_of_eq hall)
    · simp [started, hreading]

/-- Any other action leaves bytes outside the buffer if there were some. -/
theorem not_exhausted_of_not_takesLast {s s' : BackChannel} {a : Action} (h : ¬ s.Exhausted) (hlast : ¬ s.TakesLast a)
    (hs : s.step a = some s') : ¬ s'.Exhausted := by
  rintro ⟨hpipe', hunsent'⟩
  cases steps_of_step hs with
  | @deliver k =>
    obtain ⟨hp, ht⟩ := List.append_eq_nil_iff.mp hpipe'
    refine h ⟨hp, ?_⟩
    rw [← List.take_append_drop k s.unsent, ht]
    exact hunsent'
  | @readByte _ byte pipe rest _ htaken =>
    obtain ⟨hp, hu⟩ := handle_pipe { s with pipe := pipe } byte rest
    refine hlast ⟨hu.symm.trans hunsent', ?_⟩
    have hnil : pipe = [] := hp.symm.trans hpipe'
    rw [htaken, hnil]
    rfl
  | @readSome k _ _ hhas =>
    have hge : s.pipe.length ≤ k := List.drop_eq_nil_iff.mp hpipe'
    exact hlast ⟨hunsent', by omega⟩
  | readUntil => exact h ⟨hpipe', hunsent'⟩

/-! ## The last byte -/

/-- A message has at least one byte. -/
theorem length_bytes_pos (m : Message) : 0 < m.bytes.length := by
  cases m with
  | resend => exact Nat.one_pos
  | log json => exact Nat.succ_pos _

theorem eq_nil_of_bytes {messages : List Message} (h : messages.flatMap Message.bytes = []) : messages = [] := by
  cases messages with
  | nil => rfl
  | cons m messages =>
    rw [List.flatMap_cons, List.append_eq_nil_iff] at h
    exact absurd (congrArg List.length h.1) (length_bytes_pos m).ne'

/-- The last of some messages comes last in their bytes. -/
theorem lastBytes_le (messages : List Message) {rest : List Message} (hrest : rest ≠ []) :
    (lastBytes (messages ++ rest)).length ≤ (rest.flatMap Message.bytes).length := by
  have hlast : lastBytes (messages ++ rest) = (rest.getLast hrest).bytes := by
    unfold lastBytes
    rw [List.getLast?_append_of_ne_nil messages hrest, List.getLast?_eq_some_getLast hrest, Option.elim_some]
  conv_rhs => rw [← List.dropLast_append_getLast hrest, List.flatMap_append, List.flatMap_singleton, List.length_append]
  rw [hlast]
  exact Nat.le_add_left _ _

theorem lastBytes_concat (messages : List Message) (m : Message) : lastBytes (messages ++ [m]) = m.bytes := by
  unfold lastBytes
  rw [List.getLast?_concat, Option.elim_some]

/-- The last byte is taken while all messages but the last have been acted upon exactly when it is taken among bytes of the last one. -/
theorem Decoding.acted_iff_lastBytes {messages : List Message} {s s' : BackChannel} {a : Action} (h : Decoding messages s)
    (hlast : s.TakesLast a) (hs : s.step a = some s') : s.acted.length + 1 = messages.length ↔ s.buffer ++ s.pipe <:+ lastBytes messages := by
  obtain ⟨hunsent, htaken⟩ : s.unsent = [] ∧ s.pipe ≠ [] := by
    cases steps_of_step hs with
    | deliver => exact hlast.elim
    | readByte _ htaken => exact ⟨hlast.1, fun hnil => by rw [hnil] at htaken; cases htaken⟩
    | readSome _ hsome => exact ⟨hlast.1, fun hnil => by rw [TakesLast, hnil, List.length_nil] at hlast; omega⟩
    | readUntil => exact hlast.elim
  have hleft : s.left = s.buffer ++ s.pipe := by rw [BackChannel.left, hunsent, List.append_nil]
  rw [← hleft]
  cases h with
  | request done rest split reading acted left =>
    have hrest : rest ≠ [] := by
      rintro rfl
      rw [hleft, List.flatMap_nil, List.append_eq_nil_iff] at left
      exact htaken left.2
    rw [acted, left, split, List.length_map, List.length_append, Nat.add_left_cancel_iff]
    constructor
    · intro hone
      obtain ⟨m, rfl⟩ := List.length_eq_one_iff.mp hone.symm
      have hend : [m].flatMap Message.bytes = lastBytes (done ++ [m]) := by
        rw [lastBytes_concat, List.flatMap_singleton]
      exact hend ▸ List.suffix_refl _
    · intro hsuffix
      -- a message before the last one would have bytes there too
      obtain ⟨m, more, rfl⟩ := List.exists_cons_of_ne_nil hrest
      have hle := hsuffix.length_le
      rw [List.flatMap_cons, List.length_append] at hle
      have hpos := length_bytes_pos m
      cases more with
      | nil => rfl
      | cons m' more =>
        have hmore := lastBytes_le (done ++ [m]) (List.cons_ne_nil m' more)
        rw [List.append_assoc, List.singleton_append] at hmore
        omega
  | json done rest text split reading acted left =>
    rw [acted, left, split, List.length_map, List.length_append, Nat.add_left_cancel_iff, List.length_cons]
    constructor
    · intro hone
      obtain rfl : rest = [] := List.length_eq_zero_iff.mp (by omega)
      rw [lastBytes_concat]
      exact List.suffix_cons jsonByte _
    · intro hsuffix
      have hle := hsuffix.length_le
      rw [List.length_append, List.length_cons] at hle
      cases rest with
      | nil => rfl
      | cons m' rest =>
        have hmore := lastBytes_le (done ++ [.log text]) (List.cons_ne_nil m' rest)
        rw [List.append_assoc, List.singleton_append] at hmore
        omega

/-! ## Runs -/

/-- A run after the last byte was taken. -/
theorem run_of_exhausted {messages : List Message} {s t : BackChannel} {as : List Action} (h : s.Exhausted)
    (hrun : (system messages).run s as = some t) :
    (system messages).Meets (LastInTime messages) s as ∧ t.started = s.started := by
  induction as generalizing s with
  | nil =>
    cases hrun
    exact ⟨trivial, rfl⟩
  | cons a as ih =>
    obtain ⟨u, hs, hrun⟩ := Option.bind_eq_some_iff.mp hrun
    obtain ⟨hlast, hex, hstarted⟩ := started_of_exhausted h hs
    obtain ⟨hmeets, hend⟩ := ih hex hrun
    exact ⟨(System.meets_cons hs as).mpr ⟨fun htakes => absurd htakes hlast, hmeets⟩, hend.trans hstarted⟩

/-- In a run that takes the last byte, all messages are started exactly when it is taken in time. -/
theorem started_iff_meets {messages : List Message} {s t : BackChannel} {as : List Action} (hd : Decoding messages s) (h : ¬ s.Exhausted)
    (hrun : (system messages).run s as = some t) (hend : t.Exhausted) :
    t.started = messages.length ↔ (system messages).Meets (LastInTime messages) s as := by
  induction as generalizing s with
  | nil =>
    cases hrun
    exact absurd hend h
  | cons a as ih =>
    obtain ⟨u, hs, hrun⟩ := Option.bind_eq_some_iff.mp hrun
    rw [System.meets_cons hs]
    by_cases hlast : s.TakesLast a
    · obtain ⟨hex, hstarted⟩ := started_of_takesLast hlast hs
      obtain ⟨hmeets, hsame⟩ := run_of_exhausted hex hrun
      rw [hsame, hstarted, hd.acted_iff_lastBytes hlast hs]
      exact ⟨fun heq => ⟨fun _ => heq, hmeets⟩, fun hand => hand.1 hlast⟩
    · rw [ih (hd.step hs) (not_exhausted_of_not_takesLast h hlast hs) hrun]
      exact ⟨fun hmeets => ⟨fun htakes => absurd htakes hlast, hmeets⟩, fun hand => hand.2⟩

/-- In a quiescent state no JSON text is half read, so the messages started are those acted upon. -/
theorem Decoding.acted_iff {messages : List Message} {s : BackChannel} (h : Decoding messages s) (hq : s.Quiescent) :
    s.acted = messages.map Message.request ↔ s.started = messages.length := by
  obtain ⟨hunsent, hpipe, hsuspended⟩ := hq
  cases h with
  | request done rest split reading acted left =>
    have hstarted : s.started = done.length := by
      simp [started, reading, acted]
    rw [hstarted, acted, split]
    constructor
    · intro heq
      simpa using congrArg List.length heq
    · intro hlen
      rw [List.length_append] at hlen
      have hnil : rest = [] := List.length_eq_zero_iff.mp (by omega)
      rw [hnil, List.append_nil]
  | json done rest text split reading acted left =>
    have hnone := hsuspended reading
    have hbuffer : s.buffer = text.body ++ nul :: rest.flatMap Message.bytes := by
      rw [← left, BackChannel.left, hpipe, hunsent, List.append_nil, List.append_nil]
    rw [hbuffer, cut_frame text.noNul] at hnone
    cases hnone

/-- In every run that ends with all bytes written and read: the requests acted upon are the messages sent, in order, exactly when
before the read that takes the last byte every byte of the earlier messages has left the pipe and the buffer. -/
theorem decoded_iff_last_in_time (messages : List Message) (as : List Action) (s : BackChannel)
    (hrun : (system messages).run (system messages).init as = some s) (hq : s.Quiescent) :
    s.acted = messages.map Message.request ↔
      (system messages).Meets (LastInTime messages) (system messages).init as := by
  have hdecoding : Decoding messages s :=
    (System.reachFrom_of_run System.ReachFrom.refl ((system messages).meets_anyStep _ as) hrun).invariant
      (decoding_init messages) (fun _ _ _ hd _ hs => hd.step hs)
  have hend : s.Exhausted := ⟨hq.2.1, hq.1⟩
  rw [hdecoding.acted_iff hq]
  by_cases h : (system messages).init.Exhausted
  · obtain ⟨hmeets, hsame⟩ := run_of_exhausted h hrun
    have hnil : messages = [] := eq_nil_of_bytes h.2
    refine iff_of_true ?_ hmeets
    rw [hsame, hnil]
    rfl
  · exact started_iff_meets (decoding_init messages) h hrun hend

/-- A resend and a log message that arrive one after the other are both acted upon. -/
theorem decoded_iff_last_in_time_run :
    (system [.resend, .log ⟨[125], by decide⟩]).Meets (LastInTime [.resend, .log ⟨[125], by decide⟩])
      (system [.resend, .log ⟨[125], by decide⟩]).init
      [.deliver 1, .readByte, .deliver 3, .readByte, .readSome 2, .readUntil] :=
  (decoded_iff_last_in_time _ _ { unsent := [], pipe := [], buffer := [], reading := .request, acted := [.resend, .log [123, 125]] }
    rfl ⟨rfl, rfl, fun h => nomatch h⟩).mp rfl

/-- A resend request right behind a log message is swallowed by the read for the log message, and is not acted upon. -/
theorem resend_not_decoded :
    ¬ ∀ (messages : List Message) (as : List Action) (s : BackChannel),
      (system messages).run (system messages).init as = some s → s.Quiescent → s.acted = messages.map Message.request := by
  intro h
  have hacted := h [.log ⟨[125], by decide⟩, .resend] [.deliver 4, .readByte, .readSome 3, .readUntil]
    { unsent := [], pipe := [], buffer := [114], reading := .request, acted := [.log [123, 125]] }
    rfl ⟨rfl, rfl, fun h => nomatch h⟩
  cases hacted

end BackChannel

end FostWright
