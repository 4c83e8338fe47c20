import FostWright.Crash
import FostWright.Lib.Reader
import FostWright.Network

/-!
# From the bytes of stdin to the lines printed

The manager and its clients with the standard input of the manager, byte by byte. The buffer of the stdin coroutine persists between the
calls of `async_read_until` and is filled only while the coroutine is suspended in one; what a call completes with becomes the job that
`next_job` is called with, and an error at the end of the input ends the loop.
-/

namespace FostWright

open Lib

/-- The manager with its clients, and its standard input. -/
structure Filter where
  network : Network
  reader : Reader Byte

/-- The input was found to have ended. -/
def Stage.pastReading : Stage → Bool
  | .clearOverspill last => last
  | .readLine => false
  | .waitUntilAllDone => true
  | .returned => true

/-- What the stdin coroutine does with the input. -/
def ExecHelper.Action.reads : ExecHelper.Action → Bool
  | .line _ => true
  | .eof => true
  | _ => false

/-- What the stdin coroutine of the server does with the input. -/
def Network.Action.reads : Network.Action → Bool
  | .server a => a.reads
  | .link _ _ => false

namespace Filter

/-- What happens. -/
inductive Action where
  /-- a piece of stdin arrives, or stdin ends -/
  | feed (f : Feed Byte)
  /-- `async_read_until` moves some of what has arrived to the buffer -/
  | readSome (k : Nat)
  /-- `async_read_until` completes with a number of bytes -/
  | line
  /-- `async_read_until` completes with an error: end of file, and no newline left -/
  | inputError
  /-- anything else -/
  | network (a : Network.Action)

/-- One action. -/
def step (overspillCap : Nat) (clients : Finset ConnId) (s : Filter) : Action → Option Filter
  | .feed (.readSome _) => none
  | .feed f => (s.reader.feed newline f).map (fun reader => { s with reader := reader })
  | .readSome k =>
    if s.network.server.stage = .readLine then
      (s.reader.feed newline (.readSome k)).map (fun reader => { s with reader := reader })
    else none
  | .line =>
    match s.reader.readUntil newline with
    | some bytes =>
      let (line, buffer) := bump bytes s.reader.buffer
      (s.network.step overspillCap clients (.server (.line line))).map (fun network =>
        { network := network, reader := { s.reader with buffer := buffer } })
    | none => none
  | .inputError =>
    if s.reader.AtEnd newline then
      (s.network.step overspillCap clients (.server .eof)).map (fun network => { s with network := network })
    else none
  | .network a =>
    if a.reads then none else (s.network.step overspillCap clients a).map (fun network => { s with network := network })

/-- A server with `n` children, and clients with `m c` children each, before anything has arrived. -/
def system (n : Nat) (m : ConnId → Nat) (overspillCap : Nat) (clients : Finset ConnId) : System Filter Action where
  init := { network := (Network.system n m overspillCap clients).init, reader := Reader.start }
  step := step overspillCap clients

/-- What each action needs and leads to. A line is the bytes up to the first newline in the buffer. -/
inductive Steps (overspillCap : Nat) (clients : Finset ConnId) (s : Filter) : Action → Filter → Prop where
  | feed {f : Feed Byte} {reader : Reader Byte} (comes : ∀ k, f ≠ .readSome k) (moved : s.reader.feed newline f = some reader) :
      Steps overspillCap clients s (.feed f) { s with reader := reader }
  | readSome {k : Nat} {reader : Reader Byte} (moved : s.reader.feed newline (.readSome k) = some reader) :
      Steps overspillCap clients s (.readSome k) { s with reader := reader }
  | line {w rest : List Byte} {network : Network} (buffer : s.reader.buffer = w ++ newline :: rest) (first : newline ∉ w)
      (step : s.network.step overspillCap clients (.server (.line (readLine w))) = some network) :
      Steps overspillCap clients s .line { network := network, reader := { s.reader with buffer := rest } }
  | inputError {network : Network} (atEnd : s.reader.AtEnd newline)
      (step : s.network.step overspillCap clients (.server .eof) = some network) :
      Steps overspillCap clients s .inputError { s with network := network }
  | network {a : Network.Action} {network : Network} (reads : a.reads = false)
      (step : s.network.step overspillCap clients a = some network) :
      Steps overspillCap clients s (.network a) { s with network := network }

/-- A step is one of the cases. -/
theorem steps_of_step {overspillCap : Nat} {clients : Finset ConnId} {s s' : Filter} {a : Action}
    (h : s.step overspillCap clients a = some s') : s.Steps overspillCap clients a s' := by
  cases a with
  | feed f =>
    cases f with
    | readSome k => cases h
    | arrive piece =>
      obtain ⟨reader, hmoved, rfl⟩ := Option.map_eq_some_iff.mp h
      exact .feed (fun _ h => by cases h) hmoved
    | finish =>
      obtain ⟨reader, hmoved, rfl⟩ := Option.map_eq_some_iff.mp h
      exact .feed (fun _ h => by cases h) hmoved
  | readSome k =>
    obtain ⟨-, h⟩ := Option.ite_none_right_eq_some.mp h
    obtain ⟨reader, hmoved, rfl⟩ := Option.map_eq_some_iff.mp h
    exact .readSome hmoved
  | line =>
    simp only [step] at h
    split at h
    · rename_i bytes hread
      obtain ⟨w, rest, hbuffer, hfirst, rfl⟩ := Reader.readUntil_eq_some hread
      rw [hbuffer, bump_append_newline] at h
      obtain ⟨network, hstep, rfl⟩ := Option.map_eq_some_iff.mp h
      exact .line hbuffer hfirst hstep
    · cases h
  | inputError =>
    obtain ⟨hend, h⟩ := Option.ite_none_right_eq_some.mp h
    obtain ⟨network, hstep, rfl⟩ := Option.map_eq_some_iff.mp h
    exact .inputError hend hstep
  | network a =>
    simp only [step] at h
    split at h
    · cases h
    · rename_i hreads
      obtain ⟨network, hstep, rfl⟩ := Option.map_eq_some_iff.mp h
      exact .network (Bool.eq_false_iff.mpr hreads) hstep

/-! ## Progress -/

/-- What takes the stream or the jobs forward. -/
def Productive (s : Filter) : Action → Prop
  | .feed _ => False
  | .readSome _ => True
  | .line => True
  | .inputError => True
  | .network a => s.network.Productive a

/-- What is left to do. A byte costs as much as a job of one byte. -/
def remaining (clients : Finset ConnId) (s : Filter) : Nat :=
  (12 * clients.card + 13) * s.reader.work + s.network.remaining clients

end Filter

end FostWright
