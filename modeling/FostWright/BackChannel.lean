import FostWright.Defs
import FostWright.Lib.Framing
import FostWright.Lib.System

/-!
# The back channel of a child

A supervisor writes two kinds of messages to its manager on one pipe: a single `r` that asks for a resend, and log messages as
JSON texts, each ended by a NUL. `handle_child_requests` reads them into one `streambuf` with two different calls: `async_read`
for exactly one byte always takes a new byte from the pipe, whatever the buffer holds, while `async_read_until` first looks for a
NUL in the buffer and then takes what the pipe has. The first byte of a message is taken off the front of the buffer.
-/

namespace FostWright

open Lib

/-- The text of a JSON object after its opening brace. It has no NUL in it. -/
structure JsonBody where
  body : List Byte
  noNul : nul ∉ body

/-- What a supervisor sends. -/
inductive Message where
  | resend
  | log (json : JsonBody)

/-- What `handle_child_requests` does about what it reads: `exit` is the end of the manager. -/
inductive Request where
  | resend
  | exit
  | log (text : List Byte)
  | unknown (byte : Byte)
  deriving DecidableEq

/-- The bytes of a message: the `r` of `fork_worker`, or what `rawfd` writes. -/
def Message.bytes : Message → List Byte
  | .resend => [resendByte]
  | .log json => jsonByte :: (json.body ++ [nul])

/-- The request that a message stands for. -/
def Message.request : Message → Request
  | .resend => .resend
  | .log json => .log (jsonByte :: json.body)

/-- What `handle_child_requests` is suspended in. -/
inductive Reading where
  /-- `async_read` of the first byte of a request -/
  | request
  /-- `async_read_until` of the rest of a JSON text -/
  | json
  /-- the process has exited -/
  | exited
  deriving DecidableEq

/-- The bytes that the supervisor has still to write, those in the pipe and those in the buffer of `handle_child_requests`, and the
requests it has acted upon. -/
structure BackChannel where
  unsent : List Byte
  pipe : List Byte
  buffer : List Byte
  reading : Reading
  acted : List Request

namespace BackChannel

/-- What happens on the back channel. -/
inductive Action where
  /-- the pipe gets the next `k` bytes -/
  | deliver (k : Nat)
  /-- `async_read` completes with one byte -/
  | readByte
  /-- `async_read_until` has no NUL in the buffer and reads `k` bytes that the pipe has -/
  | readSome (k : Nat)
  /-- `async_read_until` has a NUL in the buffer and completes -/
  | readUntil

/-- The `switch` on the first byte of a request, which is taken off the front of the buffer. -/
def handle (s : BackChannel) (byte : Byte) (rest : List Byte) : BackChannel :=
  if byte = resendByte then { s with buffer := rest, acted := s.acted ++ [.resend] }
  else if byte = deadByte then { s with buffer := rest, reading := .exited, acted := s.acted ++ [.exit] }
  else if byte = jsonByte then { s with buffer := rest, reading := .json }
  else { s with buffer := rest, acted := s.acted ++ [.unknown byte] }

/-- One action. -/
def step (s : BackChannel) : Action → Option BackChannel
  | .deliver k => some { s with unsent := s.unsent.drop k, pipe := s.pipe ++ s.unsent.take k }
  | .readByte =>
    match s.reading, s.pipe with
    | .request, b :: pipe =>
      match s.buffer ++ [b] with
      | byte :: rest => some (handle { s with pipe := pipe } byte rest)
      | [] => none
    | _, _ => none
  | .readSome k =>
    if s.reading = .json ∧ cut nul s.buffer = none ∧ 0 < k ∧ k ≤ s.pipe.length then
      some { s with pipe := s.pipe.drop k, buffer := s.buffer ++ s.pipe.take k }
    else none
  | .readUntil =>
    match s.reading, cut nul s.buffer with
    | .json, some (text, rest) =>
      some { s with buffer := rest, reading := .request, acted := s.acted ++ [.log (jsonByte :: text.filter (· ≠ nul))] }
    | _, _ => none

/-- What each action needs and leads to. -/
inductive Steps (s : BackChannel) : Action → BackChannel → Prop where
  | deliver {k : Nat} : Steps s (.deliver k) { s with unsent := s.unsent.drop k, pipe := s.pipe ++ s.unsent.take k }
  | readByte {b byte : Byte} {pipe rest : List Byte} (reading : s.reading = .request) (taken : s.pipe = b :: pipe)
      (front : s.buffer ++ [b] = byte :: rest) : Steps s .readByte (handle { s with pipe := pipe } byte rest)
  | readSome {k : Nat} (reading : s.reading = .json) (some : 0 < k) (has : k ≤ s.pipe.length) :
      Steps s (.readSome k) { s with pipe := s.pipe.drop k, buffer := s.buffer ++ s.pipe.take k }
  | readUntil {text rest : List Byte} (reading : s.reading = .json) (found : cut nul s.buffer = some (text, rest)) :
      Steps s .readUntil
        { s with buffer := rest, reading := .request, acted := s.acted ++ [.log (jsonByte :: text.filter (· ≠ nul))] }

/-- A step is one of the cases. -/
theorem steps_of_step {s s' : BackChannel} {a : Action} (h : s.step a = some s') : s.Steps a s' := by
  cases a with
  | deliver k =>
    cases h
    exact .deliver
  | readByte =>
    simp only [step] at h
    split at h
    · rename_i b pipe hreading htaken
      split at h
      · rename_i byte rest hfront
        cases h
        exact .readByte hreading htaken hfront
      · cases h
    · cases h
  | readSome k =>
    simp only [step] at h
    obtain ⟨⟨hreading, -, hsome, hhas⟩, h⟩ := Option.ite_none_right_eq_some.mp h
    cases h
    exact .readSome hreading hsome hhas
  | readUntil =>
    simp only [step] at h
    split at h
    · rename_i text rest hreading hfound
      cases h
      exact .readUntil hreading hfound
    · cases h

/-- A back channel on which the given messages will be sent. -/
def system (messages : List Message) : System BackChannel Action where
  init := { unsent := messages.flatMap Message.bytes, pipe := [], buffer := [], reading := .request, acted := [] }
  step := step

/-- All bytes are written and read, and `handle_child_requests` is suspended in a read. -/
def Quiescent (s : BackChannel) : Prop :=
  s.unsent = [] ∧ s.pipe = [] ∧ (s.reading = .json → cut nul s.buffer = none)

/-- The read takes the last byte that is ever sent. -/
def TakesLast (s : BackChannel) : Action → Prop
  | .readByte => s.unsent = [] ∧ s.pipe.length = 1
  | .readSome k => s.unsent = [] ∧ s.pipe.length = k
  | _ => False

/-- The bytes of the last message, if there is one. -/
def lastBytes (messages : List Message) : List Byte := messages.getLast?.elim [] Message.bytes

/-- When the last byte is taken from the pipe, every byte of the earlier messages has left the pipe and the buffer: what is there is the end of
the last message. -/
def LastInTime (messages : List Message) (s : BackChannel) (a : Action) : Prop :=
  s.TakesLast a → s.buffer ++ s.pipe <:+ lastBytes messages

end BackChannel

end FostWright
