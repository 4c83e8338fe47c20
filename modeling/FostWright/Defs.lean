import FostWright.Lib.OrdMap
import FostWright.Lib.CircularBuffer
import Mathlib.Order.Fin.Basic
import Mathlib.Data.Multiset.AddSub
import Mathlib.Data.List.Lex

/-!
# The data of a manager

The data that `wright::capacity` and what it refers to hold, in the manager process (`exec_helper`) and in the network client
(`netvisor`): the limiter and its tokens, the children with their command queues, the connections with their outstanding work,
the overspill queue, the outbound packet queues and standard output. The limiter and the two queues belong to the f5 library
and are modelled by what the code relies on: a limiter that counts the tokens alive and FIFO queues.
-/

namespace FostWright

open Lib

/-- A `char`. -/
abbrev Byte := Fin 256

def nul : Byte := 0

def newline : Byte := 10

/-- The bytes `r`, `x` and `{` that start a request on the back channel of a child. -/
def resendByte : Byte := 114

def deadByte : Byte := 120

def jsonByte : Byte := 123

/-- The -1 of `sbumpc` on an empty buffer, as a `char`. -/
def eofByte : Byte := 255

/-- A `std::string`: a job text, or a line of output. `std::map` orders its keys as lists of bytes. -/
abbrev Line := List Byte

/-- `Uh oh, crashed`: what `echo` writes when it crashes after its work. -/
def crashedLine : Line := [85, 104, 32, 111, 104, 44, 32, 99, 114, 97, 115, 104, 101, 100]

/-- The exit codes of `echo`: of a crash during its work, of one after it, and of its end. -/
def exitDuringWork : Fin 256 := 3

def exitAfterWork : Fin 256 := 2

def exitSuccess : Fin 256 := 0

/-- The identity of one `f5::fd::limiter::job`. -/
abbrev Token := Nat

/-- `wright::buffer_size`: the buffer size for each child. -/
def bufferSize : Nat := 3

/-! ## The limiter -/

/-- `f5::fd::limiter`: the limit, and the tokens handed out that have not been destroyed. -/
structure Limiter where
  limit : Int
  live : Multiset Token
  issued : Nat

/-- The number of tokens alive. -/
def Limiter.outstanding (l : Limiter) : Nat := Multiset.card l.live

/-- `next_job` on the limiter: a fresh token, only while fewer than `limit` are alive. -/
def Limiter.nextJob (l : Limiter) : Option (Token × Limiter) :=
  if (l.outstanding : Int) < l.limit then some (l.issued, { l with live := l.issued ::ₘ l.live, issued := l.issued + 1 })
  else none

/-- The destruction of a token. -/
def Limiter.release (l : Limiter) (t : Token) : Limiter := { l with live := l.live.erase t }

/-- The destruction of several tokens. -/
def Limiter.releaseAll (l : Limiter) (ts : List Token) : Limiter := ts.foldl Limiter.release l

def Limiter.increaseLimit (l : Limiter) (n : Nat) : Limiter := { l with limit := l.limit + n }

def Limiter.decreaseLimit (l : Limiter) (n : Nat) : Limiter := { l with limit := l.limit - n }

/-! ## Children -/

/-- `wright::job`: the command line, the limiter token that it keeps alive and the instant its timer was last started. -/
structure Job where
  command : Line
  limiter : Token
  time : Nat

/-- `wright::childproc`: of its fields, the queue of the commands that the child has not answered yet. -/
structure Childproc where
  commands : CircularBuffer Job bufferSize

/-- `wright::child_pool`: the children, and the durations recorded in `job_times`. -/
structure ChildPool where
  children : List Childproc
  jobTimes : List Nat

/-! ## Connections -/

/-- A connection, as the owner of its control block: `std::owner_less` orders them. -/
abbrev ConnId := Nat

/-- `capacity::remote`: the capacity a peer announced and the work it has not completed, keyed by the job text. -/
structure Remote where
  cap : Nat
  work : OrdMap Line Token

/-- The packets of the protocol, with what they carry. -/
inductive Packet where
  | version (version : Nat) (capacity : Option Nat)
  | execute (job : Line)
  | completed (job : Line)
  | logMessage (message : Line)
  deriving DecidableEq

/-- The two ends of a connection: `exec_helper` has server sides only, `netvisor` one client side, the connection given. -/
inductive Peering where
  | serverSide
  | clientSide (cnx : ConnId)

/-! ## The capacity -/

/-- `wright::capacity` and what its operations touch: the pool it refers to, the outbound queue of each connection, standard
output and the clock. `expired` are the connections whose `shared_ptr` is gone. -/
structure Capacity where
  limiter : Limiter
  childIndex : Nat
  connections : OrdMap ConnId Remote
  pool : ChildPool
  overspill : List Line
  inputComplete : Bool
  queue : ConnId → List Packet
  expired : List ConnId
  stdout : List Line
  now : Nat
  /-- The performance counters `jobs/accepted`, `jobs/completed`, `child/crashed` and `jobs/resent`. -/
  accepted : Nat
  completed : Nat
  crashed : Nat
  resent : Nat

/-- The constructor of `capacity` on a pool of `n` children, each with an empty queue. -/
def Capacity.init (n : Nat) : Capacity where
  limiter := { limit := (n * bufferSize : Nat), live := 0, issued := 0 }
  childIndex := 0
  connections := OrdMap.empty
  pool := { children := List.replicate n { commands := CircularBuffer.empty }, jobTimes := [] }
  overspill := []
  inputComplete := false
  queue := fun _ => []
  expired := []
  stdout := []
  now := 0
  accepted := 0
  completed := 0
  crashed := 0
  resent := 0

end FostWright
