import FostWright.Defs

/-!
# The operations of the capacity

`exec.capacity.cpp`, with the parts of `exec.childproc.cpp`, `net.packets.cpp` and `net.connection.cpp` that change the books:
`next_job` in the two pieces between which its coroutine may be suspended, the handling of one line of a child's stdout, the
two `job_done`s, `overspill_work`, `additional`, and the handlers of the inbound packets. Each definition is one stretch of
code without a yield. Where a smart pointer is overwritten, popped or erased, the token it owned is released.
-/

namespace FostWright

open Lib

/-! ## Children -/

/-- The body of the loop of `childproc::handle_stdout` on the line `ret`: when it is the text of the front of the queue, the
front is popped, the timer of the next command is reset, and the job popped is returned; otherwise the line is ignored. -/
def Childproc.handleStdout (child : Childproc) (now : Nat) (ret : Line) : Option (Job × Childproc) :=
  match child.commands.front? with
  | some front =>
    if ret ≠ [] ∧ ret = front.command then
      some (front, { commands := child.commands.popFront.modifyFront (fun job => { job with time := now }) })
    else none
  | none => none

/-- The texts of the commands that the child has not answered, front first. -/
def Childproc.texts (child : Childproc) : List Line := child.commands.elems.map Job.command

namespace Capacity

/-! ## `next_job` -/

/-- `cxv.second` for a connection that is alive and has spare capacity, the first in the order of the map. -/
def spare (s : Capacity) : Option (ConnId × Remote) :=
  s.connections.entries.find? (fun e => decide (e.1 ∉ s.expired) && decide (e.2.work.size < e.2.cap))

/-- The `do … while` of `next_job`, for at most `fuel` turns: step the index to the next child, cyclically, until one is found
whose queue is not full. A whole turn of the pool without one means that the loop does not end. -/
def rotate (children : List Childproc) (index : Nat) : Nat → Option Nat
  | 0 => none
  | fuel + 1 =>
    match children[(index + 1) % children.length]? with
    | some child => if child.commands.full then rotate children ((index + 1) % children.length) fuel
      else some ((index + 1) % children.length)
    | none => none

/-- The child that the loop of `next_job` ends on. -/
def nextChild (s : Capacity) : Option Nat := rotate s.pool.children s.childIndex s.pool.children.length

/-- The limiter has handed out a token: the job is counted as accepted. -/
def accept (s : Capacity) (limiter : Limiter) : Capacity := { s with limiter := limiter, accepted := s.accepted + 1 }

/-- `cnx->queue.produce`. -/
def produce (s : Capacity) (c : ConnId) (packet : Packet) : Capacity :=
  { s with queue := Function.update s.queue c (s.queue c ++ [packet]) }

/-- `next_job` on a connection with spare capacity: the job is entered in its work, where a token under the same text is
overwritten and so destroyed, and an `execute` packet is queued. -/
def giveRemote (s : Capacity) (c : ConnId) (remote : Remote) (job : Line) (task : Token) : Capacity :=
  produce
    { s with
      limiter := s.limiter.releaseAll (remote.work.find? job).toList
      connections := s.connections.insert c { remote with work := remote.work.insert job task } }
    c (.execute job)

/-- The end of `next_job` on a child, after the write: `commands.push_back`. -/
def pushCommand (s : Capacity) (k : Nat) (job : Line) (task : Token) : Capacity :=
  match s.pool.children[k]? with
  | some child =>
    let command : Job := { command := job, limiter := task, time := s.now }
    { s with
      limiter := s.limiter.releaseAll ((child.commands.overwritten command).map Job.limiter)
      pool := { s.pool with children := s.pool.children.set k { commands := child.commands.pushBack command } } }
  | none => s

/-! ## Completions -/

/-- `capacity::job_done(job)`: count it. -/
def jobDone (s : Capacity) : Capacity := { s with completed := s.completed + 1 }

/-- The callback that `exec_helper` and `netvisor` give to `handle_stdout`: the server prints the job, the client queues a
`completed` packet for the server. -/
def jobDoneCallback (peer : Peering) (job : Line) (s : Capacity) : Capacity :=
  match peer with
  | .serverSide => { s.jobDone with stdout := s.stdout ++ [job] }
  | .clientSide cnx => s.jobDone.produce cnx (.completed job)

/-- `handle_stdout` on the line `ret` of child `k`: when it answers the front of the queue its duration is recorded, its token
is released and the callback is called. -/
def handleStdout (peer : Peering) (s : Capacity) (k : Nat) (ret : Line) : Capacity :=
  match s.pool.children[k]? with
  | some child =>
    match child.handleStdout s.now ret with
    | some (job, child') =>
      jobDoneCallback peer ret
        { s with
          limiter := s.limiter.release job.limiter
          pool := { children := s.pool.children.set k child', jobTimes := s.pool.jobTimes ++ [s.now - job.time] } }
    | none => s
  | none => s

/-- `connections[cnx]`: what the map holds there, or a value-initialised `remote` that is put there. -/
def remoteAt (s : Capacity) (c : ConnId) : Capacity × Remote :=
  match s.connections.find? c with
  | some remote => (s, remote)
  | none =>
    let remote : Remote := { cap := 0, work := OrdMap.empty }
    ({ s with connections := s.connections.insert c remote }, remote)

/-- `capacity::job_done(cnx, job)`: a job that is outstanding for the connection is erased, counted and printed. -/
def jobDoneFrom (s : Capacity) (c : ConnId) (job : Line) : Capacity :=
  let (s, remote) := s.remoteAt c
  match remote.work.find? job with
  | none => s
  | some task =>
    { s.jobDone with
      limiter := s.limiter.release task
      connections := s.connections.insert c { remote with work := remote.work.erase job }
      stdout := s.stdout ++ [job] }

/-! ## Connections -/

/-- `capacity::overspill_work`: the outstanding work of a known connection goes to the overspill, in key order, the limit goes
down by its capacity and the connection is forgotten. -/
def overspillWork (s : Capacity) (c : ConnId) : Capacity :=
  match s.connections.find? c with
  | some remote =>
    { s with
      overspill := s.overspill ++ remote.work.keys
      limiter := (s.limiter.decreaseLimit remote.cap).releaseAll (remote.work.entries.map Prod.snd)
      connections := s.connections.erase c }
  | none => s

/-- `capacity::additional`: register a connection with its capacity; it throws when the connection is known. -/
def additional (s : Capacity) (c : ConnId) (cap : Nat) : Except String Capacity :=
  match s.connections.find? c with
  | none =>
    .ok { s with
      connections := s.connections.insert c { cap := cap, work := OrdMap.empty }
      limiter := s.limiter.increaseLimit cap }
  | some _ => .error "Where the connection is already known"

/-- `in::version`: a capacity in the packet is registered on a server side, and only logged on a client side. -/
def inVersion (peer : Peering) (s : Capacity) (c : ConnId) (capacity : Option Nat) : Except String Capacity :=
  match capacity, peer with
  | some cap, .serverSide => s.additional c cap
  | _, _ => .ok s

/-- `in::execute`: the job goes to the overspill. -/
def inExecute (s : Capacity) (job : Line) : Capacity := { s with overspill := s.overspill ++ [job] }

/-- The dispatch of an inbound packet of connection `c` to its handler. -/
def dispatch (peer : Peering) (s : Capacity) (c : ConnId) : Packet → Except String Capacity
  | .version _ capacity => s.inVersion peer c capacity
  | .execute job => .ok (s.inExecute job)
  | .completed job => .ok (s.jobDoneFrom c job)
  | .logMessage _ => .ok s

/-- What `redistribute` of `process_inbound` does to the books when the connection is lost: on a server side its work is moved to
the overspill; a client side only stops waiting. -/
def redistribute (peer : Peering) (s : Capacity) (c : ConnId) : Capacity :=
  match peer with
  | .serverSide => s.overspillWork c
  | .clientSide _ => s

/-- `process_inbound` on one packet: an exception from the handler ends the connection and redistributes its work. -/
def processInbound (peer : Peering) (s : Capacity) (c : ConnId) (packet : Packet) : Capacity :=
  match s.dispatch peer c packet with
  | .ok s' => s'
  | .error _ => s.redistribute peer c

/-! ## Resends -/

/-- What `handle_child_requests` does to the books on an `r` of child `k`: the crash is counted, and unless all work is done (the
child is killed then) every command of its queue is written again and counted. -/
def resendJobs (s : Capacity) (k : Nat) : Capacity :=
  match s.pool.children[k]? with
  | some child =>
    if s.inputComplete ∧ child.commands.elems = [] then { s with crashed := s.crashed + 1 }
    else { s with crashed := s.crashed + 1, resent := s.resent + child.commands.size }
  | none => s

end Capacity

/-! ## The coroutine inside `next_job` -/

/-- Where the one coroutine of the process that calls `next_job` stands: outside, waiting for the limiter to give it a token, or
holding a token and suspended in the write to the child it chose. -/
inductive NextJob where
  | idle
  | waiting (job : Line)
  | writing (job : Line) (task : Token) (child : Nat)

/-- The books of a process and its `next_job` coroutine. -/
structure Control where
  cap : Capacity
  call : NextJob

/-- What happens to the books, one stretch of code between two yields at a time. -/
inductive Event where
  /-- the coroutine calls `next_job(job)` -/
  | nextJob (job : Line)
  /-- the coroutine takes the front of the overspill and calls `next_job` on it -/
  | consume
  /-- the limiter hands out a token and `next_job` goes on until it returns or is suspended in the write -/
  | token
  /-- the write to the child is complete and `next_job` returns -/
  | written
  /-- `handle_stdout` of child `k` reads the line `ret` -/
  | stdout (k : Nat) (ret : Line)
  /-- `handle_child_requests` of child `k` acts on an `r` -/
  | resend (k : Nat)
  /-- a packet of connection `c` is dispatched to its handler; where the handler throws, the state is that of the throw -/
  | packet (c : ConnId) (packet : Packet)
  /-- `overspill_work` is called for connection `c` -/
  | overspillWork (c : ConnId)
  /-- the last `shared_ptr` to connection `c` is gone -/
  | expire (c : ConnId)
  /-- `input_complete` is set -/
  | inputComplete
  /-- the clock goes on -/
  | tick (d : Nat)

namespace Control

/-- `next_job` from the moment it has its token: first the connections, then the children. -/
def placeJob (s : Capacity) (job : Line) (task : Token) : Option Control :=
  match s.spare with
  | some (c, remote) => some { cap := s.giveRemote c remote job task, call := .idle }
  | none =>
    match s.nextChild with
    | some k => some { cap := { s with childIndex := k }, call := .writing job task k }
    | none => none

/-- One event. -/
def step (peer : Peering) (s : Control) : Event → Option Control
  | .nextJob job =>
    match s.call with
    | .idle => some { s with call := .waiting job }
    | _ => none
  | .consume =>
    match s.call, s.cap.overspill with
    | .idle, job :: rest => some { cap := { s.cap with overspill := rest }, call := .waiting job }
    | _, _ => none
  | .token =>
    match s.call, s.cap.limiter.nextJob with
    | .waiting job, some (task, limiter) => placeJob (s.cap.accept limiter) job task
    | _, _ => none
  | .written =>
    match s.call with
    | .writing job task k => some { cap := s.cap.pushCommand k job task, call := .idle }
    | _ => none
  | .stdout k ret => some { s with cap := s.cap.handleStdout peer k ret }
  | .resend k => some { s with cap := s.cap.resendJobs k }
  | .packet c packet =>
    match s.cap.dispatch peer c packet with
    | .ok cap => some { s with cap := cap }
    | .error _ => some s
  | .overspillWork c => some { s with cap := s.cap.overspillWork c }
  | .expire c => some { s with cap := { s.cap with expired := c :: s.cap.expired } }
  | .inputComplete => some { s with cap := { s.cap with inputComplete := true } }
  | .tick d => some { s with cap := { s.cap with now := s.cap.now + d } }

end Control

end FostWright
