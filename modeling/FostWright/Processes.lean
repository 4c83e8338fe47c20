import FostWright.Pipe

/-!
# The processes of a pool and their descriptors

The manager makes four pipes for each child and forks: the new process has all the descriptors that the manager has at that moment. It
copies the child ends of its pipes to its standard descriptors, closes the pipes of all children and executes the supervisor, which has
the descriptors that are left. Supervisors fork workers, and all of them do with their descriptors what they like. At the end
`capacity::close` closes the stdin of one child after the other and waits for its supervisor.
-/

namespace FostWright

open Lib

/-! ## The pipes of a child -/

/-- The pipe objects of child `i` in the order of their declaration: `stdin`, `stdout`, `stderr` and `resend`. The constructor of
`child_pool` makes those of one child after the other, so that these are the numbers of their pipes too. -/
def stdinOf (i : Nat) : Nat := 4 * i

def stdoutOf (i : Nat) : Nat := 4 * i + 1

def stderrOf (i : Nat) : Nat := 4 * i + 2

def resendOf (i : Nat) : Nat := 4 * i + 3

/-- `stdin` is a `pipe_in`, the others are `pipe_out`s. -/
def directionOf (o : Nat) : Direction := if o % 4 = 0 then .pipeIn else .pipeOut

namespace Pipes

/-- What `child` returns. -/
def childFd (s : Pipes) (o : Nat) : Fd := ((s.objects o).map Pipe.childFd).getD 0

/-- `dup2`. -/
def dup2 (s : Pipes) (src dst : Fd) : Pipes :=
  match s.table src with
  | none => s
  | some e => { s with table := Function.update s.table dst (some ⟨e.refers, none⟩) }

/-- `childproc::close`. -/
def closeChild (s : Pipes) (i : Nat) : Pipes :=
  (((s.close (stdinOf i)).close (stdoutOf i)).close (stderrOf i)).close (resendOf i)

/-- The tidying before `execvp`, over the children that are there. -/
def tidy (s : Pipes) (children : Nat) : Pipes := (List.range children).foldl closeChild s

/-- What the process forked for child `i` does before `execvp`. -/
def prepare (s : Pipes) (i : Nat) : Pipes :=
  (((s.dup2 (s.childFd (stdinOf i)) 0).dup2 (s.childFd (stdoutOf i)) 1).dup2 (s.childFd (stderrOf i)) 2).tidy (i + 1)

end Pipes

/-! ## The processes -/

/-- A process other than the manager, which descends from the fork for child `child`. -/
inductive Forked where
  /-- it has a copy of what the manager had, and has not executed the supervisor -/
  | starting (child : Nat) (pipes : Pipes)
  /-- a supervisor or a worker; `keeps` until it, or one it descends from, touches descriptor 0 -/
  | running (child : Nat) (table : Fd → Option Referent) (keeps : Bool)
  | ended (child : Nat)

/-- What a descriptor of the process refers to. -/
def Forked.table : Forked → Fd → Option Referent
  | .starting _ pipes => fun fd => (pipes.table fd).map Entry.refers
  | .running _ table _ => table
  | .ended _ => fun _ => none

/-- `execvp` has succeeded in the process. -/
def Forked.Launched : Forked → Prop
  | .starting _ _ => False
  | _ => True

instance : DecidablePred Forked.Launched
  | .starting _ _ => inferInstanceAs (Decidable False)
  | .running _ _ _ => inferInstanceAs (Decidable True)
  | .ended _ => inferInstanceAs (Decidable True)

/-- The manager and the processes that descend from it. The constructor of `child_pool` has come to child `child`, of which it has done
`stage` parts; `pids` are the supervisors, by their place in `forked`. `capacity::close` has closed the stdin of the first `closed`
children, and waits for the supervisor of the last of them while `waiting`. -/
structure Processes where
  manager : Pipes
  child : Nat
  stage : Nat
  forked : List Forked
  pids : List Nat
  closed : Nat
  waiting : Bool

namespace Processes

/-- What happens in the processes. -/
inductive Action where
  /-- the constructor of the next pipe of a child -/
  | pipe (readFd writeFd : Fd)
  /-- `backchannel_fd`: a copy of the child end of `resend` -/
  | backchannel (fd : Fd)
  /-- `fork_exec` in the manager -/
  | fork
  /-- the rest of `fork_exec` in a forked process, which touches no other process -/
  | launch (k : Nat)
  /-- after the constructor, `parent` of any pipe -/
  | parent (o : Nat) (fd : Fd)
  /-- after the constructor, other code of the manager opens a descriptor -/
  | opened (fd : Fd)
  /-- the same for closing one, other than the standard descriptors -/
  | closed (fd : Fd)
  /-- `capacity::close` closes the stdin of the next child -/
  | close
  /-- its `waitpid` returns -/
  | waited
  /-- a supervisor or worker opens a descriptor -/
  | opens (k : Nat) (fd : Fd)
  /-- it closes one -/
  | closes (k : Nat) (fd : Fd)
  /-- it copies one -/
  | copies (k : Nat) (src dst : Fd)
  /-- it forks -/
  | forks (k : Nat)
  /-- it ends -/
  | ends (k : Nat)

/-- A step of the manager's own descriptors. -/
def manage (s : Processes) (a : Pipes.Action) : Option Processes := (s.manager.step a).map (fun m => { s with manager := m })

/-- A running process changes descriptor `fd`. -/
def change (s : Processes) (k : Nat) (fd : Fd) (refers : (Fd → Option Referent) → Option Referent) : Option Processes :=
  match s.forked[k]? with
  | some (.running child table keeps) =>
    some { s with
      forked := s.forked.set k (.running child (Function.update table fd (refers table)) (keeps && decide (fd ≠ 0))) }
  | _ => none

/-- One action, for a pool of `number` children. -/
def step (number : Nat) (s : Processes) : Action → Option Processes
  | .pipe readFd writeFd =>
    if s.child < number ∧ s.stage < 4 then
      (s.manage (.construct (directionOf s.stage) readFd writeFd)).map (fun t => { t with stage := s.stage + 1 })
    else none
  | .backchannel fd =>
    if s.stage = 4 ∧ s.manager.table fd = none then
      (s.manage (.copied (s.manager.childFd (resendOf s.child)) fd)).map (fun t => { t with stage := 5 })
    else none
  | .fork =>
    if s.stage = 5 then
      some { s with
        child := s.child + 1
        stage := 0
        forked := s.forked ++ [.starting s.child s.manager]
        pids := s.pids ++ [s.forked.length] }
    else none
  | .launch k =>
    match s.forked[k]? with
    | some (.starting child pipes) =>
      some { s with
        forked := s.forked.set k (.running child (fun fd => ((pipes.prepare child).table fd).map Entry.refers) true) }
    | _ => none
  | .parent o fd => if s.child = number then s.manage (.parent o fd) else none
  | .opened fd => if s.child = number then s.manage (.opened fd) else none
  | .closed fd => if s.child = number ∧ 2 < fd then s.manage (.closed fd) else none
  | .close =>
    if s.child = number ∧ s.closed < number ∧ s.waiting = false then
      (s.manage (.close (stdinOf s.closed))).map (fun t => { t with closed := s.closed + 1, waiting := true })
    else none
  | .waited =>
    match (s.pids[s.closed - 1]?).bind (fun k => s.forked[k]?) with
    | some (.ended _) => if s.waiting then some { s with waiting := false } else none
    | _ => none
  | .opens k fd => s.change k fd (fun table => (table fd).or (some .other))
  | .closes k fd => s.change k fd (fun _ => none)
  | .copies k src dst => s.change k dst (fun table => table src)
  | .forks k =>
    match s.forked[k]? with
    | some (.running child table keeps) => some { s with forked := s.forked ++ [.running child table keeps] }
    | _ => none
  | .ends k =>
    match s.forked[k]? with
    | some (.running child _ _) => some { s with forked := s.forked.set k (.ended child) }
    | _ => none

/-- A manager at the start of the constructor. -/
def start (inherited : Fd → Bool) : Processes where
  manager := Pipes.start inherited
  child := 0
  stage := 0
  forked := []
  pids := []
  closed := 0
  waiting := false

def system (number : Nat) (inherited : Fd → Bool) : System Processes Action where
  init := start inherited
  step := step number

/-- The write end of the stdin pipe of child `i`. -/
def stdinWrite (i : Nat) : Referent := .pipe (stdinOf i) .write

/-- The read end of the stdin pipe of child `i`. -/
def stdinRead (i : Nat) : Referent := .pipe (stdinOf i) .read

/-- The constructor has returned in the manager, and `execvp` has succeeded in every process that it forked. -/
def Constructed (number : Nat) (s : Processes) : Prop := s.child = number ∧ ∀ p ∈ s.forked, p.Launched

instance (number : Nat) (s : Processes) : Decidable (s.Constructed number) := inferInstanceAs (Decidable (_ ∧ _))

/-- The manager has a descriptor for it. -/
def ManagerHas (s : Processes) (x : Referent) : Prop := ∃ fd, ∃ e ∈ s.manager.table fd, e.refers = x

/-- Another process has a descriptor for it. -/
def OtherHas (s : Processes) (x : Referent) : Prop := ∃ p ∈ s.forked, ∃ fd, p.table fd = some x

end Processes

end FostWright
