import FostWright.Defs

/-!
# The constructor of the child pool, as a tree of processes

`child_pool::child_pool` forks once for each child. A fork duplicates the rest of the program: the new process has the same loop before
it, from the same place on. What keeps it from running that loop is `execvp`, which replaces the program when it succeeds and returns
when it does not.
-/

namespace FostWright

/-- A process: the iterations of the constructor's loop in which it and its ancestors were forked. The manager is the root. -/
abbrev Proc := List Nat

def managerProc : Proc := []

/-- What `fork` and `execvp` do for a child: `fork` fails, or it makes a process in which `execvp` fails or succeeds. -/
inductive Launch where
  | forkFails
  | execFails
  | starts
  deriving DecidableEq

/-- What happens in the processes. -/
inductive Happening where
  | forked (parent child : Proc)
  | execFailed (p : Proc)
  | execed (p : Proc)
  /-- `fork_exec` throws in a process -/
  | threw (p : Proc)
  /-- the constructor returns in a process -/
  | returned (p : Proc)
  deriving DecidableEq

/-- `fork_exec` in the process `p`, with the process that it forks: `rest` is what a process does when `fork_exec` returns in it. -/
def forkExec (launch : Proc → Launch) (p child : Proc) (rest : Proc → List Happening) : List Happening :=
  match launch child with
  | .forkFails => [.threw p]
  | .execFails => .forked p child :: .execFailed child :: (rest child ++ rest p)
  | .starts => .forked p child :: .execed child :: rest p

/-- The loop of the constructor in the process `p`, from iteration `child` on with `remaining` iterations to go, and what follows. -/
def constructFrom (launch : Proc → Launch) (child : Nat) : Nat → Proc → List Happening
  | 0, p => [.returned p]
  | remaining + 1, p => forkExec launch p (p ++ [child]) (constructFrom launch (child + 1) remaining)

/-- `child_pool::child_pool` in the manager, with what goes on in all the processes that come of it. -/
def construct (launch : Proc → Launch) (number : Nat) : List Happening := constructFrom launch 0 number managerProc

/-- A fork, of any process. -/
def Happening.isFork : Happening → Bool
  | .forked _ _ => true
  | _ => false

/-- Exactly one process for each of the `number` children: as many forks, all of them in the manager, in which alone the constructor
returns; and a process whose `execvp` failed neither runs the loop nor what follows it. -/
structure OneEach (number : Nat) (hs : List Happening) : Prop where
  count : hs.countP Happening.isFork = number
  forks : ∀ {parent child : Proc}, .forked parent child ∈ hs → parent = managerProc
  returns : ∀ {p : Proc}, .returned p ∈ hs ↔ p = managerProc
  failed : ∀ {p : Proc}, .execFailed p ∈ hs → .returned p ∉ hs ∧ ∀ child : Proc, .forked p child ∉ hs

end FostWright
