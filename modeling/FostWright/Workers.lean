import FostWright.Progress
import FostWright.Resending
import Mathlib.Algebra.BigOperators.Group.Finset.Basic
import Mathlib.Data.Fintype.Basic

/-!
# Workers that crash, under any books

The children of some processes with their pipes and their workers, each a `Resending` whose queue and whose open write are in the books of its
process. What the processes are is left open: an `Owner` is a system that has the books of the children, and whose actions at a child are
those of `next_job` and `handle_stdout`. The manager is one, and the manager with its clients is another.
-/

namespace FostWright

open Lib

/-- What the books of a process have of a child: its queue, `input_complete`, the job that `next_job` is writing to it, and the clock. -/
structure Slot where
  child : Childproc
  inputComplete : Bool
  writing : Option (Line × Token)
  now : Nat

/-- The job that `next_job` is writing to child `k`. -/
def NextJob.writingTo (k : Nat) : NextJob → Option (Line × Token)
  | .writing job task j => if j = k then some (job, task) else none
  | _ => none

/-- Child `k` in the books. -/
def Control.slot (s : Control) (k : Nat) : Slot where
  child := (s.cap.pool.children[k]?).getD { commands := CircularBuffer.empty }
  inputComplete := s.cap.inputComplete
  writing := s.call.writingTo k
  now := s.cap.now

/-- The events that belong to the children: the end of a write, a line of their output and a request. -/
def Event.ofChildren : Event → Bool
  | .written => true
  | .stdout _ _ => true
  | .resend _ => true
  | _ => false

/-- The actions of the manager that belong to the children. -/
def ExecHelper.Action.ofChildren : ExecHelper.Action → Bool
  | .internal e => e.ofChildren
  | _ => false

/-- No line of stdin is empty or has a newline or a NUL, and no job of an `execute` packet. -/
def ExecHelper.AnswerableJobs (_ : ExecHelper) : ExecHelper.Action → Prop
  | .inbound _ packet => ∀ job ∈ packet.jobs, Answerable job
  | .line l => Answerable l
  | _ => True

instance (s : ExecHelper) : ∀ a, Decidable (s.AnswerableJobs a)
  | .inbound _ packet => inferInstanceAs (Decidable (∀ job ∈ packet.jobs, Answerable job))
  | .line l => inferInstanceAs (Decidable (Answerable l))
  | .consume | .drained | .eof | .allDone | .closed _ | .expire _ | .internal _ => inferInstanceAs (Decidable True)

/-- The children of a process with `n` children. -/
def Control.slots (n : Nat) (s : Control) : Fin n → Slot := fun k => s.slot k

namespace Slot

variable {ι : Type} [DecidableEq ι]

/-- A child that nothing has happened to. -/
def init : Slot where
  child := { commands := CircularBuffer.empty }
  inputComplete := false
  writing := none
  now := 0

/-- `next_job` goes on after its write and pushes the job. -/
def push (s : Slot) (text : Line) (task : Token) : Slot :=
  { s with child := { commands := s.child.commands.pushBack { command := text, limiter := task, time := s.now } }, writing := none }

/-- What is done without the children leaves their queues as they are: it may set `input_complete`, or begin to write a job to a child. -/
inductive Leaves (f g : ι → Slot) : Prop where
  | quiet (child : ∀ i, (g i).child = (f i).child) (writing : ∀ i, (g i).writing = (f i).writing)
      (flag : ∀ i, (g i).inputComplete = (f i).inputComplete ∨ (g i).inputComplete = true) : Leaves f g
  | begins {i : ι} {text : Line} {task : Token} (answerable : Answerable text) (free : (f i).writing = none)
      (room : (f i).child.commands.full = false) (after : g = Function.update f i { f i with writing := some (text, task) }) : Leaves f g

/-- The children of several processes. -/
def all {P : Type} {κ : P → Type} (f : (p : P) → κ p → Slot) : (Σ p, κ p) → Slot := fun i => f i.1 i.2

end Slot

/-- A system that has the books of the children `ι`. `push` and `stdout` are its actions at a child, and it does nothing else to them but begin
to write jobs that can be answered. -/
structure Owner (σ α ι : Type) [DecidableEq ι] where
  system : System σ α
  ok : σ → α → Prop
  slot : σ → ι → Slot
  ofChildren : α → Bool
  push : ι → α
  stdout : ι → Line → α
  init : ∀ i, slot system.init i = Slot.init
  leaves : ∀ {s t a}, system.Reach ok s → ok s a → ofChildren a = false → system.step s a = some t → Slot.Leaves (slot s) (slot t)
  pushed : ∀ {s i text task}, system.Reach ok s → (slot s i).writing = some (text, task) →
    ok s (push i) ∧ ∃ t, system.step s (push i) = some t ∧ slot t = Function.update (slot s) i ((slot s i).push text task)
  matched : ∀ {s i ret job child}, system.Reach ok s → (slot s i).child.handleStdout (slot s i).now ret = some (job, child) →
    ok s (stdout i ret) ∧ ∃ t, system.step s (stdout i ret) = some t ∧ slot t = Function.update (slot s) i { slot s i with child := child }
  ignored : ∀ {s i ret}, system.Reach ok s → (slot s i).child.handleStdout (slot s i).now ret = none →
    system.step s (stdout i ret) = some s

/-- What belongs to a child outside the books: the other fields of `Resending`. -/
structure Wires where
  loop : Option Nat
  ready : List Writer
  stdin : List Line
  behind : List Line
  worker : List Line
  stdout : List Line
  requests : Nat
  crashed : Nat
  resent : Nat
  dispatched : List Line
  done : List Line

/-- The pipes of a child. -/
def Resending.wires (s : Resending) : Wires where
  loop := s.loop
  ready := s.ready
  stdin := s.stdin
  behind := s.behind
  worker := s.worker
  stdout := s.stdout
  requests := s.requests
  crashed := s.crashed
  resent := s.resent
  dispatched := s.dispatched
  done := s.done

/-- A write to the child begins. -/
def Wires.begin (w : Wires) (job : Line) : Wires :=
  { w with ready := w.ready ++ [.nextJob], dispatched := w.dispatched ++ [job] }

/-- The owner of the children, and what belongs to each. -/
structure Workers (σ ι : Type) where
  owner : σ
  wires : ι → Wires

namespace Workers

variable {σ α ι : Type} [DecidableEq ι]

/-- What happens. -/
inductive Action (α ι : Type) where
  /-- what the owner does without the children -/
  | owner (a : α)
  /-- what happens at a child -/
  | child (i : ι) (a : Resending.Action)

/-- A child, with what the books have of it. -/
def child (O : Owner σ α ι) (s : Workers σ ι) (i : ι) : Resending where
  child := (O.slot s.owner i).child
  inputComplete := (O.slot s.owner i).inputComplete
  writing := (O.slot s.owner i).writing
  loop := (s.wires i).loop
  ready := (s.wires i).ready
  stdin := (s.wires i).stdin
  behind := (s.wires i).behind
  worker := (s.wires i).worker
  stdout := (s.wires i).stdout
  requests := (s.wires i).requests
  crashed := (s.wires i).crashed
  resent := (s.wires i).resent
  dispatched := (s.wires i).dispatched
  done := (s.wires i).done

/-- The owner has gone on: where it has begun to write a job to a child, the line is in the pipe. -/
def withOwner (O : Owner σ α ι) (s : Workers σ ι) (owner : σ) : Workers σ ι where
  owner := owner
  wires := fun i =>
    match (O.slot s.owner i).writing, (O.slot owner i).writing with
    | none, some (job, _) => (s.wires i).begin job
    | _, _ => s.wires i

/-- What an action of a child does to the books. -/
def effect (O : Owner σ α ι) (s : Workers σ ι) (i : ι) : Resending.Action → Option σ
  | .push _ => O.system.step s.owner (O.push i)
  | .handleStdout _ =>
    match (s.wires i).stdout with
    | ret :: _ => O.system.step s.owner (O.stdout i (readLine ret))
    | [] => none
  | _ => some s.owner

/-- One action. -/
def step (O : Owner σ α ι) (s : Workers σ ι) : Action α ι → Option (Workers σ ι)
  | .owner a => if O.ofChildren a then none else (O.system.step s.owner a).map (s.withOwner O)
  | .child i a =>
    if a.isAt (O.slot s.owner i).now then
      ((s.child O i).step a).bind (fun t =>
        (s.effect O i a).map (fun owner => { owner := owner, wires := Function.update s.wires i t.wires }))
    else none

/-- The owner and its children from their start. -/
def system (O : Owner σ α ι) : System (Workers σ ι) (Action α ι) where
  init := { owner := O.system.init, wires := fun _ => Resending.init.wires }
  step := step O

/-- What each action needs and leads to. -/
inductive Steps (O : Owner σ α ι) (s : Workers σ ι) : Action α ι → Workers σ ι → Prop where
  | owner {a : α} {owner : σ} (own : O.ofChildren a = false) (stepped : O.system.step s.owner a = some owner) :
      Steps O s (.owner a) (s.withOwner O owner)
  | child {i : ι} {a : Resending.Action} {t : Resending} {owner : σ} (now : a.isAt (O.slot s.owner i).now = true)
      (stepped : (s.child O i).step a = some t) (effect : s.effect O i a = some owner) :
      Steps O s (.child i a) { owner := owner, wires := Function.update s.wires i t.wires }

/-- A step is one of the cases. -/
theorem steps_of_step {O : Owner σ α ι} {s s' : Workers σ ι} {a : Action α ι} (h : s.step O a = some s') : s.Steps O a s' := by
  cases a with
  | owner a =>
    obtain ⟨hown, h⟩ := Option.ite_none_left_eq_some.mp h
    obtain ⟨owner, hs, rfl⟩ := Option.map_eq_some_iff.mp h
    exact .owner (Bool.eq_false_iff.mpr hown) hs
  | child i a =>
    obtain ⟨hnow, h⟩ := Option.ite_none_right_eq_some.mp h
    obtain ⟨t, ht, h⟩ := Option.bind_eq_some_iff.mp h
    obtain ⟨owner, he, rfl⟩ := Option.map_eq_some_iff.mp h
    exact .child hnow ht he

/-- What the owner asks of its actions, and a command that is being written again is not popped meanwhile. -/
def Careful (O : Owner σ α ι) (s : Workers σ ι) : Action α ι → Prop
  | .owner a => O.ok s.owner a
  | .child i a => (s.child O i).Careful a

instance (O : Owner σ α ι) [∀ s a, Decidable (O.ok s a)] (s : Workers σ ι) : ∀ a, Decidable (s.Careful O a)
  | .owner a => inferInstanceAs (Decidable (O.ok s.owner a))
  | .child i a => inferInstanceAs (Decidable ((s.child O i).Careful a))

/-! ## Progress -/

/-- What takes the jobs forward, at the owner or at a child: no worker crashes. -/
def Productive (O : Owner σ α ι) (productive : σ → α → Prop) (s : Workers σ ι) : Action α ι → Prop
  | .owner a => productive s.owner a
  | .child i a => (s.child O i).Productive a

/-- How many steps are left. What the owner does next may be to write a job to a child. -/
def remaining [Fintype ι] (O : Owner σ α ι) (measure : σ → Nat) (s : Workers σ ι) : Nat :=
  9 * measure s.owner + ∑ i, (s.child O i).remaining

end Workers

/-- An owner that comes to a goal if its children answer: its steps lower a measure, those at the children among them, and where nothing is
left to do, neither at the children nor without them, the goal is reached. -/
structure Owner.Advances {σ α ι : Type} [DecidableEq ι] (O : Owner σ α ι) (productive : σ → α → Prop) (I : σ → Prop)
    (measure : σ → Nat) (goal : σ → Prop) : Prop where
  lowers : O.system.Lowers productive I measure
  ok : ∀ {s a}, productive s a → O.ok s a
  push : ∀ s i, productive s (O.push i)
  stdout : ∀ {s i ret}, I s → ((O.slot s i).child.handleStdout (O.slot s i).now ret).isSome = true → productive s (O.stdout i ret)
  waits : ∀ {s}, I s → (∀ i, (O.slot s i).writing = none ∧ (O.slot s i).child.texts = []) →
    (∀ a, O.ofChildren a = false → productive s a → O.system.step s a = none) → goal s

end FostWright
