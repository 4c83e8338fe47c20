import FostWright.Lib.System
import Mathlib.Logic.Function.Basic

/-!
# Pipes and their descriptors

`wright::detail::pipe` over the descriptor table of a process. An object keeps the two descriptors that `::pipe` returned as raw
integers, with 0 for one that is closed, and makes a stream descriptor for its parent end when it is first asked for it, from a `dup`.
Other code of the process opens, copies and closes descriptors of its own meanwhile. Every descriptor that an object obtains has a
serial number, and carries the object that owns it.
-/

namespace FostWright

open Lib

abbrev Fd := Nat

/-- The ends of a pipe: `::pipe` stores the descriptor of the read end at index 0 and the one of the write end at index 1. -/
inductive End where
  | read
  | write
  deriving DecidableEq

/-- `pipe_in` and `pipe_out`, which are `pipe<1u, 0u>` and `pipe<0u, 1u>`. -/
inductive Direction where
  | pipeIn
  | pipeOut
  deriving DecidableEq

/-- The end at index `PFD`. -/
def Direction.pfd : Direction → End
  | pipeIn => .write
  | pipeOut => .read

/-- The end at index `CFD`. -/
def Direction.cfd : Direction → End
  | pipeIn => .read
  | pipeOut => .write

/-- What a descriptor refers to: an end of the pipe that the given call of `::pipe` made, or anything else. -/
inductive Referent where
  | pipe (id : Nat) (e : End)
  | other
  deriving DecidableEq

/-- What an object has a descriptor for: `parent_fd`, the stream descriptor in `parent_sd`, or `child_fd`. -/
inductive Role where
  | parent
  | stream
  | child
  deriving DecidableEq

/-- The end that a descriptor of this role is for. -/
def Direction.endOf (d : Direction) : Role → End
  | .parent => d.pfd
  | .stream => d.pfd
  | .child => d.cfd

/-- That a pipe object obtained a descriptor: the serial number, the object that owns it now and what for. -/
structure Hold where
  serial : Nat
  owner : Nat
  role : Role
  deriving DecidableEq

/-- An open descriptor. It has no `hold` when it does not come from a pipe object. -/
structure Entry where
  refers : Referent
  hold : Option Hold
  deriving DecidableEq

/-- `wright::detail::pipe`. `parentSd` is `none` before the stream descriptor is made, and `some none` when that is closed. `own` is
the call of `::pipe` that made the object's pipe; an object that was moved from has no pipe any more. -/
structure Pipe where
  direction : Direction
  parentFd : Fd
  parentSd : Option (Option Fd)
  childFd : Fd
  own : Option Nat
  deriving DecidableEq

/-- `detail::close` does nothing to descriptor 0. -/
def nonzero (fd : Fd) : Option Fd := if fd = 0 then none else some fd

/-- The descriptor that `close` closes in a role. -/
def Pipe.field (p : Pipe) : Role → Option Fd
  | .parent => nonzero p.parentFd
  | .stream => p.parentSd.join
  | .child => nonzero p.childFd

/-- What is left in the object of a descriptor that was closed, or moved from it. -/
def Pipe.clear (p : Pipe) : Role → Pipe
  | .parent => { p with parentFd := 0 }
  | .stream => { p with parentSd := p.parentSd.map (fun _ => none) }
  | .child => { p with childFd := 0 }

/-- What is left of an object that was moved from. A stream descriptor that was moved from is closed. -/
def Pipe.moved (p : Pipe) : Pipe := { ((p.clear .parent).clear .stream).clear .child with own := none }

/-- A call of `::close` in a pipe object: what the descriptor was. -/
structure Closing where
  object : Nat
  entry : Option Entry
  deriving DecidableEq

/-- A return from `parent`: the parent end of the object's own pipe, and what the stream descriptor refers to unless it is closed. -/
structure Return where
  own : Option Referent
  refers : Option Referent
  deriving DecidableEq

/-- The descriptor table of a process and its pipe objects, of which `created` have been created, `pipes` of them by a call of
`::pipe`. `issued` is the next serial number, and the last two are the calls and returns so far. -/
structure Pipes where
  table : Fd → Option Entry
  objects : Nat → Option Pipe
  created : Nat
  pipes : Nat
  issued : Nat
  closings : List Closing
  returns : List Return

namespace Pipes

/-- What a process does with pipe objects, and with other descriptors. -/
inductive Action where
  /-- the constructor; `::pipe` returns these descriptors for the two ends -/
  | construct (d : Direction) (readFd writeFd : Fd)
  /-- the move constructor -/
  | move (o : Nat)
  | child (o : Nat)
  /-- `parent`; a `dup` returns `fd` when there is one -/
  | parent (o : Nat) (fd : Fd)
  | close (o : Nat)
  /-- the destructor -/
  | destroy (o : Nat)
  /-- other code opens a descriptor -/
  | opened (fd : Fd)
  /-- other code closes a descriptor of its own -/
  | closed (fd : Fd)
  /-- other code copies a descriptor, with `dup` or `dup2` -/
  | copied (src dst : Fd)

/-- A pipe object obtains a descriptor. -/
def obtain (s : Pipes) (fd : Fd) (refers : Referent) (o : Nat) (role : Role) : Pipes :=
  { s with
    table := Function.update s.table fd (some { refers := refers, hold := some { serial := s.issued, owner := o, role := role } })
    issued := s.issued + 1 }

/-- The object is what it is given to be. -/
def put (s : Pipes) (o : Nat) (p : Option Pipe) : Pipes := { s with objects := Function.update s.objects o p }

/-- The constructor: `pipe_fds` takes the descriptors at the indexes of the two ends. -/
def construct (s : Pipes) (d : Direction) (fds : End → Fd) : Pipes :=
  let p : Pipe :=
    { direction := d, parentFd := fds d.pfd, parentSd := none, childFd := fds d.cfd, own := some s.pipes }
  let t := (s.obtain p.parentFd (.pipe s.pipes d.pfd) s.created .parent).obtain p.childFd (.pipe s.pipes d.cfd) s.created .child
  { t.put s.created (some p) with created := s.created + 1, pipes := s.pipes + 1 }

/-- The move constructor: the new object takes over what the other has. -/
def move (s : Pipes) (o : Nat) (p : Pipe) : Pipes :=
  let rename (h : Hold) : Hold := if h.owner = o then { h with owner := s.created } else h
  { (s.put o (some p.moved)).put s.created (some p) with
    table := fun fd => (s.table fd).map (fun e => { e with hold := e.hold.map rename })
    created := s.created + 1 }

/-- `::close`, called by an object. -/
def sysClose (s : Pipes) (o : Nat) (fd : Fd) : Pipes :=
  { s with
    table := Function.update s.table fd none
    closings := s.closings ++ [{ object := o, entry := s.table fd }] }

/-- An object closes what it has in a role. -/
def closeRole (s : Pipes) (o : Nat) (role : Role) : Pipes :=
  match s.objects o with
  | none => s
  | some p =>
    match p.field role with
    | none => s.put o (some (p.clear role))
    | some fd => (s.sysClose o fd).put o (some (p.clear role))

/-- `close`. -/
def close (s : Pipes) (o : Nat) : Pipes := ((s.closeRole o .parent).closeRole o .stream).closeRole o .child

/-- `parent` returns the stream descriptor of an object. -/
def returned (s : Pipes) (p : Pipe) : Pipes :=
  { s with
    returns := s.returns ++
      [{ own := p.own.map (fun id => .pipe id p.direction.pfd)
         refers := (p.field .stream).bind (fun fd => (s.table fd).map Entry.refers) }] }

/-- `parent` makes the stream descriptor, from a copy of the descriptor that `e` is the entry of. -/
def dup (s : Pipes) (o : Nat) (p : Pipe) (e : Entry) (fd : Fd) : Pipes :=
  (s.obtain fd e.refers o .stream).put o (some { p with parentSd := some (some fd) })

/-- The two descriptors of `::pipe`. -/
def ends (readFd writeFd : Fd) : End → Fd
  | .read => readFd
  | .write => writeFd

/-- No pipe object obtained the descriptor. -/
def Unheld (s : Pipes) (fd : Fd) : Prop := ∀ e ∈ s.table fd, e.hold = none

instance (s : Pipes) (fd : Fd) : Decidable (s.Unheld fd) := inferInstanceAs (Decidable (∀ e ∈ s.table fd, _))

/-- One action. -/
def step (s : Pipes) : Action → Option Pipes
  | .construct d readFd writeFd =>
    if s.table readFd = none ∧ s.table writeFd = none ∧ readFd ≠ writeFd then some (s.construct d (ends readFd writeFd)) else none
  | .move o => (s.objects o).map (s.move o)
  | .child o => (s.objects o).map (fun _ => s)
  | .parent o fd =>
    match s.objects o with
    | none => none
    | some p =>
      match p.parentSd with
      | some _ => some (s.returned p)
      | none =>
        match s.table p.parentFd with
        -- `dup` fails and `parent` throws
        | none => some s
        | some e =>
          if s.table fd = none then some ((s.dup o p e fd).returned { p with parentSd := some (some fd) }) else none
  | .close o => (s.objects o).map (fun _ => s.close o)
  | .destroy o => (s.objects o).map (fun _ => (s.close o).put o none)
  | .opened fd => if s.table fd = none then some { s with table := Function.update s.table fd (some ⟨.other, none⟩) } else none
  | .closed fd => if s.Unheld fd then some { s with table := Function.update s.table fd none } else none
  | .copied src dst =>
    match s.table src with
    | none => none
    | some e => if s.Unheld dst then some { s with table := Function.update s.table dst (some ⟨e.refers, none⟩) } else none

/-- What each action needs and leads to, one case for each branch of `step`. -/
inductive Steps (s : Pipes) : Action → Pipes → Prop where
  | construct {d : Direction} {readFd writeFd : Fd} (freeRead : s.table readFd = none) (freeWrite : s.table writeFd = none)
      (ne : readFd ≠ writeFd) : Steps s (.construct d readFd writeFd) (s.construct d (ends readFd writeFd))
  | move {o : Nat} {p : Pipe} (found : s.objects o = some p) : Steps s (.move o) (s.move o p)
  | child {o : Nat} : Steps s (.child o) s
  | returned {o : Nat} {fd : Fd} {p : Pipe} (found : s.objects o = some p) : Steps s (.parent o fd) (s.returned p)
  | throws {o : Nat} {fd : Fd} : Steps s (.parent o fd) s
  | dup {o : Nat} {fd : Fd} {p : Pipe} {e : Entry} (found : s.objects o = some p) (first : p.parentSd = none)
      (entry : s.table p.parentFd = some e) (free : s.table fd = none) :
      Steps s (.parent o fd) ((s.dup o p e fd).returned { p with parentSd := some (some fd) })
  | close {o : Nat} : Steps s (.close o) (s.close o)
  | destroy {o : Nat} : Steps s (.destroy o) ((s.close o).put o none)
  | opened {fd : Fd} (free : s.table fd = none) :
      Steps s (.opened fd) { s with table := Function.update s.table fd (some ⟨.other, none⟩) }
  | closed {fd : Fd} (unheld : s.Unheld fd) : Steps s (.closed fd) { s with table := Function.update s.table fd none }
  | copied {src dst : Fd} {e : Entry} (entry : s.table src = some e) (unheld : s.Unheld dst) :
      Steps s (.copied src dst) { s with table := Function.update s.table dst (some ⟨e.refers, none⟩) }

/-- A step is one of the cases. -/
theorem steps_of_step {s s' : Pipes} {a : Action} (h : s.step a = some s') : s.Steps a s' := by
  cases a with
  | construct d readFd writeFd =>
    obtain ⟨⟨hread, hwrite, hne⟩, rfl⟩ := (Option.ite_none_right_eq_some.mp h).imp_right Option.some.inj
    exact .construct hread hwrite hne
  | move o =>
    obtain ⟨p, hp, rfl⟩ := Option.map_eq_some_iff.mp h
    exact .move hp
  | child o =>
    obtain ⟨p, -, rfl⟩ := Option.map_eq_some_iff.mp h
    exact .child
  | parent o fd =>
    simp only [step] at h
    split at h
    · cases h
    · rename_i p hp
      split at h
      · cases h
        exact .returned hp
      · rename_i hsd
        split at h
        · cases h
          exact .throws
        · rename_i e he
          obtain ⟨hfree, rfl⟩ := (Option.ite_none_right_eq_some.mp h).imp_right Option.some.inj
          exact .dup hp hsd he hfree
  | close o =>
    obtain ⟨p, -, rfl⟩ := Option.map_eq_some_iff.mp h
    exact .close
  | destroy o =>
    obtain ⟨p, -, rfl⟩ := Option.map_eq_some_iff.mp h
    exact .destroy
  | opened fd =>
    obtain ⟨hfree, rfl⟩ := (Option.ite_none_right_eq_some.mp h).imp_right Option.some.inj
    exact .opened hfree
  | closed fd =>
    obtain ⟨hunheld, rfl⟩ := (Option.ite_none_right_eq_some.mp h).imp_right Option.some.inj
    exact .closed hunheld
  | copied src dst =>
    simp only [step] at h
    split at h
    · cases h
    · rename_i e he
      obtain ⟨hunheld, rfl⟩ := (Option.ite_none_right_eq_some.mp h).imp_right Option.some.inj
      exact .copied he hunheld

/-- The descriptors of a process at the start: those in `inherited` are open, and there is no pipe object. -/
def start (inherited : Fd → Bool) : Pipes where
  table := fun fd => if inherited fd then some ⟨.other, none⟩ else none
  objects := fun _ => none
  created := 0
  pipes := 0
  issued := 0
  closings := []
  returns := []

def system (inherited : Fd → Bool) : System Pipes Action where
  init := start inherited
  step := step

/-- The serial numbers of the descriptors that pipe objects have closed. -/
def released (s : Pipes) : List Nat := s.closings.filterMap (fun c => (c.entry.bind Entry.hold).map Hold.serial)

/-- Pipe objects own their descriptors: what an object closes is a descriptor that it owns; no descriptor is closed twice, and
every one that was obtained is closed once when there is no object any more; and `parent` returns a descriptor for the parent end of
the object's own pipe. -/
structure OwnDescriptors (s : Pipes) : Prop where
  closes : ∀ c ∈ s.closings, ∃ e ∈ c.entry, ∃ h ∈ e.hold, h.owner = c.object
  once : s.released.Nodup
  all : (∀ o, s.objects o = none) → ∀ serial < s.issued, s.released.count serial = 1
  parents : ∀ r ∈ s.returns, ∀ x ∈ r.refers, r.own = some x

/-- What the ownership depends on: `::pipe` does not return 0, and `parent` is not called on an object whose `parent_fd` is 0 and that
has no stream descriptor, while there is a descriptor 0 that is not for the parent end of its pipe. -/
def Proper (s : Pipes) : Action → Prop
  | .construct _ readFd writeFd => readFd ≠ 0 ∧ writeFd ≠ 0
  | .parent o _ => ∀ p ∈ s.objects o, p.parentSd = none → p.parentFd = 0 →
    ∀ e ∈ s.table 0, p.own.map (fun id => Referent.pipe id p.direction.pfd) = some e.refers
  | _ => True

instance (s : Pipes) (a : Action) : Decidable (s.Proper a) := by
  cases a with
  | construct d readFd writeFd => exact inferInstanceAs (Decidable (_ ∧ _))
  | parent o fd => exact inferInstanceAs (Decidable (∀ p ∈ s.objects o, _))
  | _ => exact isTrue trivial

end Pipes

end FostWright
