import FostWright.Pipe

/-!
# What the descriptors of pipe objects are

Three invariants of the pipes of a process. `Held`: what is marked as held by an object in a role is the descriptor that its `close`
closes in that role. `Serials`: a descriptor that was obtained is open once, or was closed once. `Refers`: a descriptor refers to the
end of its object's own pipe that its role is for. The first two need that `::pipe` does not return 0, the third all of `Proper`.
-/

namespace FostWright

open Lib

/-! ## The fields of a pipe -/

theorem nonzero_eq_some_iff {fd x : Fd} : nonzero fd = some x ↔ fd ≠ 0 ∧ fd = x := by
  unfold nonzero
  by_cases h : fd = 0 <;> simp [h]

@[simp] theorem nonzero_zero : nonzero 0 = none := rfl

@[simp] theorem Pipe.field_clear (p : Pipe) (role role' : Role) :
    (p.clear role).field role' = if role' = role then none else p.field role' := by
  have hsd : (p.parentSd.map (fun _ => none)).join = (none : Option Fd) := by cases p.parentSd <;> rfl
  cases role <;> cases role' <;> simp [Pipe.clear, Pipe.field, hsd]

@[simp] theorem Pipe.own_clear (p : Pipe) (role : Role) : (p.clear role).own = p.own := by cases role <;> rfl

@[simp] theorem Pipe.direction_clear (p : Pipe) (role : Role) : (p.clear role).direction = p.direction := by cases role <;> rfl

/-- Nothing is left in an object that was moved from. -/
@[simp] theorem Pipe.field_moved (p : Pipe) (role : Role) : p.moved.field role = none := by
  have h : p.moved.field role = (((p.clear .parent).clear .stream).clear .child).field role := by cases role <;> rfl
  rw [h]
  cases role <;> simp

namespace Pipes

/-! ## Descriptors that are held -/

/-- The object holds the descriptor in the role. -/
def Holds (s : Pipes) (fd : Fd) (o : Nat) (role : Role) : Prop := ∃ e ∈ s.table fd, ∃ h ∈ e.hold, h.owner = o ∧ h.role = role

/-- The descriptor was obtained with the serial number. -/
def Serial (s : Pipes) (fd : Fd) (n : Nat) : Prop := ∃ e ∈ s.table fd, ∃ h ∈ e.hold, h.serial = n

/-- A descriptor is held by one object in one role. -/
theorem Holds.unique {s : Pipes} {fd : Fd} {o o' : Nat} {role role' : Role} (h : s.Holds fd o role) (h' : s.Holds fd o' role') :
    o = o' ∧ role = role' := by
  obtain ⟨e, he, k, hk, rfl, rfl⟩ := h
  obtain ⟨e', he', k', hk', rfl, rfl⟩ := h'
  obtain rfl := Option.mem_unique he he'
  obtain rfl := Option.mem_unique hk hk'
  exact ⟨rfl, rfl⟩

theorem Holds.table_ne_none {s : Pipes} {fd : Fd} {o : Nat} {role : Role} (h : s.Holds fd o role) : s.table fd ≠ none := by
  obtain ⟨e, he, -⟩ := h
  intro hnone
  rw [hnone] at he
  cases he

theorem unheld_of_none {s : Pipes} {fd : Fd} (h : s.table fd = none) : s.Unheld fd := by
  intro e he
  rw [h] at he
  cases he

/-! ## What the operations do to the table -/

theorem table_obtain (s : Pipes) (x : Fd) (refers : Referent) (o : Nat) (role : Role) (fd : Fd) :
    (s.obtain x refers o role).table fd =
      if fd = x then some { refers := refers, hold := some { serial := s.issued, owner := o, role := role } } else s.table fd := by
  simp [obtain, Function.update_apply]

theorem table_sysClose (s : Pipes) (o : Nat) (x fd : Fd) : (s.sysClose o x).table fd = if fd = x then none else s.table fd := by
  simp [sysClose, Function.update_apply]

@[simp] theorem table_put (s : Pipes) (o : Nat) (p : Option Pipe) : (s.put o p).table = s.table := rfl

theorem objects_put (s : Pipes) (o o' : Nat) (p : Option Pipe) : (s.put o p).objects o' = if o' = o then p else s.objects o' := by
  simp [put, Function.update_apply]

/-! ## What the operations do to the holds

Each is said of any property of a hold, and then of its owner and role, and of its serial number. -/

/-- There is a hold with the property on the descriptor. -/
def Marked (s : Pipes) (fd : Fd) (P : Hold → Prop) : Prop := ∃ e ∈ s.table fd, ∃ h ∈ e.hold, P h

/-- What is held depends on the table alone. -/
theorem marked_congr {s t : Pipes} {fd : Fd} (h : t.table fd = s.table fd) (P : Hold → Prop) : t.Marked fd P ↔ s.Marked fd P := by
  unfold Marked
  rw [h]

theorem holds_congr {s t : Pipes} {fd : Fd} (h : t.table fd = s.table fd) (o : Nat) (role : Role) :
    t.Holds fd o role ↔ s.Holds fd o role := marked_congr h _

theorem serial_congr {s t : Pipes} {fd : Fd} (h : t.table fd = s.table fd) (n : Nat) : t.Serial fd n ↔ s.Serial fd n :=
  marked_congr h _

/-- A descriptor that no object obtained is not held. -/
theorem not_marked_of_unheld {s : Pipes} {fd : Fd} (h : s.Unheld fd) (P : Hold → Prop) : ¬ s.Marked fd P := by
  rintro ⟨e, he, k, hk, -⟩
  rw [h e he] at hk
  cases hk

theorem not_holds_of_unheld {s : Pipes} {fd : Fd} (h : s.Unheld fd) (o : Nat) (role : Role) : ¬ s.Holds fd o role :=
  not_marked_of_unheld h _

theorem not_serial_of_unheld {s : Pipes} {fd : Fd} (h : s.Unheld fd) (n : Nat) : ¬ s.Serial fd n := not_marked_of_unheld h _

@[simp] theorem holds_put (s : Pipes) (o : Nat) (p : Option Pipe) (fd : Fd) (o' : Nat) (role : Role) :
    (s.put o p).Holds fd o' role ↔ s.Holds fd o' role := Iff.rfl

@[simp] theorem serial_put (s : Pipes) (o : Nat) (p : Option Pipe) (fd : Fd) (n : Nat) :
    (s.put o p).Serial fd n ↔ s.Serial fd n := Iff.rfl

theorem marked_obtain (s : Pipes) (x : Fd) (refers : Referent) (o : Nat) (role : Role) (fd : Fd) (P : Hold → Prop) :
    (s.obtain x refers o role).Marked fd P ↔
      if fd = x then P { serial := s.issued, owner := o, role := role } else s.Marked fd P := by
  unfold Marked
  rw [table_obtain]
  by_cases h : fd = x <;> simp [h]

theorem holds_obtain (s : Pipes) (x : Fd) (refers : Referent) (o : Nat) (role : Role) (fd : Fd) (o' : Nat) (role' : Role) :
    (s.obtain x refers o role).Holds fd o' role' ↔ if fd = x then o = o' ∧ role = role' else s.Holds fd o' role' :=
  marked_obtain s x refers o role fd _

theorem serial_obtain (s : Pipes) (x : Fd) (refers : Referent) (o : Nat) (role : Role) (fd : Fd) (n : Nat) :
    (s.obtain x refers o role).Serial fd n ↔ if fd = x then s.issued = n else s.Serial fd n :=
  marked_obtain s x refers o role fd _

theorem marked_sysClose (s : Pipes) (o : Nat) (x fd : Fd) (P : Hold → Prop) :
    (s.sysClose o x).Marked fd P ↔ fd ≠ x ∧ s.Marked fd P := by
  unfold Marked
  rw [table_sysClose]
  by_cases h : fd = x <;> simp [h]

theorem holds_sysClose (s : Pipes) (o : Nat) (x fd : Fd) (o' : Nat) (role' : Role) :
    (s.sysClose o x).Holds fd o' role' ↔ fd ≠ x ∧ s.Holds fd o' role' := marked_sysClose s o x fd _

theorem serial_sysClose (s : Pipes) (o : Nat) (x fd : Fd) (n : Nat) : (s.sysClose o x).Serial fd n ↔ fd ≠ x ∧ s.Serial fd n :=
  marked_sysClose s o x fd _

/-- Other code that changes a descriptor which is not held, to one that is not either, changes nothing for the objects. -/
theorem marked_update_unheld {s : Pipes} {x : Fd} (hx : s.Unheld x) {v : Option Entry} (hv : ∀ e ∈ v, e.hold = none) (fd : Fd)
    (P : Hold → Prop) : ({ s with table := Function.update s.table x v } : Pipes).Marked fd P ↔ s.Marked fd P := by
  by_cases h : fd = x
  · subst h
    have hold := not_marked_of_unheld hx P
    have hnew : ¬ ({ s with table := Function.update s.table fd v } : Pipes).Marked fd P :=
      not_marked_of_unheld (by simpa [Unheld] using hv) P
    exact iff_of_false hnew hold
  · exact marked_congr (Function.update_of_ne h _ _) P

theorem holds_update_unheld {s : Pipes} {x : Fd} (hx : s.Unheld x) {v : Option Entry} (hv : ∀ e ∈ v, e.hold = none) (fd : Fd) (o : Nat)
    (role : Role) : ({ s with table := Function.update s.table x v } : Pipes).Holds fd o role ↔ s.Holds fd o role :=
  marked_update_unheld hx hv fd _

theorem serial_update_unheld {s : Pipes} {x : Fd} (hx : s.Unheld x) {v : Option Entry} (hv : ∀ e ∈ v, e.hold = none) (fd : Fd)
    (n : Nat) :
    ({ s with table := Function.update s.table x v } : Pipes).Serial fd n ↔ s.Serial fd n := marked_update_unheld hx hv fd _

/-! ## The invariant of the descriptors that are held -/

/-- What is held is what `close` closes, and an object that is not there yet has nothing. -/
structure Held (s : Pipes) : Prop where
  holds : ∀ fd o role, s.Holds fd o role ↔ ∃ p ∈ s.objects o, p.field role = some fd
  fresh : ∀ o, s.created ≤ o → s.objects o = none

theorem held_start (inherited : Fd → Bool) : (start inherited).Held := by
  refine ⟨?_, fun _ _ => rfl⟩
  intro fd o role
  have hunheld : (start inherited).Unheld fd := by
    intro e he
    obtain ⟨-, heq⟩ := Option.ite_none_right_eq_some.mp he
    cases heq
    rfl
  exact iff_of_false (not_holds_of_unheld hunheld o role) (by rintro ⟨p, hp, -⟩; cases hp)

/-- An object that is not there yet holds nothing. -/
theorem Held.not_holds_fresh {s : Pipes} (h : s.Held) {o : Nat} (ho : s.created ≤ o) (fd : Fd) (role : Role) :
    ¬ s.Holds fd o role := by
  rw [h.holds, h.fresh o ho]
  rintro ⟨p, hp, -⟩
  cases hp

/-- The invariant depends on what is held and on the objects. -/
theorem Held.congr {s t : Pipes} (h : s.Held) (hholds : ∀ fd o role, t.Holds fd o role ↔ s.Holds fd o role)
    (hobjects : t.objects = s.objects) (hcreated : t.created = s.created) : t.Held := by
  refine ⟨?_, ?_⟩
  · intro fd o role
    rw [hholds, hobjects]
    exact h.holds fd o role
  · intro o ho
    rw [hobjects]
    exact h.fresh o (by omega)

/-- An object that exists is one of those created. -/
theorem Held.lt_created {s : Pipes} (h : s.Held) {o : Nat} {p : Pipe} (hp : s.objects o = some p) : o < s.created := by
  by_contra hge
  rw [h.fresh o (by omega)] at hp
  cases hp

theorem Held.construct {s : Pipes} (h : s.Held) (d : Direction) {fds : End → Fd} (hfree : ∀ e, s.table (fds e) = none)
    (hzero : ∀ e, fds e ≠ 0) (hne : fds d.cfd ≠ fds d.pfd) : (s.construct d fds).Held := by
  refine ⟨?_, ?_⟩
  · intro fd o role
    have hfresh := h.not_holds_fresh (Nat.le_refl s.created) fd role
    have hholds : (s.construct d fds).Holds fd o role ↔
        if fd = fds d.cfd then s.created = o ∧ Role.child = role
        else if fd = fds d.pfd then s.created = o ∧ Role.parent = role else s.Holds fd o role := by
      rw [← holds_obtain, ← holds_obtain]
      exact holds_congr rfl o role
    have hobjects : (s.construct d fds).objects o =
        if o = s.created then some { direction := d, parentFd := fds d.pfd, parentSd := none, childFd := fds d.cfd, own := some s.pipes }
        else s.objects o := Function.update_apply _ _ _ _
    rw [hholds, hobjects]
    by_cases ho : o = s.created
    · subst ho
      have hz := hzero d.pfd
      have hz' := hzero d.cfd
      cases role <;> simp [Pipe.field, nonzero_eq_some_iff, hfresh] <;> grind
    · have hp := h.holds fd o role
      have hread : fd = fds d.cfd ∨ fd = fds d.pfd → ¬ s.Holds fd o role := by
        rintro (rfl | rfl) hx
        · exact hx.table_ne_none (hfree _)
        · exact hx.table_ne_none (hfree _)
      grind
  · intro o ho
    have hlt : s.created < o := ho
    have hobjects : (s.construct d fds).objects o = s.objects o := Function.update_of_ne (by omega) _ _
    rw [hobjects]
    exact h.fresh o (by omega)

/-- What a move makes of the holds: those of the object that was moved from are the new object's. -/
theorem holds_move {s : Pipes} (h : s.Held) (o : Nat) (p : Pipe) (fd : Fd) (o' : Nat) (role : Role) :
    (s.move o p).Holds fd o' role ↔ if o' = s.created then s.Holds fd o role else o' ≠ o ∧ s.Holds fd o' role := by
  have hfresh := h.not_holds_fresh (Nat.le_refl s.created) fd role
  have htable : (s.move o p).table fd = (s.table fd).map (fun e =>
      { e with hold := e.hold.map (fun k => if k.owner = o then { k with owner := s.created } else k) }) := rfl
  unfold Holds at hfresh ⊢
  rw [htable]
  cases he : s.table fd with
  | none => simp
  | some e =>
    cases hk : e.hold with
    | none => simp [hk]
    | some k =>
      simp only [he, Option.mem_def, Option.some.injEq, exists_eq_left', hk] at hfresh
      by_cases hown : k.owner = o
      · simp only [Option.map_some, Option.mem_def, Option.some.injEq, exists_eq_left', hk, hown, if_true]
        grind
      · simp only [Option.map_some, Option.mem_def, Option.some.injEq, exists_eq_left', hk, hown, if_false]
        grind

theorem serial_move (s : Pipes) (o : Nat) (p : Pipe) (fd : Fd) (n : Nat) : (s.move o p).Serial fd n ↔ s.Serial fd n := by
  have htable : (s.move o p).table fd = (s.table fd).map (fun e =>
      { e with hold := e.hold.map (fun k => if k.owner = o then { k with owner := s.created } else k) }) := rfl
  unfold Serial
  rw [htable]
  cases he : s.table fd with
  | none => simp
  | some e =>
    cases hk : e.hold with
    | none => simp [hk]
    | some k => by_cases hown : k.owner = o <;> simp [hk, hown]

theorem Held.move {s : Pipes} (h : s.Held) {o : Nat} {p : Pipe} (hp : s.objects o = some p) : (s.move o p).Held := by
  have ho := h.lt_created hp
  have hobjects : ∀ o', (s.move o p).objects o' = if o' = s.created then some p
      else if o' = o then some p.moved else s.objects o' := by
    intro o'
    change ((s.put o _).put s.created _).objects o' = _
    rw [objects_put, objects_put]
  refine ⟨?_, ?_⟩
  · intro fd o' role
    have hholds := h.holds fd o role
    have hholds' := h.holds fd o' role
    rw [holds_move h, hobjects]
    by_cases hnew : o' = s.created
    · simp [hnew, hholds, hp]
    · by_cases hold : o' = o
      · subst hold
        simp [hnew]
      · simp [hnew, hold, hholds']
  · intro o' ho'
    have hlt : s.created < o' := ho'
    rw [hobjects, if_neg (by omega), if_neg (by omega)]
    exact h.fresh o' (by omega)

/-- What is held after an object has closed what it had in a role. -/
theorem holds_closeRole {s : Pipes} (h : s.Held) (o : Nat) (role : Role) (fd : Fd) (o' : Nat) (role' : Role) :
    (s.closeRole o role).Holds fd o' role' ↔ ¬ (o' = o ∧ role' = role) ∧ s.Holds fd o' role' := by
  unfold closeRole
  split
  · rename_i hp
    have hnone := h.holds fd o role
    rw [hp] at hnone
    grind
  · rename_i p hp
    split
    · rename_i hfield
      rw [holds_put]
      have hnone := h.holds fd o role
      rw [hp] at hnone
      grind
    · rename_i x hfield
      have hx : s.Holds x o role := (h.holds x o role).mpr ⟨p, hp, hfield⟩
      rw [holds_put, holds_sysClose]
      have honly := h.holds fd o role
      rw [hp] at honly
      constructor
      · rintro ⟨hne, hfd⟩
        refine ⟨?_, hfd⟩
        rintro ⟨rfl, rfl⟩
        obtain ⟨q, hq, hfq⟩ := honly.mp hfd
        cases hq
        rw [hfield] at hfq
        exact hne (Option.some.inj hfq).symm
      · rintro ⟨hne, hfd⟩
        refine ⟨?_, hfd⟩
        rintro rfl
        exact hne (hfd.unique hx)

/-- The object that closed what it had in a role. -/
theorem objects_closeRole (s : Pipes) (o : Nat) (role : Role) (o' : Nat) :
    (s.closeRole o role).objects o' = if o' = o then (s.objects o).map (fun p => p.clear role) else s.objects o' := by
  unfold closeRole
  split
  · rename_i hp
    by_cases ho : o' = o <;> simp [ho, hp]
  · rename_i p hp
    split <;> rw [objects_put] <;> simp [hp, sysClose]

theorem created_closeRole (s : Pipes) (o : Nat) (role : Role) : (s.closeRole o role).created = s.created := by
  unfold closeRole
  split
  · rfl
  · split <;> rfl

theorem Held.closeRole {s : Pipes} (h : s.Held) (o : Nat) (role : Role) : (s.closeRole o role).Held := by
  refine ⟨?_, ?_⟩
  · intro fd o' role'
    rw [holds_closeRole h, objects_closeRole, h.holds]
    by_cases ho : o' = o
    · subst ho
      cases s.objects o' with
      | none => simp
      | some p => simp
    · simp [ho]
  · intro o' ho'
    rw [created_closeRole] at ho'
    have hnone := h.fresh o' ho'
    rw [objects_closeRole]
    by_cases ho : o' = o
    · subst ho
      simp [hnone]
    · rw [if_neg ho]
      exact hnone

theorem Held.close {s : Pipes} (h : s.Held) (o : Nat) : (s.close o).Held :=
  ((h.closeRole o .parent).closeRole o .stream).closeRole o .child

/-- What is held after an object was closed. -/
theorem holds_close {s : Pipes} (h : s.Held) (o : Nat) (fd : Fd) (o' : Nat) (role : Role) :
    (s.close o).Holds fd o' role ↔ o' ≠ o ∧ s.Holds fd o' role := by
  unfold Pipes.close
  rw [holds_closeRole ((h.closeRole o .parent).closeRole o .stream), holds_closeRole (h.closeRole o .parent), holds_closeRole h]
  cases role <;> simp

/-- The object that was closed. -/
theorem objects_close (s : Pipes) (o : Nat) (o' : Nat) :
    (s.close o).objects o' =
      if o' = o then (s.objects o).map (fun p => ((p.clear .parent).clear .stream).clear .child) else s.objects o' := by
  unfold Pipes.close
  simp only [objects_closeRole]
  by_cases ho : o' = o <;> simp [ho, Function.comp_def]

theorem created_close (s : Pipes) (o : Nat) : (s.close o).created = s.created := by
  unfold Pipes.close
  rw [created_closeRole, created_closeRole, created_closeRole]

theorem Held.destroy {s : Pipes} (h : s.Held) (o : Nat) : ((s.close o).put o none).Held := by
  refine ⟨?_, ?_⟩
  · intro fd o' role
    rw [holds_put, holds_close h, objects_put, objects_close, h.holds]
    by_cases ho : o' = o <;> simp [ho]
  · intro o' ho'
    have hcreated : s.created ≤ o' := (created_close s o) ▸ ho'
    rw [objects_put, objects_close, h.fresh o' hcreated]
    by_cases ho : o' = o <;> simp [ho]

theorem Held.dup {s : Pipes} (h : s.Held) {o : Nat} {p : Pipe} (hp : s.objects o = some p) (hsd : p.parentSd = none) (e : Entry) {fd : Fd}
    (hfree : s.table fd = none) : (s.dup o p e fd).Held := by
  have ho := h.lt_created hp
  refine ⟨?_, ?_⟩
  · intro x o' role
    unfold Pipes.dup
    rw [holds_put, holds_obtain, objects_put]
    have hfd : x = fd → ¬ s.Holds x o' role := by
      rintro rfl hx
      exact hx.table_ne_none hfree
    have hx := h.holds x o' role
    have hold : (s.obtain fd e.refers o .stream).objects o' = s.objects o' := rfl
    rw [hold]
    by_cases ho' : o' = o
    · subst ho'
      rw [hp] at hx
      cases role <;> simp [Pipe.field, hsd] at hx ⊢ <;> grind
    · grind
  · intro o' ho'
    have hcreated : s.created ≤ o' := ho'
    unfold Pipes.dup
    rw [objects_put, if_neg (by omega)]
    exact h.fresh o' hcreated

/-- One action keeps the invariant, if `::pipe` does not return 0 in it. -/
theorem Held.step {s s' : Pipes} {a : Action} (h : s.Held)
    (ha : ∀ {d readFd writeFd}, a = .construct d readFd writeFd → readFd ≠ 0 ∧ writeFd ≠ 0) (hs : s.step a = some s') :
    s'.Held := by
  cases steps_of_step hs with
  | @construct d readFd writeFd hread hwrite hne =>
    obtain ⟨hr, hw⟩ := ha rfl
    refine h.construct d ?_ ?_ ?_
    · intro e
      cases e <;> assumption
    · intro e
      cases e <;> assumption
    · cases d
      · exact hne
      · exact hne.symm
  | move hp => exact h.move hp
  | child => exact h
  | returned => exact h.congr (fun fd o role => holds_congr rfl o role) rfl rfl
  | throws => exact h
  | dup hp hsd _ hfree => exact (h.dup hp hsd _ hfree).congr (fun fd o role => holds_congr rfl o role) rfl rfl
  | close => exact h.close _
  | destroy => exact h.destroy _
  | opened hfree =>
    exact h.congr (fun fd o role => holds_update_unheld (unheld_of_none hfree) (by simp) fd o role) rfl rfl
  | closed hunheld => exact h.congr (fun fd o role => holds_update_unheld hunheld (by simp) fd o role) rfl rfl
  | copied _ hunheld => exact h.congr (fun fd o role => holds_update_unheld hunheld (by simp) fd o role) rfl rfl

/-! ## The serial numbers -/

/-- Every serial number is that of one open descriptor, or of one that was closed, once, by its owner. -/
structure Serials (s : Pipes) : Prop where
  issued : ∀ n, n < s.issued ↔ (∃ fd, s.Serial fd n) ∨ n ∈ s.released
  released : ∀ fd n, s.Serial fd n → n ∉ s.released
  unique : ∀ fd fd' n, s.Serial fd n → s.Serial fd' n → fd = fd'
  nodup : s.released.Nodup
  closes : ∀ c ∈ s.closings, ∃ e ∈ c.entry, ∃ h ∈ e.hold, h.owner = c.object

theorem serials_start (inherited : Fd → Bool) : (start inherited).Serials := by
  have hnone : ∀ fd n, ¬ (start inherited).Serial fd n := by
    intro fd n
    refine not_serial_of_unheld ?_ n
    intro e he
    obtain ⟨-, heq⟩ := Option.ite_none_right_eq_some.mp he
    cases heq
    rfl
  refine ⟨?_, ?_, ?_, List.nodup_nil, by simp [start]⟩
  · intro n
    have hissued : (start inherited).issued = 0 := rfl
    have hreleased : (start inherited).released = [] := rfl
    simp [hnone, hissued, hreleased]
  · intro fd n hn
    exact absurd hn (hnone fd n)
  · intro fd fd' n hn
    exact absurd hn (hnone fd n)

/-- The invariant depends on the serial numbers of the open descriptors, on the next one and on the closings. -/
theorem Serials.congr {s t : Pipes} (h : s.Serials) (hserial : ∀ fd n, t.Serial fd n ↔ s.Serial fd n) (hissued : t.issued = s.issued)
    (hclosings : t.closings = s.closings) : t.Serials := by
  have hreleased : t.released = s.released := by
    unfold Pipes.released
    rw [hclosings]
  obtain ⟨h1, h2, h3, h4, h5⟩ := h
  refine ⟨?_, ?_, ?_, hreleased ▸ h4, hclosings ▸ h5⟩
  · intro n
    simp only [hissued, hserial, hreleased, h1]
  · intro fd n hn
    rw [hreleased]
    exact h2 fd n ((hserial fd n).mp hn)
  · intro fd fd' n hn hn'
    exact h3 fd fd' n ((hserial fd n).mp hn) ((hserial fd' n).mp hn')

/-- A descriptor is obtained with the next serial number. -/
theorem Serials.obtain {s : Pipes} (h : s.Serials) {fd : Fd} (hfree : s.table fd = none) (refers : Referent) (o : Nat) (role : Role) :
    (s.obtain fd refers o role).Serials := by
  have hnone : ∀ n, ¬ s.Serial fd n := not_serial_of_unheld (unheld_of_none hfree)
  have hlt : ∀ x n, s.Serial x n → n < s.issued := fun x n hx => (h.issued n).mpr (Or.inl ⟨x, hx⟩)
  have hlt' : ∀ n ∈ s.released, n < s.issued := fun n hn => (h.issued n).mpr (Or.inr hn)
  have hreleased : (s.obtain fd refers o role).released = s.released := rfl
  refine ⟨?_, ?_, ?_, h.nodup, h.closes⟩
  · intro n
    have hissued : (s.obtain fd refers o role).issued = s.issued + 1 := rfl
    have hn := h.issued n
    simp only [serial_obtain, hissued, hreleased]
    constructor
    · intro hlt
      by_cases heq : s.issued = n
      · exact Or.inl ⟨fd, by simp [heq]⟩
      · rcases hn.mp (by omega) with ⟨x, hx⟩ | hx
        · refine Or.inl ⟨x, ?_⟩
          have hne : x ≠ fd := fun heq => hnone n (heq ▸ hx)
          simp [hne, hx]
        · exact Or.inr hx
    · rintro (⟨x, hx⟩ | hx)
      · by_cases heq : x = fd
        · simp only [heq, if_true] at hx
          omega
        · simp only [heq, if_false] at hx
          have := hlt x n hx
          omega
      · have := hlt' n hx
        omega
  · intro x n hx
    rw [serial_obtain] at hx
    rw [hreleased]
    by_cases heq : x = fd
    · simp only [heq, if_true] at hx
      intro hmem
      have := hlt' n hmem
      omega
    · simp only [heq, if_false] at hx
      exact h.released x n hx
  · intro x x' n hx hx'
    rw [serial_obtain] at hx hx'
    by_cases heq : x = fd <;> by_cases heq' : x' = fd <;> simp only [heq, heq', if_true, if_false] at hx hx' ⊢
    · have := hlt x' n hx'
      omega
    · have := hlt x n hx
      omega
    · exact h.unique x x' n hx hx'

/-- The owner of a descriptor closes it. -/
theorem Serials.sysClose {s : Pipes} (h : s.Serials) {fd : Fd} {o : Nat} {role : Role} (hfd : s.Holds fd o role) :
    (s.sysClose o fd).Serials := by
  obtain ⟨e, he, k, hk, howner, -⟩ := hfd
  have hn : s.Serial fd k.serial := ⟨e, he, k, hk, rfl⟩
  have hreleased : (s.sysClose o fd).released = s.released ++ [k.serial] := by
    rw [Option.mem_def] at he hk
    simp [Pipes.released, Pipes.sysClose, List.filterMap_append, he, hk]
  refine ⟨?_, ?_, ?_, ?_, ?_⟩
  · intro n
    have hissued : (s.sysClose o fd).issued = s.issued := rfl
    simp only [serial_sysClose, hissued, hreleased, h.issued, List.mem_append, List.mem_singleton]
    constructor
    · rintro (⟨x, hx⟩ | hx)
      · by_cases heq : x = fd
        · subst heq
          obtain ⟨e', he', k', hk', rfl⟩ := hx
          obtain rfl := Option.mem_unique he he'
          obtain rfl := Option.mem_unique hk hk'
          exact Or.inr (Or.inr rfl)
        · exact Or.inl ⟨x, heq, hx⟩
      · exact Or.inr (Or.inl hx)
    · rintro (⟨x, -, hx⟩ | hx | rfl)
      · exact Or.inl ⟨x, hx⟩
      · exact Or.inr hx
      · exact Or.inl ⟨fd, hn⟩
  · intro x n hx
    rw [serial_sysClose] at hx
    rw [hreleased, List.mem_append, List.mem_singleton]
    rintro (hmem | rfl)
    · exact h.released x n hx.2 hmem
    · exact hx.1 (h.unique x fd _ hx.2 hn)
  · intro x x' n hx hx'
    rw [serial_sysClose] at hx hx'
    exact h.unique x x' n hx.2 hx'.2
  · rw [hreleased, List.nodup_append]
    refine ⟨h.nodup, by simp, ?_⟩
    intro a ha b hb heq
    rw [List.mem_singleton] at hb
    subst hb heq
    exact h.released fd _ hn ha
  · intro c hc
    have hclosings : (s.sysClose o fd).closings = s.closings ++ [{ object := o, entry := s.table fd }] := rfl
    rw [hclosings, List.mem_append, List.mem_singleton] at hc
    rcases hc with hc | rfl
    · exact h.closes c hc
    · exact ⟨e, he, k, hk, howner⟩

theorem Serials.put {s : Pipes} (h : s.Serials) (o : Nat) (p : Option Pipe) : (s.put o p).Serials :=
  h.congr (fun fd n => serial_put s o p fd n) rfl rfl

theorem Serials.closeRole {s : Pipes} (h : s.Serials) (hheld : s.Held) (o : Nat) (role : Role) : (s.closeRole o role).Serials := by
  unfold Pipes.closeRole
  split
  · exact h
  · rename_i p hp
    split
    · exact h.put o _
    · rename_i fd hfield
      exact (h.sysClose ((hheld.holds fd o role).mpr ⟨p, hp, hfield⟩)).put o _

theorem Serials.close {s : Pipes} (h : s.Serials) (hheld : s.Held) (o : Nat) : (s.close o).Serials :=
  ((h.closeRole hheld o .parent).closeRole (hheld.closeRole o .parent) o .stream).closeRole
    ((hheld.closeRole o .parent).closeRole o .stream) o .child

/-- One action keeps the serial numbers in order. -/
theorem Serials.step {s s' : Pipes} {a : Action} (h : s.Serials) (hheld : s.Held) (hs : s.step a = some s') : s'.Serials := by
  cases steps_of_step hs with
  | @construct d readFd writeFd hread hwrite hne =>
    have hfree : ∀ e, s.table (ends readFd writeFd e) = none := by
      intro e
      cases e <;> assumption
    have hne' : ends readFd writeFd d.cfd ≠ ends readFd writeFd d.pfd := by
      cases d
      · exact hne
      · exact hne.symm
    have hparent := h.obtain (hfree d.pfd) (.pipe s.pipes d.pfd) s.created .parent
    have hchildFree : (s.obtain (ends readFd writeFd d.pfd) (.pipe s.pipes d.pfd) s.created .parent).table
        (ends readFd writeFd d.cfd) = none := by
      rw [table_obtain, if_neg hne']
      exact hfree d.cfd
    have hchild := hparent.obtain hchildFree (.pipe s.pipes d.cfd) s.created .child
    exact hchild.congr (fun fd n => serial_congr rfl n) rfl rfl
  | move => exact h.congr (fun fd n => serial_move s _ _ fd n) rfl rfl
  | child => exact h
  | returned => exact h.congr (fun fd n => serial_congr rfl n) rfl rfl
  | throws => exact h
  | dup _ _ _ hfree => exact (h.obtain hfree _ _ .stream).congr (fun fd n => serial_congr rfl n) rfl rfl
  | close => exact h.close hheld _
  | destroy => exact (h.close hheld _).put _ none
  | opened hfree => exact h.congr (fun fd n => serial_update_unheld (unheld_of_none hfree) (by simp) fd n) rfl rfl
  | closed hunheld => exact h.congr (fun fd n => serial_update_unheld hunheld (by simp) fd n) rfl rfl
  | copied _ hunheld => exact h.congr (fun fd n => serial_update_unheld hunheld (by simp) fd n) rfl rfl

/-! ## What the descriptors refer to -/

/-- A descriptor that is held refers to the end of the own pipe of its object that its role is for, and so `parent` returned one for
the parent end. -/
structure Refers (s : Pipes) : Prop where
  ends : ∀ {fd : Fd} {e : Entry} {h : Hold} {p : Pipe}, s.table fd = some e → e.hold = some h → s.objects h.owner = some p →
    ∃ id, p.own = some id ∧ e.refers = .pipe id (p.direction.endOf h.role)
  parents : ∀ r ∈ s.returns, ∀ x ∈ r.refers, r.own = some x

theorem refers_start (inherited : Fd → Bool) : (start inherited).Refers := by
  refine ⟨?_, by simp [start]⟩
  intro fd e h p _ _ hp
  cases hp

/-- A change of a descriptor that leaves none held in it. -/
theorem Refers.update {s t : Pipes} (h : s.Refers) {x : Fd} {v : Option Entry} (hv : ∀ e ∈ v, e.hold = none)
    (htable : t.table = Function.update s.table x v) (hobjects : t.objects = s.objects) (hreturns : t.returns = s.returns) :
    t.Refers := by
  refine ⟨?_, hreturns ▸ h.parents⟩
  intro fd e k p he hk hp
  rw [htable, Function.update_apply] at he
  rw [hobjects] at hp
  by_cases hfd : fd = x
  · rw [if_pos hfd] at he
    rw [hv e he] at hk
    cases hk
  · rw [if_neg hfd] at he
    exact h.ends he hk hp

/-- An object that keeps its pipe, or goes. -/
theorem Refers.put {s : Pipes} (h : s.Refers) {o : Nat} {q : Option Pipe}
    (hq : ∀ p' ∈ q, ∃ p, s.objects o = some p ∧ p'.own = p.own ∧ p'.direction = p.direction) : (s.put o q).Refers := by
  refine ⟨?_, h.parents⟩
  intro fd e k p he hk hp
  rw [objects_put] at hp
  by_cases ho : k.owner = o
  · rw [if_pos ho] at hp
    obtain ⟨p', hp', hown, hdirection⟩ := hq p hp
    rw [hown, hdirection]
    exact h.ends he hk (ho ▸ hp')
  · rw [if_neg ho] at hp
    exact h.ends he hk hp

theorem Refers.closeRole {s : Pipes} (h : s.Refers) (o : Nat) (role : Role) : (s.closeRole o role).Refers := by
  unfold Pipes.closeRole
  split
  · exact h
  · rename_i p hp
    have hkeep : ∀ p' ∈ some (p.clear role), ∃ q, s.objects o = some q ∧ p'.own = q.own ∧ p'.direction = q.direction := by
      intro p' hp'
      cases hp'
      exact ⟨p, hp, p.own_clear role, p.direction_clear role⟩
    split
    · exact h.put hkeep
    · rename_i fd hfield
      exact (h.update (v := none) (x := fd) (t := s.sysClose o fd) (by simp) rfl rfl rfl).put hkeep

theorem Refers.close {s : Pipes} (h : s.Refers) (o : Nat) : (s.close o).Refers :=
  ((h.closeRole o .parent).closeRole o .stream).closeRole o .child

/-- A descriptor is obtained for the end that its role is for. -/
theorem Refers.obtain {s : Pipes} (h : s.Refers) {fd : Fd} {refers : Referent} {o : Nat} {role : Role}
    (hp : ∀ p, s.objects o = some p → ∃ id, p.own = some id ∧ refers = .pipe id (p.direction.endOf role)) :
    (s.obtain fd refers o role).Refers := by
  refine ⟨?_, h.parents⟩
  intro x e k p he hk hobj
  rw [table_obtain] at he
  by_cases hx : x = fd
  · rw [if_pos hx] at he
    cases he
    cases hk
    exact hp p hobj
  · rw [if_neg hx] at he
    exact h.ends he hk hobj

theorem Refers.construct {s : Pipes} (h : s.Refers) (hheld : s.Held) (d : Direction) (fds : End → Fd) : (s.construct d fds).Refers := by
  refine ⟨?_, h.parents⟩
  intro fd e k p he hk hp
  have hobjects : (s.construct d fds).objects k.owner =
      if k.owner = s.created then some { direction := d, parentFd := fds d.pfd, parentSd := none, childFd := fds d.cfd, own := some s.pipes }
      else s.objects k.owner := Function.update_apply _ _ _ _
  have htable : (s.construct d fds).table fd =
      if fd = fds d.cfd then some ⟨.pipe s.pipes d.cfd, some ⟨s.issued + 1, s.created, .child⟩⟩
      else if fd = fds d.pfd then some ⟨.pipe s.pipes d.pfd, some ⟨s.issued, s.created, .parent⟩⟩ else s.table fd := by
    change ((s.obtain _ _ _ _).obtain _ _ _ _).table fd = _
    simp only [table_obtain]
    rfl
  rw [htable] at he
  rw [hobjects] at hp
  by_cases hc : fd = fds d.cfd
  · rw [if_pos hc] at he
    cases he
    cases hk
    rw [if_pos rfl] at hp
    cases hp
    exact ⟨s.pipes, rfl, rfl⟩
  · rw [if_neg hc] at he
    by_cases hpf : fd = fds d.pfd
    · rw [if_pos hpf] at he
      cases he
      cases hk
      rw [if_pos rfl] at hp
      cases hp
      exact ⟨s.pipes, rfl, rfl⟩
    · rw [if_neg hpf] at he
      have hne : k.owner ≠ s.created := by
        intro heq
        exact hheld.not_holds_fresh (Nat.le_refl _) fd k.role ⟨e, he, k, hk, heq, rfl⟩
      rw [if_neg hne] at hp
      exact h.ends he hk hp

theorem Refers.move {s : Pipes} (h : s.Refers) (hheld : s.Held) {o : Nat} {p : Pipe} (hp : s.objects o = some p) :
    (s.move o p).Refers := by
  refine ⟨?_, h.parents⟩
  intro fd e' k' q he' hk' hq
  have htable : (s.move o p).table fd = (s.table fd).map (fun e =>
      { e with hold := e.hold.map (fun k => if k.owner = o then { k with owner := s.created } else k) }) := rfl
  have hobjects : (s.move o p).objects k'.owner = if k'.owner = s.created then some p
      else if k'.owner = o then some p.moved else s.objects k'.owner := by
    change ((s.put o _).put s.created _).objects k'.owner = _
    rw [objects_put, objects_put]
  rw [htable] at he'
  rw [hobjects] at hq
  obtain ⟨e, he, rfl⟩ := Option.map_eq_some_iff.mp he'
  obtain ⟨k, hk, rfl⟩ := Option.map_eq_some_iff.mp hk'
  by_cases howner : k.owner = o
  · simp only [howner, if_true, Option.some.injEq] at hq ⊢
    subst hq
    exact h.ends he hk (howner ▸ hp)
  · have hne : k.owner ≠ s.created := by
      intro heq
      exact hheld.not_holds_fresh (Nat.le_refl _) fd k.role ⟨e, he, k, hk, heq, rfl⟩
    simp only [howner, hne, if_false] at hq ⊢
    exact h.ends he hk hq

/-- What `parent` returns is for the parent end of the object's own pipe. -/
theorem Refers.returned {s : Pipes} (h : s.Refers) (hheld : s.Held) {o : Nat} {p : Pipe} (hp : s.objects o = some p) :
    (s.returned p).Refers := by
  refine ⟨h.ends, ?_⟩
  intro r hr x hx
  have hreturns : (s.returned p).returns = s.returns ++
      [{ own := p.own.map (fun id => .pipe id p.direction.pfd)
         refers := (p.field .stream).bind (fun fd => (s.table fd).map Entry.refers) }] := rfl
  rw [hreturns, List.mem_append, List.mem_singleton] at hr
  rcases hr with hr | rfl
  · exact h.parents r hr x hx
  · obtain ⟨fd, hfield, hfd⟩ := Option.bind_eq_some_iff.mp hx
    obtain ⟨e, he, rfl⟩ := Option.map_eq_some_iff.mp hfd
    obtain ⟨e', he', k, hk, rfl, hrole⟩ := (hheld.holds fd o .stream).mpr ⟨p, hp, hfield⟩
    obtain rfl := Option.mem_unique he he'
    obtain ⟨id, hown, hrefers⟩ := h.ends he hk hp
    rw [hrole] at hrefers
    simp [hown, hrefers, Direction.endOf]

/-- The parent descriptor is for the parent end, unless it is a descriptor 0 that is not the object's. -/
theorem Refers.parentFd {s : Pipes} (h : s.Refers) (hheld : s.Held) {o : Nat} {p : Pipe} (hp : s.objects o = some p) {e : Entry}
    (he : s.table p.parentFd = some e) (hzero : p.parentFd ≠ 0) :
    p.own.map (fun id => Referent.pipe id p.direction.pfd) = some e.refers := by
  have hfield : p.field .parent = some p.parentFd := nonzero_eq_some_iff.mpr ⟨hzero, rfl⟩
  obtain ⟨e', he', k, hk, rfl, hrole⟩ := (hheld.holds p.parentFd o .parent).mpr ⟨p, hp, hfield⟩
  obtain rfl := Option.mem_unique he he'
  obtain ⟨id, hown, hrefers⟩ := h.ends he hk hp
  rw [hrole] at hrefers
  simp [hown, hrefers, Direction.endOf]

/-- The stream descriptor is for the parent end when the descriptor that it is made from is. -/
theorem Refers.dup {s : Pipes} (h : s.Refers) {o : Nat} {p : Pipe} (hp : s.objects o = some p) {e : Entry}
    (he : p.own.map (fun id => Referent.pipe id p.direction.pfd) = some e.refers) (fd : Fd) : (s.dup o p e fd).Refers := by
  obtain ⟨id, hown, hrefers⟩ := Option.map_eq_some_iff.mp he
  have hobtain : (s.obtain fd e.refers o .stream).Refers := by
    refine h.obtain ?_
    intro q hq
    rw [hp] at hq
    cases hq
    exact ⟨id, hown, hrefers.symm⟩
  refine hobtain.put ?_
  intro p' hp'
  cases hp'
  exact ⟨p, hp, rfl, rfl⟩

/-- One proper action keeps what the descriptors refer to. -/
theorem Refers.step {s s' : Pipes} {a : Action} (h : s.Refers) (hheld : s.Held) (ha : s.Proper a) (hs : s.step a = some s') :
    s'.Refers := by
  cases steps_of_step hs with
  | construct => exact h.construct hheld _ _
  | move hp => exact h.move hheld hp
  | child => exact h
  | returned hp => exact h.returned hheld hp
  | throws => exact h
  | @dup o fd p e hp hsd he hfree =>
    have hrefers : p.own.map (fun id => Referent.pipe id p.direction.pfd) = some e.refers := by
      by_cases hzero : p.parentFd = 0
      · rw [hzero] at he
        exact ha p hp hsd hzero e he
      · exact h.parentFd hheld hp he hzero
    refine (h.dup hp hrefers fd).returned (hheld.dup hp hsd e hfree) (o := o) ?_
    unfold Pipes.dup
    rw [objects_put, if_pos rfl]
  | close => exact h.close _
  | destroy => exact (h.close _).put (by simp)
  | opened => exact h.update (by simp) rfl rfl rfl
  | closed => exact h.update (by simp) rfl rfl rfl
  | copied => exact h.update (by simp) rfl rfl rfl

end Pipes

end FostWright
