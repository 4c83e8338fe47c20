import FostWright.Lemmas.Pipe
import FostWright.Processes

/-!
# Descriptors across a fork

What a process that was forked for a child has when it executes the supervisor: nothing that a pipe object obtained is left, and what
else there is does not include the write end of any stdin pipe.
-/

namespace FostWright

open Lib

/-- The direction depends on the place among the four pipes of a child. -/
theorem directionOf_add (i j : Nat) : directionOf (4 * i + j) = directionOf j := by
  unfold directionOf
  rw [Nat.mul_add_mod]

/-- What a descriptor of the manager refers to. One that a pipe object obtained is for the end of the object's pipe that its role is
for, unless it is a copy of descriptor 0; any other is not for the write end of a stdin pipe. -/
def Entry.Sound (e : Entry) : Prop :=
  match e.hold with
  | none => ∀ i, e.refers ≠ Processes.stdinWrite i
  | some k => e.refers = .pipe k.owner ((directionOf k.owner).endOf k.role) ∨ k.role = .stream ∧ e.refers = .other

theorem Entry.sound_unheld {x : Referent} (h : ∀ i, x ≠ Processes.stdinWrite i) : (Entry.mk x none).Sound := h

theorem Entry.sound_other : (Entry.mk .other none).Sound := by
  intro i h
  cases h

/-- What is for the write end of a stdin pipe is held by that stdin. -/
theorem Entry.Sound.owner {e : Entry} (h : e.Sound) {i : Nat} (he : e.refers = Processes.stdinWrite i) :
    ∃ k ∈ e.hold, k.owner = stdinOf i := by
  unfold Sound at h
  split at h
  · exact absurd he (h i)
  · rename_i k hk
    rcases h with h | ⟨-, h⟩
    · rw [he] at h
      simp only [Processes.stdinWrite, Referent.pipe.injEq] at h
      exact ⟨k, hk, h.1.symm⟩
    · rw [he] at h
      cases h

namespace Pipes

/-- All descriptors are sound. -/
def Sound (s : Pipes) : Prop := ∀ fd e, s.table fd = some e → e.Sound

/-- The standard descriptors are open, and do not come from a pipe. -/
def Standard (s : Pipes) : Prop := ∀ fd < 3, s.table fd = some ⟨.other, none⟩

theorem Standard.unheld {s : Pipes} (h : s.Standard) {fd : Fd} (hfd : fd < 3) : s.Unheld fd := by
  intro e he
  rw [h fd hfd] at he
  cases he
  rfl

/-- A descriptor that was free is not a standard one. -/
theorem Standard.three_le {s : Pipes} (h : s.Standard) {fd : Fd} (hfree : s.table fd = none) : 3 ≤ fd := by
  by_contra hlt
  rw [h fd (Nat.lt_of_not_le hlt)] at hfree
  cases hfree

theorem Sound.update {s t : Pipes} (h : s.Sound) {x : Fd} {v : Option Entry} (hv : ∀ e ∈ v, e.Sound)
    (htable : t.table = Function.update s.table x v) : t.Sound := by
  intro fd e he
  rw [htable, Function.update_apply] at he
  by_cases hfd : fd = x
  · rw [if_pos hfd] at he
    exact hv e he
  · rw [if_neg hfd] at he
    exact h fd e he

theorem Standard.update {s t : Pipes} (h : s.Standard) {x : Fd} (hx : 3 ≤ x) {v : Option Entry}
    (htable : t.table = Function.update s.table x v) : t.Standard := by
  intro fd hfd
  rw [htable, Function.update_of_ne (Nat.ne_of_lt (Nat.lt_of_lt_of_le hfd hx))]
  exact h fd hfd

/-! ## Closing -/

/-- What is open after an object was closed was open before. -/
theorem table_closeRole_of_some {s : Pipes} {o : Nat} {role : Role} {fd : Fd} {e : Entry}
    (h : (s.closeRole o role).table fd = some e) : s.table fd = some e := by
  unfold closeRole at h
  split at h
  · exact h
  · split at h
    · exact h
    · rename_i x _
      rw [table_put, table_sysClose] at h
      exact (Option.ite_none_left_eq_some.mp h).2

theorem table_close_of_some {s : Pipes} {o : Nat} {fd : Fd} {e : Entry} (h : (s.close o).table fd = some e) : s.table fd = some e :=
  table_closeRole_of_some (table_closeRole_of_some (table_closeRole_of_some h))

/-- What no object holds is not closed. -/
theorem table_closeRole_of_unheld {s : Pipes} (hheld : s.Held) (o : Nat) (role : Role) {fd : Fd} (h : s.Unheld fd) :
    (s.closeRole o role).table fd = s.table fd := by
  unfold closeRole
  split
  · rfl
  · rename_i p hp
    split
    · rfl
    · rename_i x hfield
      have hx : s.Holds x o role := (hheld.holds x o role).mpr ⟨p, hp, hfield⟩
      have hne : fd ≠ x := by
        rintro rfl
        exact not_holds_of_unheld h o role hx
      rw [table_put, table_sysClose, if_neg hne]

theorem unheld_of_some {s t : Pipes} (h : ∀ {fd e}, t.table fd = some e → s.table fd = some e) {fd : Fd} (hfd : s.Unheld fd) :
    t.Unheld fd := fun e he => hfd e (h he)

theorem table_close_of_unheld {s : Pipes} (hheld : s.Held) (o : Nat) {fd : Fd} (h : s.Unheld fd) :
    (s.close o).table fd = s.table fd := by
  have h1 := unheld_of_some (t := s.closeRole o .parent) table_closeRole_of_some h
  have h2 := unheld_of_some (t := (s.closeRole o .parent).closeRole o .stream) table_closeRole_of_some h1
  unfold Pipes.close
  rw [table_closeRole_of_unheld ((hheld.closeRole o .parent).closeRole o .stream) o .child h2,
    table_closeRole_of_unheld (hheld.closeRole o .parent) o .stream h1, table_closeRole_of_unheld hheld o .parent h]

theorem Sound.close {s : Pipes} (h : s.Sound) (o : Nat) : (s.close o).Sound := fun fd e he => h fd e (table_close_of_some he)

theorem Standard.close {s : Pipes} (h : s.Standard) (hheld : s.Held) (o : Nat) : (s.close o).Standard := by
  intro fd hfd
  rw [table_close_of_unheld hheld o (h.unheld hfd)]
  exact h fd hfd

/-! ## Tidying -/

theorem Held.closeChild {s : Pipes} (h : s.Held) (i : Nat) : (s.closeChild i).Held :=
  (((h.close _).close _).close _).close _

theorem holds_closeChild {s : Pipes} (h : s.Held) (i : Nat) (fd : Fd) (o : Nat) (role : Role) :
    (s.closeChild i).Holds fd o role ↔ o / 4 ≠ i ∧ s.Holds fd o role := by
  unfold closeChild
  rw [holds_close (((h.close _).close _).close _), holds_close ((h.close _).close _), holds_close (h.close _), holds_close h]
  simp only [← and_assoc]
  refine and_congr_left (fun _ => ?_)
  simp only [stdinOf, stdoutOf, stderrOf, resendOf]
  omega

theorem tidy_succ (s : Pipes) (n : Nat) : s.tidy (n + 1) = (s.tidy n).closeChild n := by
  unfold tidy
  rw [List.range_succ, List.foldl_append]
  rfl

theorem Held.tidy {s : Pipes} (h : s.Held) (n : Nat) : (s.tidy n).Held := by
  induction n with
  | zero => exact h
  | succ n ih =>
    rw [tidy_succ]
    exact ih.closeChild n

/-- What is held after tidying is what the other children hold. -/
theorem holds_tidy {s : Pipes} (h : s.Held) (n : Nat) (fd : Fd) (o : Nat) (role : Role) :
    (s.tidy n).Holds fd o role ↔ n ≤ o / 4 ∧ s.Holds fd o role := by
  induction n with
  | zero => simp [tidy]
  | succ n ih =>
    rw [tidy_succ, holds_closeChild (h.tidy n), ih, ← and_assoc]
    refine and_congr_left (fun _ => ?_)
    omega

theorem table_tidy_of_some {s : Pipes} {n : Nat} {fd : Fd} {e : Entry} (h : (s.tidy n).table fd = some e) : s.table fd = some e := by
  induction n with
  | zero => exact h
  | succ n ih =>
    rw [tidy_succ] at h
    exact ih (table_close_of_some (table_close_of_some (table_close_of_some (table_close_of_some h))))

theorem table_tidy_of_unheld {s : Pipes} (hheld : s.Held) (n : Nat) {fd : Fd} (h : s.Unheld fd) :
    (s.tidy n).table fd = s.table fd := by
  induction n with
  | zero => rfl
  | succ n ih =>
    have hn := hheld.tidy n
    have h0 := unheld_of_some (t := s.tidy n) table_tidy_of_some h
    have h1 := unheld_of_some (t := (s.tidy n).close (stdinOf n)) table_close_of_some h0
    have h2 := unheld_of_some (t := ((s.tidy n).close (stdinOf n)).close (stdoutOf n)) table_close_of_some h1
    have h3 := unheld_of_some (t := (((s.tidy n).close (stdinOf n)).close (stdoutOf n)).close (stderrOf n)) table_close_of_some h2
    rw [tidy_succ]
    unfold closeChild
    rw [table_close_of_unheld (((hn.close _).close _).close _) _ h3, table_close_of_unheld ((hn.close _).close _) _ h2,
      table_close_of_unheld (hn.close _) _ h1, table_close_of_unheld hn _ h0]
    exact ih

/-! ## The pipes of the children -/

/-- The pipes numbered below `count` have been made, and none of them closed. -/
structure Built (s : Pipes) (count : Nat) : Prop where
  created : s.created = count
  pipes : s.pipes = count
  objects : ∀ o < count, ∃ p ∈ s.objects o, p.parentFd ≠ 0 ∧ p.childFd ≠ 0

/-- What `child` returns for a pipe that was made. -/
theorem table_childFd {s : Pipes} {count : Nat} (hbuilt : s.Built count) (hheld : s.Held) (hsound : s.Sound) {o : Nat} (ho : o < count) :
    ∃ k, s.table (s.childFd o) = some ⟨.pipe o (directionOf o).cfd, some k⟩ := by
  obtain ⟨p, hp, -, hchild⟩ := hbuilt.objects o ho
  have hfd : s.childFd o = p.childFd := by
    unfold childFd
    rw [hp]
    rfl
  obtain ⟨⟨refers, hold⟩, he, k, hk, howner, hrole⟩ :=
    (hheld.holds p.childFd o .child).mpr ⟨p, hp, nonzero_eq_some_iff.mpr ⟨hchild, rfl⟩⟩
  cases hk
  have hs := hsound _ _ he
  simp only [Entry.Sound, howner, hrole] at hs
  rcases hs with hs | ⟨hs, -⟩
  · rw [hfd, he]
    exact ⟨k, by rw [hs]; rfl⟩
  · cases hs

/-! ## Before `execvp` -/

/-- The child end of a pipe is not the write end of a stdin. -/
theorem cfd_ne_stdinWrite (o j : Nat) : Referent.pipe o (directionOf o).cfd ≠ Processes.stdinWrite j := by
  intro h
  simp only [Processes.stdinWrite, Referent.pipe.injEq] at h
  obtain ⟨rfl, h⟩ := h
  have hdir : directionOf (stdinOf j) = .pipeIn := directionOf_add j 0
  rw [hdir] at h
  cases h

/-- What `dup2` on the child end of a pipe that was made does: the descriptor is replaced, and all else is as it was. -/
structure Dup2 (s t : Pipes) (o : Nat) (dst : Fd) : Prop where
  copied : t.table dst = some ⟨.pipe o (directionOf o).cfd, none⟩
  others : ∀ fd, fd ≠ dst → t.table fd = s.table fd
  objects : t.objects = s.objects
  held : t.Held
  sound : t.Sound

theorem dup2_child {s : Pipes} {count : Nat} (hbuilt : s.Built count) (hheld : s.Held) (hsound : s.Sound) {o : Nat} (ho : o < count)
    {dst : Fd} (hdst : s.Unheld dst) :
    Dup2 s (s.dup2 (s.childFd o) dst) o dst ∧ (s.dup2 (s.childFd o) dst).Built count := by
  obtain ⟨k, he⟩ := table_childFd hbuilt hheld hsound ho
  have heq : s.dup2 (s.childFd o) dst =
      { s with table := Function.update s.table dst (some ⟨.pipe o (directionOf o).cfd, none⟩) } := by
    unfold dup2
    rw [he]
  rw [heq]
  refine ⟨⟨Function.update_self _ _ _, fun fd hfd => Function.update_of_ne hfd _ _, rfl, ?_, ?_⟩, hbuilt.created, hbuilt.pipes,
    hbuilt.objects⟩
  · exact hheld.congr (fun fd o' role => holds_update_unheld hdst (by simp) fd o' role) rfl rfl
  · refine hsound.update (x := dst) (v := some ⟨.pipe o (directionOf o).cfd, none⟩) ?_ rfl
    intro e he'
    cases he'
    exact Entry.sound_unheld (cfd_ne_stdinWrite o)

theorem Dup2.unheld {s t : Pipes} {o : Nat} {dst : Fd} (h : Dup2 s t o dst) {fd : Fd} (hfd : s.Unheld fd) : t.Unheld fd := by
  by_cases heq : fd = dst
  · subst heq
    intro e he
    rw [h.copied] at he
    cases he
    rfl
  · intro e he
    rw [h.others fd heq] at he
    exact hfd e he

theorem Dup2.childFd {s t : Pipes} {o : Nat} {dst : Fd} (h : Dup2 s t o dst) (o' : Nat) : t.childFd o' = s.childFd o' := by
  unfold Pipes.childFd
  rw [h.objects]

/-- What the process forked for child `i` is left with: its descriptor 0 is the read end of its stdin, and no descriptor is for the
write end of any stdin. -/
theorem table_prepare {s : Pipes} {i : Nat} (hbuilt : s.Built (4 * (i + 1))) (hheld : s.Held) (hsound : s.Sound) (hstd : s.Standard) :
    (∀ fd e, (s.prepare i).table fd = some e → ∀ j, e.refers ≠ Processes.stdinWrite j) ∧
      ∃ e, (s.prepare i).table 0 = some e ∧ e.refers = Processes.stdinRead i := by
  have h0 := hstd.unheld (show 0 < 3 by decide)
  have h1 := hstd.unheld (show 1 < 3 by decide)
  have h2 := hstd.unheld (show 2 < 3 by decide)
  obtain ⟨d0, b0⟩ := dup2_child hbuilt hheld hsound (show stdinOf i < _ by simp only [stdinOf]; omega) h0
  obtain ⟨d1, b1⟩ := dup2_child b0 d0.held d0.sound (show stdoutOf i < _ by simp only [stdoutOf]; omega) (d0.unheld h1)
  obtain ⟨d2, b2⟩ := dup2_child b1 d1.held d1.sound (show stderrOf i < _ by simp only [stderrOf]; omega) (d1.unheld (d0.unheld h2))
  have heq : s.prepare i = (((s.dup2 (s.childFd (stdinOf i)) 0).dup2 ((s.dup2 (s.childFd (stdinOf i)) 0).childFd (stdoutOf i)) 1).dup2
      (((s.dup2 (s.childFd (stdinOf i)) 0).dup2 ((s.dup2 (s.childFd (stdinOf i)) 0).childFd (stdoutOf i)) 1).childFd (stderrOf i))
      2).tidy (i + 1) := by
    rw [d1.childFd, d0.childFd, d0.childFd]
    rfl
  rw [heq]
  generalize (s.dup2 (s.childFd (stdinOf i)) 0) = t0 at *
  generalize (t0.dup2 (t0.childFd (stdoutOf i)) 1) = t1 at *
  generalize (t1.dup2 (t1.childFd (stderrOf i)) 2) = t2 at *
  refine ⟨?_, ?_⟩
  · -- what is left is held by no object, for all objects belong to the children that were tidied
    intro fd e he j hrefers
    obtain ⟨k, hk, -⟩ := (d2.sound fd e (table_tidy_of_some he)).owner hrefers
    obtain ⟨hge, hholds⟩ := (holds_tidy d2.held (i + 1) fd k.owner k.role).mp ⟨e, he, k, hk, rfl, rfl⟩
    obtain ⟨p, hp, -⟩ := (d2.held.holds fd k.owner k.role).mp hholds
    have hlt := d2.held.lt_created hp
    have hcreated := b2.created
    omega
  · have hstdin : t2.table 0 = some ⟨.pipe (stdinOf i) (directionOf (stdinOf i)).cfd, none⟩ := by
      rw [d2.others 0 (by decide), d1.others 0 (by decide), d0.copied]
    have hunheld : t2.Unheld 0 := d2.unheld (d1.unheld (d0.unheld h0))
    have hdir : directionOf (stdinOf i) = .pipeIn := directionOf_add i 0
    rw [table_tidy_of_unheld d2.held (i + 1) hunheld, hstdin, hdir]
    exact ⟨_, rfl, rfl⟩

/-! ## The manager -/

/-- The stream descriptor that `parent` makes is for the parent end, or a copy of descriptor 0. -/
theorem Sound.dup {s : Pipes} (h : s.Sound) (hheld : s.Held) (hstd : s.Standard) {o : Nat} {p : Pipe} (hp : s.objects o = some p)
    {e : Entry} (he : s.table p.parentFd = some e) (fd : Fd) : (s.dup o p e fd).Sound := by
  refine h.update (x := fd) (v := some ⟨e.refers, some ⟨s.issued, o, .stream⟩⟩) ?_ rfl
  intro e' he'
  cases he'
  by_cases hzero : p.parentFd = 0
  · rw [hzero, hstd 0 (by decide)] at he
    cases he
    exact Or.inr ⟨rfl, rfl⟩
  · obtain ⟨e', he', k, hk, rfl, hrole⟩ :=
      (hheld.holds p.parentFd o .parent).mpr ⟨p, hp, nonzero_eq_some_iff.mpr ⟨hzero, rfl⟩⟩
    obtain rfl := Option.mem_unique he he'
    rw [Option.mem_def] at hk
    have hs := h _ _ he
    simp only [Entry.Sound, hk, hrole] at hs
    rcases hs with hs | ⟨hs, -⟩
    · exact Or.inl hs
    · cases hs

end Pipes

end FostWright
