import FostWright.Lemmas.Processes

/-!
# Shutdown reaches every worker

A process that was forked for a child has executed the supervisor without the write end of any stdin pipe, and no process gets a
descriptor for a pipe but from one that it has. So the write ends are the manager's alone, and its stdin object closes all of its own.
-/

namespace FostWright

open Lib

namespace Pipes

/-- What the manager does with its own descriptors after the constructor. -/
def Action.Late : Action → Prop
  | .parent _ _ => True
  | .opened _ => True
  | .closed fd => 2 < fd
  | _ => False

/-- What such an action keeps. No descriptor becomes one for the write end of a stdin that there was none for. -/
structure Keeps (s t : Pipes) : Prop where
  held : t.Held
  sound : t.Sound
  standard : t.Standard
  created : t.created = s.created
  pipes : t.pipes = s.pipes
  objects : ∀ {o p}, s.objects o = some p → ∃ p' ∈ t.objects o, p'.parentFd = p.parentFd ∧ p'.childFd = p.childFd
  refers : ∀ {fd e i}, t.table fd = some e → e.refers = Processes.stdinWrite i →
    ∃ fd' e', s.table fd' = some e' ∧ e'.refers = Processes.stdinWrite i

theorem Keeps.refl {s : Pipes} (hheld : s.Held) (hsound : s.Sound) (hstd : s.Standard) : Keeps s s :=
  ⟨hheld, hsound, hstd, rfl, rfl, fun hp => ⟨_, hp, rfl, rfl⟩, fun he hrefers => ⟨_, _, he, hrefers⟩⟩

/-- A change of one descriptor, which then is not one for the write end of a stdin that there was none for. -/
theorem refers_update {s : Pipes} {x : Fd} {v : Option Entry}
    (hv : ∀ e ∈ v, ∀ i, e.refers = Processes.stdinWrite i → ∃ fd e', s.table fd = some e' ∧ e'.refers = Processes.stdinWrite i)
    {fd : Fd} {e : Entry} {i : Nat} (he : Function.update s.table x v fd = some e) (hrefers : e.refers = Processes.stdinWrite i) :
    ∃ fd' e', s.table fd' = some e' ∧ e'.refers = Processes.stdinWrite i := by
  rw [Function.update_apply] at he
  by_cases hfd : fd = x
  · rw [if_pos hfd] at he
    exact hv e he i hrefers
  · rw [if_neg hfd] at he
    exact ⟨fd, e, he, hrefers⟩

theorem Keeps.step {s t : Pipes} {a : Action} (hheld : s.Held) (hsound : s.Sound) (hstd : s.Standard) (ha : a.Late)
    (hs : s.step a = some t) : Keeps s t := by
  have ht : t.Held := hheld.step (by rintro d readFd writeFd rfl; cases ha) hs
  cases steps_of_step hs with
  | construct => cases ha
  | move => cases ha
  | child => cases ha
  | returned hp =>
    exact ⟨ht, hsound, hstd, rfl, rfl, fun hp => ⟨_, hp, rfl, rfl⟩, fun he hrefers => ⟨_, _, he, hrefers⟩⟩
  | throws => exact Keeps.refl hheld hsound hstd
  | @dup o fd p e hp _ he hfree =>
    refine ⟨ht, hsound.dup hheld hstd hp he fd, hstd.update (hstd.three_le hfree) rfl, rfl, rfl, ?_, ?_⟩
    · intro o' p' hp'
      change ∃ q ∈ (s.dup o p e fd).objects o', _
      unfold Pipes.dup
      rw [objects_put]
      by_cases ho : o' = o
      · subst ho
        rw [hp] at hp'
        cases hp'
        rw [if_pos rfl]
        exact ⟨_, rfl, rfl, rfl⟩
      · rw [if_neg ho]
        exact ⟨p', hp', rfl, rfl⟩
    · refine refers_update (x := fd) (v := some ⟨e.refers, some ⟨s.issued, o, .stream⟩⟩) ?_
      intro e' he' i hrefers
      cases he'
      exact ⟨_, e, he, hrefers⟩
  | close => cases ha
  | destroy => cases ha
  | @opened fd hfree =>
    refine ⟨ht, hsound.update (x := fd) (v := some ⟨.other, none⟩) ?_ rfl, hstd.update (hstd.three_le hfree) rfl, rfl, rfl,
      fun hp => ⟨_, hp, rfl, rfl⟩, ?_⟩
    · intro e he
      cases he
      exact Entry.sound_other
    · refine refers_update (x := fd) (v := some ⟨.other, none⟩) ?_
      intro e he i hrefers
      cases he
      cases hrefers
  | @closed fd hunheld =>
    refine ⟨ht, hsound.update (x := fd) (v := none) (by simp) rfl, hstd.update ha rfl, rfl, rfl, fun hp => ⟨_, hp, rfl, rfl⟩, ?_⟩
    refine refers_update (x := fd) (v := none) ?_
    intro e he
    cases he
  | copied => cases ha

/-- The constructor of the next pipe of a child. -/
theorem Built.construct {s t : Pipes} {count : Nat} {readFd writeFd : Fd} (hbuilt : s.Built count) (hheld : s.Held) (hsound : s.Sound)
    (hstd : s.Standard) (hs : s.step (.construct (directionOf count) readFd writeFd) = some t) :
    t.Built (count + 1) ∧ t.Held ∧ t.Sound ∧ t.Standard := by
  have hcases := steps_of_step hs
  cases hcases with
  | construct hread hwrite hne =>
    have hfree : ∀ e, s.table (ends readFd writeFd e) = none := by
      intro e
      cases e <;> assumption
    have hzero : ∀ e, ends readFd writeFd e ≠ 0 := by
      intro e
      have := hstd.three_le (hfree e)
      exact Nat.ne_of_gt (Nat.lt_of_lt_of_le (by decide) this)
    have hcount := hbuilt.created
    have hpipes := hbuilt.pipes
    refine ⟨⟨?_, ?_, ?_⟩, ?_, ?_, ?_⟩
    · change s.created + 1 = count + 1
      omega
    · change s.pipes + 1 = count + 1
      omega
    · intro o ho
      change ∃ p ∈ Function.update s.objects s.created _ o, _
      rw [Function.update_apply]
      by_cases heq : o = s.created
      · rw [if_pos heq]
        exact ⟨_, rfl, hzero _, hzero _⟩
      · rw [if_neg heq]
        exact hbuilt.objects o (by omega)
    · refine hheld.step ?_ hs
      rintro d r w h
      cases h
      exact ⟨hzero .read, hzero .write⟩
    · have hparent := hsound.update (t := s.obtain (ends readFd writeFd (directionOf count).pfd) (.pipe s.pipes (directionOf count).pfd)
        s.created .parent) (v := some ⟨.pipe s.pipes (directionOf count).pfd, some ⟨s.issued, s.created, .parent⟩⟩) (by
          intro e he
          cases he
          refine Or.inl ?_
          simp only [hpipes, hcount]
          rfl) rfl
      refine hparent.update (x := ends readFd writeFd (directionOf count).cfd)
        (v := some ⟨.pipe s.pipes (directionOf count).cfd, some ⟨s.issued + 1, s.created, .child⟩⟩) ?_ rfl
      intro e he
      cases he
      refine Or.inl ?_
      simp only [hpipes, hcount]
      rfl
    · have hparent := hstd.update (t := s.obtain (ends readFd writeFd (directionOf count).pfd) (.pipe s.pipes (directionOf count).pfd)
        s.created .parent) (hstd.three_le (hfree _)) rfl
      exact hparent.update (hstd.three_le (hfree _)) rfl

end Pipes

/-- What a process other than the manager has. -/
def Forked.Good : Forked → Prop
  | .starting i pipes => pipes.Held ∧ pipes.Sound ∧ pipes.Standard ∧ pipes.Built (4 * (i + 1))
  | .running i table keeps =>
    (∀ fd j, table fd ≠ some (Processes.stdinWrite j)) ∧ (keeps = true → table 0 = some (Processes.stdinRead i))
  | .ended _ => True

namespace Processes

/-- The descriptors of all processes, from the start of the constructor on. -/
structure Good (number : Nat) (s : Processes) : Prop where
  held : s.manager.Held
  sound : s.manager.Sound
  standard : s.manager.Standard
  built : s.closed = 0 → s.manager.Built (4 * s.child + min s.stage 4)
  objects : ∀ i < s.child, s.closed ≤ i → ∃ p ∈ s.manager.objects (stdinOf i), p.parentFd ≠ 0
  stage : s.stage ≤ 5
  child : 0 < s.stage → s.child < number
  done : 0 < s.closed → s.child = number
  waiting : s.waiting = true → 0 < s.closed
  gone : ∀ i < s.closed, ¬ s.ManagerHas (stdinWrite i)
  forked : ∀ p ∈ s.forked, p.Good

/-- The stdins of the children that have been made. -/
theorem objects_of_built {m : Pipes} {c k : Nat} (h : m.Built (4 * c + k)) :
    ∀ i < c, ∃ p ∈ m.objects (stdinOf i), p.parentFd ≠ 0 := by
  intro i hi
  obtain ⟨p, hp, hparent, -⟩ := h.objects (stdinOf i) (by simp only [stdinOf]; omega)
  exact ⟨p, hp, hparent⟩

theorem good_start (number : Nat) {inherited : Fd → Bool} (h : ∀ fd < 3, inherited fd = true) : (start inherited).Good number := by
  refine ⟨Pipes.held_start inherited, ?_, ?_, ?_, ?_, Nat.zero_le 5, ?_, ?_, ?_, ?_, ?_⟩
  · intro fd e he
    obtain ⟨-, heq⟩ := Option.ite_none_right_eq_some.mp he
    cases heq
    exact Entry.sound_other
  · intro fd hfd
    exact if_pos (h fd hfd)
  · intro _
    exact ⟨rfl, rfl, fun o ho => absurd ho (Nat.not_lt_zero o)⟩
  · intro i hi
    exact absurd hi (Nat.not_lt_zero i)
  · intro h
    exact absurd h (Nat.lt_irrefl 0)
  · intro h
    exact absurd h (Nat.lt_irrefl 0)
  · intro h
    cases h
  · intro i hi
    exact absurd hi (Nat.not_lt_zero i)
  · intro p hp
    cases hp

/-! ## The steps of the manager -/

/-- In the constructor no stdin has been closed. -/
theorem Good.closed_eq_zero {number : Nat} {s : Processes} (h : s.Good number) (hlt : s.child < number) : s.closed = 0 := by
  by_contra hne
  have := h.done (by omega)
  omega

/-- The constructor goes on to a next stage of a child, with no change to the other processes. -/
theorem Good.build {number : Nat} {s : Processes} (h : s.Good number) (hlt : s.child < number) {m : Pipes} {stage : Nat}
    (hstage : stage ≤ 5) (hheld : m.Held) (hsound : m.Sound) (hstd : m.Standard) (hbuilt : m.Built (4 * s.child + min stage 4)) :
    ({ s with manager := m, stage := stage } : Processes).Good number := by
  have hclosed := h.closed_eq_zero hlt
  refine ⟨hheld, hsound, hstd, fun _ => hbuilt, fun i hi _ => objects_of_built hbuilt i hi, hstage, fun _ => hlt, ?_, h.waiting, ?_,
    h.forked⟩
  · intro hpos
    have hpos' : 0 < s.closed := hpos
    omega
  · intro i hi
    have hi' : i < s.closed := hi
    omega

theorem Good.pipe {number : Nat} {s t : Processes} (h : s.Good number) {readFd writeFd : Fd}
    (hs : s.step number (.pipe readFd writeFd) = some t) : t.Good number := by
  obtain ⟨⟨hlt, hstage⟩, hs⟩ := Option.ite_none_right_eq_some.mp hs
  obtain ⟨t', hmanage, rfl⟩ := Option.map_eq_some_iff.mp hs
  obtain ⟨m, hm, rfl⟩ := Option.map_eq_some_iff.mp hmanage
  have hbuilt := h.built (h.closed_eq_zero hlt)
  rw [Nat.min_eq_left (by omega)] at hbuilt
  rw [← directionOf_add s.child s.stage] at hm
  obtain ⟨hbuilt', hheld, hsound, hstd⟩ := hbuilt.construct h.held h.sound h.standard hm
  refine h.build hlt (by omega) hheld hsound hstd ?_
  rw [Nat.min_eq_left (by omega)]
  exact hbuilt'

theorem Good.backchannel {number : Nat} {s t : Processes} (h : s.Good number) {fd : Fd}
    (hs : s.step number (.backchannel fd) = some t) : t.Good number := by
  obtain ⟨⟨hstage, hfree⟩, hs⟩ := Option.ite_none_right_eq_some.mp hs
  obtain ⟨t', hmanage, rfl⟩ := Option.map_eq_some_iff.mp hs
  obtain ⟨m, hm, rfl⟩ := Option.map_eq_some_iff.mp hmanage
  have hlt := h.child (by omega)
  have hbuilt := h.built (h.closed_eq_zero hlt)
  have hmin : 4 * s.child + min s.stage 4 = 4 * s.child + min 5 4 := by omega
  rw [hmin] at hbuilt
  have hheld : m.Held := h.held.step (by rintro d r w heq; cases heq) hm
  obtain ⟨k, hentry⟩ := Pipes.table_childFd hbuilt h.held h.sound (o := resendOf s.child) (by simp only [resendOf]; omega)
  have hcases := Pipes.steps_of_step hm
  cases hcases with
  | copied he hunheld =>
    rw [hentry] at he
    cases he
    refine h.build hlt (Nat.le_refl 5) hheld ?_ (h.standard.update (h.standard.three_le hfree) rfl)
      ⟨hbuilt.created, hbuilt.pipes, hbuilt.objects⟩
    refine h.sound.update (x := fd) (v := some ⟨.pipe (resendOf s.child) (directionOf (resendOf s.child)).cfd, none⟩) ?_ rfl
    intro e he
    cases he
    exact Entry.sound_unheld (Pipes.cfd_ne_stdinWrite _)

theorem Good.fork {number : Nat} {s t : Processes} (h : s.Good number) (hs : s.step number .fork = some t) : t.Good number := by
  obtain ⟨hstage, rfl⟩ := (Option.ite_none_right_eq_some.mp hs).imp_right Option.some.inj
  have hlt := h.child (by omega)
  have hclosed := h.closed_eq_zero hlt
  have hbuilt := h.built hclosed
  have hcount : 4 * s.child + min s.stage 4 = 4 * (s.child + 1) + min 0 4 := by omega
  rw [hcount] at hbuilt
  refine ⟨h.held, h.sound, h.standard, fun _ => hbuilt, fun i hi _ => objects_of_built hbuilt i hi, Nat.zero_le 5, ?_, ?_, h.waiting,
    ?_, ?_⟩
  · intro hpos
    exact absurd hpos (Nat.lt_irrefl 0)
  · intro hpos
    have hpos' : 0 < s.closed := hpos
    omega
  · intro i hi
    have hi' : i < s.closed := hi
    omega
  · intro p hp
    rcases List.mem_append.mp hp with hp | hp
    · exact h.forked p hp
    · rw [List.mem_singleton] at hp
      subst hp
      exact ⟨h.held, h.sound, h.standard, hbuilt⟩

/-- After the constructor. -/
theorem Good.late {number : Nat} {s t : Processes} (h : s.Good number) {a : Pipes.Action} (ha : a.Late) (hs : s.manage a = some t) :
    t.Good number := by
  obtain ⟨m, hm, rfl⟩ := Option.map_eq_some_iff.mp hs
  have hkeeps := Pipes.Keeps.step h.held h.sound h.standard ha hm
  refine ⟨hkeeps.held, hkeeps.sound, hkeeps.standard, ?_, ?_, h.stage, h.child, h.done, h.waiting, ?_, h.forked⟩
  · intro hclosed
    have hbuilt := h.built hclosed
    refine ⟨hkeeps.created.trans hbuilt.created, hkeeps.pipes.trans hbuilt.pipes, ?_⟩
    intro o ho
    obtain ⟨p, hp, hparent, hchild⟩ := hbuilt.objects o ho
    obtain ⟨p', hp', hparent', hchild'⟩ := hkeeps.objects hp
    exact ⟨p', hp', hparent' ▸ hparent, hchild' ▸ hchild⟩
  · intro i hi hge
    obtain ⟨p, hp, hparent⟩ := h.objects i hi hge
    obtain ⟨p', hp', hparent', -⟩ := hkeeps.objects hp
    exact ⟨p', hp', hparent' ▸ hparent⟩
  · rintro i hi ⟨fd, e, he, hrefers⟩
    obtain ⟨fd', e', he', hrefers'⟩ := hkeeps.refers he hrefers
    exact h.gone i hi ⟨fd', e', he', hrefers'⟩

theorem Good.close {number : Nat} {s t : Processes} (h : s.Good number) (hs : s.step number .close = some t) : t.Good number := by
  obtain ⟨⟨hdone, hlt, -⟩, hs⟩ := Option.ite_none_right_eq_some.mp hs
  obtain ⟨t', hmanage, rfl⟩ := Option.map_eq_some_iff.mp hs
  obtain ⟨m, hm, rfl⟩ := Option.map_eq_some_iff.mp hmanage
  have hcases := Pipes.steps_of_step hm
  cases hcases with
  | close =>
    refine ⟨h.held.close _, h.sound.close _, h.standard.close h.held _, ?_, ?_, h.stage, h.child, fun _ => hdone,
      fun _ => Nat.succ_pos _, ?_, h.forked⟩
    · intro hclosed
      exact absurd hclosed (Nat.succ_ne_zero _)
    · intro i hi hge
      have hgt : s.closed < i := hge
      obtain ⟨p, hp, hparent⟩ := h.objects i hi (by omega)
      refine ⟨p, ?_, hparent⟩
      rw [Pipes.objects_close, if_neg (by simp only [stdinOf]; omega)]
      exact hp
    · rintro i hi ⟨fd, e, he, hrefers⟩
      have hle : i < s.closed + 1 := hi
      by_cases heq : i = s.closed
      · subst heq
        obtain ⟨k, hk, howner⟩ := (h.sound.close (stdinOf s.closed) fd e he).owner hrefers
        have hholds := (Pipes.holds_close h.held (stdinOf s.closed) fd k.owner k.role).mp ⟨e, he, k, hk, rfl, rfl⟩
        exact hholds.1 howner
      · exact h.gone i (by omega) ⟨fd, e, Pipes.table_close_of_some he, hrefers⟩

/-! ## The steps of the other processes -/

/-- A process that was there is replaced by one that is good. -/
theorem Good.set {number : Nat} {s : Processes} (h : s.Good number) (k : Nat) {p : Forked} (hp : p.Good) :
    ({ s with forked := s.forked.set k p } : Processes).Good number := by
  refine { h with forked := ?_ }
  intro q hq
  rcases List.mem_or_eq_of_mem_set hq with hq | rfl
  · exact h.forked q hq
  · exact hp

theorem Good.launch {number : Nat} {s t : Processes} (h : s.Good number) {k : Nat} (hs : s.step number (.launch k) = some t) :
    t.Good number := by
  simp only [step] at hs
  split at hs
  · rename_i child pipes hk
    cases hs
    obtain ⟨hheld, hsound, hstd, hbuilt⟩ := h.forked _ (List.mem_of_getElem? hk)
    obtain ⟨hnone, e, he, hrefers⟩ := Pipes.table_prepare hbuilt hheld hsound hstd
    refine h.set k ⟨?_, ?_⟩
    · intro fd j hfd
      obtain ⟨e', he', hrefers'⟩ := Option.map_eq_some_iff.mp hfd
      exact hnone fd e' he' j hrefers'
    · intro _
      simp [he, hrefers]
  · cases hs

/-- A running process changes a descriptor to one that it has, or to something else. -/
theorem Good.change {number : Nat} {s t : Processes} (h : s.Good number) {k : Nat} {fd : Fd}
    {refers : (Fd → Option Referent) → Option Referent}
    (hrefers : ∀ table : Fd → Option Referent, ∀ x, refers table = some x → x = .other ∨ ∃ fd', table fd' = some x)
    (hs : s.change k fd refers = some t) : t.Good number := by
  simp only [Processes.change] at hs
  split at hs
  · rename_i child table keeps hk
    cases hs
    obtain ⟨hnone, hkeeps⟩ := h.forked _ (List.mem_of_getElem? hk)
    refine h.set k ⟨?_, ?_⟩
    · intro fd' j hfd'
      rw [Function.update_apply] at hfd'
      by_cases heq : fd' = fd
      · rw [if_pos heq] at hfd'
        rcases hrefers table _ hfd' with hx | ⟨x, hx⟩
        · cases hx
        · exact hnone x j hx
      · rw [if_neg heq] at hfd'
        exact hnone fd' j hfd'
    · intro hkeep
      simp only [Bool.and_eq_true, decide_eq_true_eq] at hkeep
      rw [Function.update_of_ne (Ne.symm hkeep.2)]
      exact hkeeps hkeep.1
  · cases hs

/-- One action keeps the descriptors good. -/
theorem Good.step {number : Nat} {s t : Processes} {a : Action} (h : s.Good number) (hs : s.step number a = some t) : t.Good number := by
  cases a with
  | pipe readFd writeFd => exact h.pipe hs
  | backchannel fd => exact h.backchannel hs
  | fork => exact h.fork hs
  | launch k => exact h.launch hs
  | parent o fd => exact h.late (a := .parent o fd) trivial (Option.ite_none_right_eq_some.mp hs).2
  | opened fd => exact h.late (a := .opened fd) trivial (Option.ite_none_right_eq_some.mp hs).2
  | closed fd =>
    obtain ⟨⟨-, hfd⟩, hs⟩ := Option.ite_none_right_eq_some.mp hs
    exact h.late (a := .closed fd) hfd hs
  | close => exact h.close hs
  | waited =>
    simp only [Processes.step] at hs
    split at hs
    · obtain ⟨-, rfl⟩ := (Option.ite_none_right_eq_some.mp hs).imp_right Option.some.inj
      exact { h with waiting := by simp }
    · cases hs
  | opens k fd =>
    refine h.change ?_ hs
    intro table x hx
    cases hfd : table fd with
    | none =>
      rw [hfd] at hx
      cases hx
      exact Or.inl rfl
    | some y =>
      rw [hfd] at hx
      exact Or.inr ⟨fd, hfd.trans hx⟩
  | closes k fd => exact h.change (by intro table x hx; cases hx) hs
  | copies k src dst => exact h.change (by intro table x hx; exact Or.inr ⟨src, hx⟩) hs
  | forks k =>
    simp only [Processes.step] at hs
    split at hs
    · rename_i child table keeps hk
      cases hs
      have hgood := h.forked _ (List.mem_of_getElem? hk)
      refine { h with forked := ?_ }
      intro p hp
      rcases List.mem_append.mp hp with hp | hp
      · exact h.forked p hp
      · rw [List.mem_singleton] at hp
        exact hp ▸ hgood
    · cases hs
  | ends k =>
    simp only [Processes.step] at hs
    split at hs
    · cases hs
      exact h.set k trivial
    · cases hs

theorem good_of_reachable {number : Nat} {inherited : Fd → Bool} (hstd : ∀ fd < 3, inherited fd = true) {s : Processes}
    (h : (system number inherited).Reachable s) : s.Good number :=
  h.invariant (good_start number hstd) (fun _ _ _ hgood _ hs => hgood.step hs)

/-- In every state of every run after the constructor, for a pool of any size: the manager has the write end of the stdin pipe of every
child that `capacity::close` has not closed, no other process has that of any child, and once it has closed it no process has it; and
while it waits for a child, every process of that child that still has the standard input it was started with is at its end of file. -/
theorem shutdown_reaches_every_worker (number : Nat) (inherited : Fd → Bool) (hstd : ∀ fd < 3, inherited fd = true) (s : Processes)
    (h : (system number inherited).Reachable s) (hconstructed : s.Constructed number) :
    (∀ i < number, ¬ s.OtherHas (stdinWrite i)) ∧
      (∀ i < number, s.ManagerHas (stdinWrite i) ↔ s.closed ≤ i) ∧
      (s.waiting = true → ∀ table, .running (s.closed - 1) table true ∈ s.forked →
        table 0 = some (stdinRead (s.closed - 1)) ∧ ¬ s.ManagerHas (stdinWrite (s.closed - 1)) ∧
          ¬ s.OtherHas (stdinWrite (s.closed - 1))) := by
  have hgood := good_of_reachable hstd h
  obtain ⟨hchild, hlaunched⟩ := hconstructed
  have hother : ∀ i, ¬ s.OtherHas (stdinWrite i) := by
    rintro i ⟨p, hp, fd, hfd⟩
    have hpgood := hgood.forked p hp
    have hplaunched := hlaunched p hp
    cases p with
    | starting child pipes => exact hplaunched
    | running child table keeps => exact hpgood.1 fd i hfd
    | ended child => cases hfd
  refine ⟨fun i _ => hother i, ?_, ?_⟩
  · intro i hi
    constructor
    · intro hhas
      by_contra hlt
      exact hgood.gone i (by omega) hhas
    · intro hge
      obtain ⟨p, hp, hparent⟩ := hgood.objects i (by omega) hge
      obtain ⟨e, he, k, hk, howner, hrole⟩ :=
        (hgood.held.holds p.parentFd (stdinOf i) .parent).mpr ⟨p, hp, nonzero_eq_some_iff.mpr ⟨hparent, rfl⟩⟩
      have hsound := hgood.sound _ _ he
      rw [Option.mem_def] at hk
      have hdir : directionOf (stdinOf i) = .pipeIn := directionOf_add i 0
      simp only [Entry.Sound, hk, howner, hrole, hdir] at hsound
      rcases hsound with hsound | ⟨hsound, -⟩
      · exact ⟨p.parentFd, e, he, hsound⟩
      · cases hsound
  · intro hwaiting table hmem
    have hpos := hgood.waiting hwaiting
    exact ⟨(hgood.forked _ hmem).2 rfl, hgood.gone _ (by omega), hother _⟩

/-- A pool of two children, of which the first has its stream descriptor made, is closed, and ends. -/
theorem shutdown_reaches_every_worker_run :
    ∃ s : Processes, s.closed = 1 ∧ ¬ s.OtherHas (stdinWrite 0) ∧ ¬ s.ManagerHas (stdinWrite 0) ∧ s.ManagerHas (stdinWrite 1) := by
  obtain ⟨s, hs, hp⟩ := System.reachable_of_run (S := system 2 (fun fd => decide (fd < 3)))
    [.pipe 3 4, .pipe 5 6, .pipe 7 8, .pipe 9 10, .backchannel 11, .fork, .pipe 12 13, .pipe 14 15, .pipe 16 17, .pipe 18 19,
      .backchannel 20, .launch 0, .fork, .launch 1, .parent 0 21, .forks 0, .close, .ends 2, .ends 0, .waited]
    (fun s => s.closed == 1 && decide (s.Constructed 2)) (by decide)
  rw [Bool.and_eq_true, beq_iff_eq, decide_eq_true_eq] at hp
  obtain ⟨hclosed, hconstructed⟩ := hp
  obtain ⟨hother, hmanager, -⟩ :=
    shutdown_reaches_every_worker 2 _ (by intro fd hfd; exact decide_eq_true hfd) s hs hconstructed
  refine ⟨s, hclosed, hother 0 (by decide), ?_, (hmanager 1 (by decide)).mpr (by omega)⟩
  intro hhas
  have := (hmanager 0 (by decide)).mp hhas
  omega

end Processes

end FostWright
